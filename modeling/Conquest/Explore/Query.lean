import Conquest.Explore.Mutate

/-!
# Query — when the solver is asked about the alternative

The formulas that `solve_constraints` checks are those of the recorded stack.
They are the ones the search is after only if the candidate's record is the last
one, its clock is replayed without change, and the alternative has the condition
of the recorded arm.
-/

namespace Conquest

open Bv Run

variable {S : Type} [DecidableEq S] {d : Design S}

/-! ## The stack around the candidate -/

section Around

variable {stack : List (Constraint S)} {r : Record S} {before after : List (Constraint S)}
  {recs : List (Record S)}

omit [DecidableEq S] in
theorem filterMap_record?_map (recs : List (Record S)) :
    (recs.map Constraint.record).filterMap Constraint.record? = recs := by
  induction recs with
  | nil => rfl
  | cons r recs ih => exact congrArg (r :: ·) ih

omit [DecidableEq S] in
theorem mem_filterMap_record? {entries : List (Constraint S)} {r : Record S} :
    r ∈ entries.filterMap Constraint.record? ↔ .record r ∈ entries := by
  rw [List.mem_filterMap]
  constructor
  · rintro ⟨c, hc, hrec⟩
    cases c with
    | clk n => cases hrec
    | record r' =>
        obtain rfl := Option.some.inj hrec
        exact hc
  · exact fun hr => ⟨.record r, hr, rfl⟩

omit [DecidableEq S] in
theorem terms_eq_records (entries : List (Constraint S)) :
    entries.filterMap Constraint.term? =
      (entries.filterMap Constraint.record?).map Record.term := by
  induction entries with
  | nil => rfl
  | cons c entries ih =>
      cases c with
      | clk n => exact ih
      | record r => exact congrArg (r.term :: ·) ih

omit [DecidableEq S] in
theorem Around.records (h : Around stack r before recs after) :
    stack.filterMap Constraint.record? =
      before.filterMap Constraint.record? ++
        (recs ++ r :: after.filterMap Constraint.record?) := by
  conv_lhs => rw [h.stack_eq]
  rw [List.filterMap_append, List.filterMap_cons, List.filterMap_append, filterMap_record?_map]
  rfl

omit [DecidableEq S] in
/-- The records of the clocks before. -/
theorem Around.filter_before (h : Around stack r before recs after) :
    (stack.filterMap Constraint.record?).filter (fun r' => r'.clock < r.clock) =
      before.filterMap Constraint.record? := by
  rw [h.records, List.filter_append, List.filter_eq_self.mpr, List.filter_eq_nil_iff.mpr,
    List.append_nil]
  · intro r' hr'
    rw [decide_eq_true_iff, not_lt]
    rcases List.mem_append.mp hr' with hr' | hr'
    · exact (h.recs_clock r' hr').ge
    · rcases List.mem_cons.mp hr' with rfl | hr'
      · exact le_rfl
      · exact h.after_clock _ (mem_filterMap_record?.mp hr')
  · exact fun r' hr' => decide_eq_true (h.before_clock _ (mem_filterMap_record?.mp hr'))

omit [DecidableEq S] in
/-- The records of the clock that come before. -/
theorem Around.filter_recs (h : Around stack r before recs after) (p : Record S → Bool) :
    (stack.filterMap Constraint.record?).filter
        (fun r' => r'.clock = r.clock && r'.index < r.index && p r') = recs.filter p := by
  have hrecs : recs.filter (fun r' => r'.clock = r.clock && r'.index < r.index && p r') =
      recs.filter p := by
    refine List.filter_congr fun r' hr' => ?_
    simp [h.recs_clock r' hr', h.recs_index r' hr']
  have hbefore : (before.filterMap Constraint.record?).filter
      (fun r' => r'.clock = r.clock && r'.index < r.index && p r') = [] := by
    refine List.filter_eq_nil_iff.mpr fun r' hr' => ?_
    have hlt : r'.clock < r.clock := h.before_clock _ (mem_filterMap_record?.mp hr')
    simp [hlt.ne]
  have hafter : (r :: after.filterMap Constraint.record?).filter
      (fun r' => r'.clock = r.clock && r'.index < r.index && p r') = [] := by
    refine List.filter_eq_nil_iff.mpr fun r' hr' => ?_
    have hle : ¬ r'.index < r.index := by
      rcases List.mem_cons.mp hr' with rfl | hr'
      · exact lt_irrefl _
      · exact (h.after_index r' (mem_filterMap_record?.mp hr')).not_gt
    simp [hle]
  rw [h.records, List.filter_append, List.filter_append, hbefore, hrecs, hafter, List.append_nil,
    List.nil_append]

omit [DecidableEq S] in
theorem Around.mem_recs_iff (h : Around stack r before recs after) {r' : Record S} :
    r' ∈ recs ↔
      r' ∈ stack.filterMap Constraint.record? ∧ r'.clock = r.clock ∧ r'.index < r.index := by
  have hfilter := h.filter_recs fun _ => true
  rw [List.filter_true] at hfilter
  rw [← hfilter, List.mem_filter]
  simp

omit [DecidableEq S] in
/-- Nothing is recorded after a record with the greatest index. -/
theorem Around.after_iff (h : Around stack r before recs after) :
    after.filterMap Constraint.record? = [] ↔
      ∀ r' ∈ stack.filterMap Constraint.record?, r'.index ≤ r.index := by
  rw [h.records]
  constructor
  · intro hnil r' hr'
    rw [hnil, List.mem_append, List.mem_append, List.mem_singleton] at hr'
    rcases hr' with hr' | hr' | rfl
    · exact (h.before_index r' (mem_filterMap_record?.mp hr')).le
    · exact (h.recs_index r' hr').le
    · exact le_rfl
  · intro hle
    refine List.eq_nil_iff_forall_not_mem.mpr fun r' hr' => ?_
    have hgt := h.after_index r' (mem_filterMap_record?.mp hr')
    have := hle r' (List.mem_append_right _ (List.mem_append_right _ (List.mem_cons_of_mem _ hr')))
    omega

omit [DecidableEq S] in
/-- The marker at which the loop over the records before the clock stops. -/
theorem Around.dropWhile_eq (h : Around stack r before recs after) :
    stack.dropWhile (fun c => c.clock ≠ r.clock) =
      .clk r.clock :: (recs.map Constraint.record ++ .record r :: after) := by
  conv_lhs => rw [h.stack_eq]
  rw [List.dropWhile_append_of_pos fun c hc => decide_eq_true (h.before_clock c hc).ne]
  simp [Constraint.clock]

end Around

/-- The stack of a simulation around one of its records. -/
theorem Session.exists_around {x₀ x : Session S} {log : List LogRecord}
    (hbuild : x₀.simulateBuildStack d log = some x)
    (hmarkers : ((recorded x₀.simClk (.clock 0 :: log)).filterMap LogRecord.marker?).Pairwise
      (· < ·)) {r : Record S} (hr : .record r ∈ x.stack) :
    ∃ before recs after, Around x.stack r before recs after := by
  obtain ⟨-, hscan⟩ := scanned_of_simulate hbuild
  obtain ⟨_, hfirst⟩ := hscan.first
  exact Conquest.exists_around hfirst (clocked_scanned hscan) (indexed_of_simulate hbuild)
    (markers_scanned hscan ▸ hmarkers) hr

/-! ## The state of a try -/

theorem isFormula_mkEq {s t : TermT} (h : (mkEq s t).isSome) : IsFormula (mkEq s t) := by
  rcases s with _ | ⟨τ, a⟩
  · cases h
  rcases t with _ | ⟨σ, b⟩
  · cases h
  by_cases hτ : σ = τ
  · subst hτ
    simp [mkEq, IsFormula]
  · simp [mkEq, hτ] at h

section State

variable {st st' : SigState S}

/-- The term of an alternative depends on what is read only. -/
theorem Matches.term_of_isBranch {decl : S → SigDecl} {a : SMTAssign S}
    (h : Matches decl st st') (hb : st.RegsInBounds decl) (ha : a.isBranch = true) :
    (a.updateTerm decl st').term = (a.updateTerm decl st).term := by
  unfold SMTAssign.isBranch at ha
  split at ha
  · rename_i lval htarget
    simp only [SMTAssign.updateTerm, htarget]
    rw [SMTExpr.evalTerm_of_sigTerm decl (h.sigTerm_curr hb) lval,
      SMTExpr.evalTerm_of_sigTerm decl (h.sigTerm_curr hb) a.rval]
  · cases ha

theorem Around.matches_restore {stack before after : List (Constraint S)} {r : Record S}
    {recs : List (Record S)} (h : Around stack r before recs after)
    (hmade : AllSteps (stackStep d.decl) (Made d) st stack) :
    Matches d.decl (exec (stackStep d.decl) st (before ++ [.clk r.clock]))
      ((exec (stackStep d.decl) st stack).restoreVersions d.decl r.clock) :=
  Conquest.matches_restore h.stack_eq h.not_again hmade

omit [DecidableEq S] in
/-- The initial formulas are about version 0 of every signal. -/
theorem regInit_of_extends (h : SigState.Extends d.decl st st')
    (hne : ∀ s, (st.core s).termStack ≠ []) : d.regInit st' = d.regInit st := by
  have hinit : d.initTerm st' = d.initTerm st := by
    funext s
    obtain ⟨rest, hrest⟩ := h.grown s
    unfold Design.initTerm
    rw [← hrest, List.getElem?_append_left (List.length_pos_of_ne_nil (hne s))]
  unfold Design.regInit
  rw [hinit]

end State

/-! ## The replayed clock -/

section Replayed

variable {st : SigState S} {stack before after : List (Constraint S)} {r : Record S}
  {recs : List (Record S)} {br : SMTAssign S}

/-- Where the replay leaves nothing out and no record makes a term of its own, it
returns the recorded constraints and leaves the alternative as it would have
been recorded. -/
theorem Around.replay_eq (h : Around stack r before recs after) (hb : st.RegsInBounds d.decl)
    (hmade : AllSteps (stackStep d.decl) (Made d) st stack) {p : Record S → Bool}
    (hrecs : ∀ r' ∈ recs, p r' = true ∧ r'.obj.makesTerm = false) (hbr : br.isBranch = true) :
    let restored := (exec (stackStep d.decl) st stack).restoreVersions d.decl r.clock
    let objs := (recs.filter p).map Record.obj
    replayTerms d.decl restored objs = recs.map Record.term ∧
      (br.updateTerm d.decl (replayState d.decl restored objs)).term =
        (br.updateTerm d.decl (exec (stackStep d.decl) st (stack.take r.index))).term := by
  rw [List.filter_eq_self.mpr fun r' hr' => (hrecs r' hr').1]
  have hmatches := h.matches_restore hmade
  have hstack : stack = (before ++ [.clk r.clock]) ++
      (recs.map Constraint.record ++ .record r :: after) := by
    rw [h.stack_eq, List.append_assoc, List.singleton_append]
  have htake : stack.take r.index =
      (before ++ [.clk r.clock]) ++ recs.map Constraint.record := by
    have hmarked : (before ++ [.clk r.clock]) ++ recs.map Constraint.record =
        before ++ .clk r.clock :: recs.map Constraint.record := by simp
    rw [hmarked, h.index_eq, ← hmarked, hstack, ← List.append_assoc, List.take_left']
    rfl
  have hb' := regsInBounds_exec (d := d) hb (before ++ [.clk r.clock])
  obtain ⟨hclock, hlater⟩ := made_clock h.stack_eq hmade
  have hext := hlater.trans (extends_restore _ r.clock)
  obtain ⟨hterms, hend⟩ := hmatches.replay hb' hclock (fun r' hr' => (hrecs r' hr').2) hext
  refine ⟨hterms, ?_⟩
  rw [htake, exec_append]
  exact hend.term_of_isBranch (regsInBounds_exec hb' _) hbr

/-- The recorded constraints from the clock on are those of the replay, in some
order, exactly when the replay leaves nothing out and changes nothing. -/
theorem Around.perm_iff (h : Around stack r before recs after) (hst : st.Below)
    (hb : st.RegsInBounds d.decl) (hmade : AllSteps (stackStep d.decl) (Made d) st stack)
    (hbr : br.isBranch = true) (p : Record S → Bool) :
    let restored := (exec (stackStep d.decl) st stack).restoreVersions d.decl r.clock
    (recs.map Record.term ++ r.term :: after.filterMap Constraint.term?).Perm
        (replayTerms d.decl restored ((recs.filter p).map Record.obj) ++
          [(br.updateTerm d.decl
            (replayState d.decl restored ((recs.filter p).map Record.obj))).term]) ↔
      after.filterMap Constraint.record? = [] ∧
        (∀ r' ∈ recs, p r' = true ∧ r'.obj.makesTerm = false) ∧
        (br.updateTerm d.decl (exec (stackStep d.decl) st (stack.take r.index))).term =
          r.term := by
  intro restored
  constructor
  · intro hperm
    -- Counting the constraints: nothing is recorded later, nothing is left out.
    have hlength := hperm.length_eq
    have hle := List.length_filter_le p recs
    simp only [terms_eq_records, List.length_append, List.length_map, List.length_cons,
      length_replayTerms, List.length_nil] at hlength
    have hafter : after.filterMap Constraint.record? = [] :=
      List.eq_nil_of_length_eq_zero (by omega)
    have hall : ∀ r' ∈ recs, p r' = true :=
      List.length_filter_eq_length_iff.mp (by omega)
    rw [terms_eq_records, hafter, List.map_nil] at hperm
    have hmakes : ∀ r' ∈ recs, r'.obj.makesTerm = false := by
      by_contra hsome
      -- The replay would make a term that no recorded constraint can contain.
      have hnew : ∃ a ∈ (recs.filter p).map Record.obj, a.makesTerm = true := by
        rw [List.filter_eq_self.mpr hall]
        simpa using hsome
      obtain ⟨t, ht, hfresh⟩ : ∃ t ∈ replayTerms d.decl restored ((recs.filter p).map Record.obj),
          t.isSome → ¬ Over (· < (exec (stackStep d.decl) st stack).fresh) t :=
        exists_new_term hnew restored le_rfl
      have hmem := hperm.symm.subset (List.mem_append_left _ ht)
      have hrec : ∃ r', .record r' ∈ stack ∧ r'.term = t := by
        rcases List.mem_append.mp hmem with hmem | hmem
        · obtain ⟨r', hr', rfl⟩ := List.mem_map.mp hmem
          exact ⟨r', mem_filterMap_record?.mp (h.mem_recs_iff.mp hr').1, rfl⟩
        · obtain rfl := List.mem_singleton.mp hmem
          exact ⟨r, h.stack_eq ▸ by simp, rfl⟩
      obtain ⟨r', hr', rfl⟩ := hrec
      obtain ⟨_, -, hsome', -⟩ := hmade.exists_of_mem hr'
      exact hfresh hsome' (over_made hst hmade r' hr')
    have hrecs : ∀ r' ∈ recs, p r' = true ∧ r'.obj.makesTerm = false := fun r' hr' =>
      ⟨hall r' hr', hmakes r' hr'⟩
    obtain ⟨hterms, hterm⟩ := h.replay_eq hb hmade hrecs hbr
    rw [hterms, hterm] at hperm
    refine ⟨hafter, hrecs, ?_⟩
    exact (List.singleton_perm_singleton.mp ((List.perm_append_left_iff _).mp hperm)).symm
  · rintro ⟨hafter, hrecs, hterm⟩
    obtain ⟨hterms, hterm'⟩ := h.replay_eq hb hmade hrecs hbr
    rw [hterms, hterm', hterm, terms_eq_records, hafter]
    exact .refl _

end Replayed

/-! ## The question -/

namespace Session

omit [DecidableEq S] in
/-- Where a candidate comes from. -/
theorem exists_of_mem_branches {x : Session S} {cand : Candidate S} {beginClk endClk : Nat}
    (h : cand ∈ x.branches d beginClk endClk) :
    .record cand.cnst ∈ x.stack ∧
      ∃ id ∈ d.branchList cand.cnst.obj.id, d.getAssign id = some cand.br := by
  obtain ⟨h, -⟩ := List.mem_filter.mp h
  obtain ⟨r, hr, h⟩ := List.mem_flatMap.mp h
  have hstack : .record r ∈ x.stack :=
    (List.dropWhile_suffix _).subset (mem_filterMap_record?.mp hr)
  unfold alternatives at h
  split at h
  · obtain ⟨h, -⟩ := List.mem_filter.mp h
    obtain ⟨br, hmem, rfl⟩ := List.mem_map.mp h
    obtain ⟨id, hid, hget⟩ := List.mem_filterMap.mp hmem
    obtain ⟨hid, -⟩ := List.mem_filter.mp hid
    exact ⟨hstack, id, hid, hget⟩
  · cases h

omit [DecidableEq S] in
theorem mem_branches {x : Session S} {cand : Candidate S} {beginClk endClk : Nat}
    (h : cand ∈ x.branches d beginClk endClk) :
    .record cand.cnst ∈ x.stack ∧ cand.br.isBranch = true ∧ cand.br.writesReg d.decl = true := by
  obtain ⟨hstack, id, hid, hget⟩ := exists_of_mem_branches h
  refine ⟨hstack, ?_, d.writesReg_of_getAssign hget⟩
  unfold Design.branchList at hid
  cases hnode : d.branchNodes.find? fun node => node.contains cand.cnst.obj.id with
  | none =>
      rw [hnode] at hid
      exact absurd hid List.not_mem_nil
  | some node =>
      rw [hnode, Option.getD_some] at hid
      have hbranch := d.isBranch node (List.mem_of_find?_eq_some hnode) id hid
      rw [show d.assignMap[id]? = some cand.br from hget] at hbranch
      exact hbranch

/-- The formulas of the recorded stack are those of the alternative: its record
is the last one, the replay of its clock leaves nothing out and makes no term,
and the alternative has the condition of the recorded arm. The counters are at
`st` where the scan of the log starts. -/
structure Asked (d : Design S) (st : SigState S) (x : Session S) (cand : Candidate S) : Prop where
  last : ∀ r ∈ x.records, r.index ≤ cand.cnst.index
  replayed : ∀ r ∈ x.records, r.clock = cand.cnst.clock → r.index < cand.cnst.index →
    d.keeps cand.cnst.obj.process r = true ∧ r.obj.makesTerm = false
  condition : (cand.br.updateTerm d.decl
    (exec (stackStep d.decl) st (x.stack.take cand.cnst.index))).term = cand.cnst.term

theorem isFormula_of_isBranch {a : SMTAssign S} {st : SigState S} (ha : a.isBranch = true)
    (hsome : (a.updateTerm d.decl st).term.isSome) : IsFormula (a.updateTerm d.decl st).term := by
  unfold SMTAssign.isBranch at ha
  split at ha
  · rename_i lval htarget
    simp only [SMTAssign.updateTerm, htarget] at hsome ⊢
    exact isFormula_mkEq hsome
  · cases ha

/-- **When the solver is asked about the alternative.** Let `find_next_cfg`
accept a candidate after a simulation whose clock markers increase. The formulas
that `solve_constraints` checked are the intended ones, and the model satisfies
the condition of the alternative, exactly when the alternative was `Asked`. -/
theorem findNextCfg_asks_iff {x₀ x y : Session S} {log : List LogRecord}
    {beginClk endClk : Nat} {cands : List (Candidate S)} {cand : Candidate S}
    {solver : Solver} {model : Valuation}
    (hbuild : x₀.simulateBuildStack d log = some x)
    (hne : ∀ s, (x₀.sigs.core s).termStack ≠ []) (hbelow : x₀.sigs.Below)
    (hmarkers : ((recorded x₀.simClk (.clock 0 :: log)).filterMap LogRecord.marker?).Pairwise
      (· < ·))
    (hcands : ∀ c ∈ cands, c ∈ x.branches d beginClk endClk)
    (hfind : x.tryCandidates d solver.check cands = some (some (cand, model), y)) :
    (y.context.Perm (x.expectedContext d cand) ∧ Holds model (x.mutatedTerm d cand)) ↔
      Asked d x₀.sigs.clearAllVersions x cand := by
  obtain ⟨-, hscan⟩ := scanned_of_simulate hbuild
  obtain ⟨hmade, hsigs⟩ := made_scanned hscan
  have hreg : ∀ r, .record r ∈ x.stack → r.obj.writesReg d.decl = true := fun r hr =>
    (hmade.exists_of_mem hr).choose_spec.2.2
  obtain ⟨⟨rest, rfl⟩, htry⟩ := tryCandidates_eq_some hreg
    (fun c hc => (mem_branches (hcands c hc)).2.2) hfind
  obtain ⟨hmem, hbr, hbrReg⟩ := mem_branches (hcands cand List.mem_cons_self)
  obtain ⟨hkept, hcontext, hmodel, -⟩ := tryCandidate_spec hreg hbrReg htry
  obtain ⟨before, recs, after, hAround⟩ := exists_around hbuild hmarkers hmem
  -- The counters start within their stacks, which never become empty.
  have hbounds : x₀.sigs.clearAllVersions.RegsInBounds d.decl := SigState.regsInBounds_clear hne
  have hne' : ∀ s, (x.sigs.core s).termStack ≠ [] := fun s hnil =>
    hne s (List.prefix_nil.mp (hnil ▸ (extends_scanned hscan).grown s))
  rw [regInit_of_extends hkept.sigs hne'] at hcontext
  have hbelow' : x₀.sigs.clearAllVersions.Below := hbelow
  have hterms : x.terms = (before.filterMap Constraint.record?).map Record.term ++
      (recs.map Record.term ++ cand.cnst.term :: after.filterMap Constraint.term?) := by
    rw [terms, terms_eq_records, hAround.records, terms_eq_records]
    simp
  have hreplayed : x.replayed d cand = recs.filter (d.keeps cand.cnst.obj.process) :=
    hAround.filter_recs _
  have hperm : y.context.Perm (x.expectedContext d cand) ↔
      Asked d x₀.sigs.clearAllVersions x cand := by
    unfold expectedContext mutatedTerm records
    rw [hcontext, hterms, hreplayed, hAround.filter_before, hsigs]
    simp only [List.append_assoc, List.perm_append_left_iff]
    refine (hAround.perm_iff hbelow' hbounds hmade hbr _).trans ?_
    rw [hAround.after_iff]
    constructor
    · rintro ⟨hlast, hrecs, hcondition⟩
      exact ⟨hlast, fun r hr hclock hlt => hrecs r (hAround.mem_recs_iff.mpr ⟨hr, hclock, hlt⟩),
        hcondition⟩
    · rintro ⟨hlast, hrecs, hcondition⟩
      refine ⟨hlast, fun r hr => ?_, hcondition⟩
      obtain ⟨hr, hclock, hlt⟩ := hAround.mem_recs_iff.mp hr
      exact hrecs r hr hclock hlt
  refine ⟨fun h => hperm.mp h.1, fun h => ⟨hperm.mpr h, ?_⟩⟩
  -- The condition is the recorded one, which the model satisfies.
  have hmutated : x.mutatedTerm d cand = cand.cnst.term := by
    rw [← h.condition, mutatedTerm, hreplayed, hsigs]
    refine (hAround.replay_eq hbounds hmade (fun r hr => ?_) hbr).2
    obtain ⟨hr, hclock, hlt⟩ := hAround.mem_recs_iff.mp hr
    exact h.replayed r hr hclock hlt
  have hsome : (x.mutatedTerm d cand).isSome := by
    obtain ⟨_, -, hsome, -⟩ := hmade.exists_of_mem hmem
    exact hmutated ▸ hsome
  refine solver.sound hmodel _ ?_ (isFormula_of_isBranch hbr hsome)
  rw [hmutated, hcontext, hterms]
  simp

/-! ## Acceptance -/

theorem replay_isSome {target : Record S} {recs : List (Record S)}
    (h : ∀ r ∈ recs, r.index < target.index) (after : List (Constraint S)) (x : Session S) :
    (x.replay d target (recs.map Constraint.record ++ .record target :: after)).isSome := by
  induction recs generalizing x with
  | nil => simp [replay]
  | cons r recs ih =>
      obtain ⟨hr, hrecs⟩ := List.forall_mem_cons.mp h
      rw [List.map_cons, List.cons_append, replay, if_neg hr.ne]
      split
      · exact ih hrecs _
      · exact ih hrecs x

/-- A candidate of a satisfiable stack is accepted. -/
theorem tryCandidate_accepts (solver : Solver) {cand : Candidate S} {x : Session S}
    {before after : List (Constraint S)} {recs : List (Record S)} {ρ : Valuation}
    (hAround : Around x.stack cand.cnst before recs after)
    (hreg : ∀ r, .record r ∈ x.stack → r.obj.writesReg d.decl = true)
    (hbr : cand.br.writesReg d.decl = true) (hne : ∀ s, (x.sigs.core s).termStack ≠ [])
    (hρ : Satisfies ρ (d.regInit x.sigs ++ x.terms)) :
    ∃ model y, x.tryCandidate d solver.check cand = some (some model, y) := by
  have hdrop := hAround.dropWhile_eq
  obtain ⟨z, hz⟩ := Option.isSome_iff_exists.mp (replay_isSome (d := d) hAround.recs_index after
    (x.fillPrior d solver.check cand.cnst.clock))
  have hrest : ∀ r, .record r ∈ recs.map Constraint.record ++ .record cand.cnst :: after →
      r.obj.writesReg d.decl = true := fun r hr =>
    hreg r (hAround.stack_eq ▸ List.mem_append_right _ (List.mem_cons_of_mem _ hr))
  have hkept := ((kept_fillPrior solver.check cand.cnst.clock x).trans (kept_replay hrest hz)).trans
    (kept_assertUpdate hbr z)
  have hcontext : d.regInit (z.assertUpdate d cand.br).sigs ++ (z.assertUpdate d cand.br).terms =
      d.regInit x.sigs ++ x.terms := by
    rw [regInit_of_extends hkept.sigs hne, terms, hkept.stack]
    rfl
  cases hsat : solver.check (d.regInit x.sigs ++ x.terms) with
  | none => exact absurd hρ (solver.complete hsat ρ)
  | some model =>
      refine ⟨model, (z.assertUpdate d cand.br).setContext (d.regInit x.sigs ++ x.terms), ?_⟩
      unfold tryCandidate
      rw [hdrop]
      dsimp only
      rw [hz, Option.bind_some, checkSatisfiability_eq, hcontext, hsat, Option.isSome_some,
        if_pos rfl, Option.map_some, setContext_context, hsat]

end Session

/-! ## An else arm -/

/-- `if (a) q <= a; else;`, with the input `a` and the register `q` of one bit. -/
def elseDesign : Design Bool where
  decl := fun s => { width := 1, isInput := !s, indexCount := 1 }
  regList := [true]
  inputList := [false]
  assignMap :=
    [{ id := 0, target := .branch (.leaf (.signal ⟨false, 0, 0, false⟩)),
       rval := .leaf (.number ⟨['1']⟩), process := 0, block := 0 },
     { id := 1, target := .assign false (.signal ⟨true, 0, 0, false⟩ none),
       rval := .leaf (.signal ⟨false, 0, 0, false⟩), process := 0, block := 0 },
     { id := 2, target := .branch (.leaf (.signal ⟨false, 0, 0, false⟩)),
       rval := .leaf (.number ⟨['0']⟩), process := 0, block := 1 }]
  isEdgeTriggered := fun _ => true
  branchNodes := [[0, 2]]
  hashTable := fun id => BitVec.ofNat 32 (id + 1)
  mem_regList := by decide
  mem_inputList := by decide
  id_eq := by decide
  writesReg := by decide
  isBranch := by decide

def elseSession : Session Bool where
  sigs :=
    { core := fun s => SMTSigCore.new 0 (elseDesign.decl s) (if s then 11 else 0)
      fresh := 22 }
  context := []
  stack := []
  hashValue := 0
  pathHashMap := []
  coverage :=
    { coveredInSim := fun _ => none
      atClock := fun _ _ => false
      coveredBranchCount := 0 }
  targetList := [0]
  prevIds := []
  currIds := []
  isNewBlock := false
  simNum := 0
  simClk := 1

/-- One clock in which `a` is zero. -/
def elseLog : List LogRecord := [.clock 1, .assign 2, .clock 2]

theorem else_built : (elseSession.simulateBuildStack elseDesign elseLog).isSome := by
  decide

def elseEnd : Session Bool := (elseSession.simulateBuildStack elseDesign elseLog).get else_built

def elseRecord : Record Bool where
  clock := 1
  obj := elseDesign.assignMap[2]
  term := (elseDesign.assignMap[2].updateTerm elseDesign.decl elseEnd.sigs).term
  index := 2
  hashValue := 0

/-- The alternative that `a` is one. -/
def elseCand : Candidate Bool where
  cnst := elseRecord
  br := elseDesign.assignMap[0]

theorem else_stack : elseEnd.stack = [.clk 0, .clk 1, .record elseRecord] := rfl

theorem else_branches : elseEnd.branches elseDesign 1 1 = [elseCand] := rfl

theorem else_below : elseSession.sigs.Below := by
  show ∀ s, ∀ id ∈ (elseSession.sigs.core s).termStack, id < 22
  decide

theorem else_around : Around elseEnd.stack elseRecord [.clk 0] [] [] where
  stack_eq := rfl
  before_clock := by simp [Constraint.clock, elseRecord]
  recs_clock := by simp
  after_clock := by simp
  index_eq := rfl
  before_index := by simp
  recs_index := by simp
  after_index := by simp
  not_again := by simp [Constraint.marker?]

theorem else_writesReg : ∀ r, .record r ∈ elseEnd.stack → r.obj.writesReg elseDesign.decl = true := by
  simp only [else_stack, List.mem_cons, List.not_mem_nil, or_false, reduceCtorEq, false_or]
  rintro r ⟨⟩
  rfl

theorem else_accepted : ∃ model y,
    elseEnd.tryCandidates elseDesign Solver.ideal.check (elseEnd.branches elseDesign 1 1) =
      some (some (elseCand, model), y) := by
  have hzero : Satisfies Valuation.zero (elseDesign.regInit elseEnd.sigs ++ elseEnd.terms) := by
    have hcontext : elseDesign.regInit elseEnd.sigs ++ elseEnd.terms =
        [mkEq (mkVar (.bv 1) 11) (mkConst 0#1), mkEq (mkVar (.bv 1) 0) (mkConst 0#1),
          mkEq (mkVar (.bv 1) 1) (mkConst 0#1)] := rfl
    rw [hcontext]
    simp only [Satisfies, List.forall_mem_cons]
    exact ⟨fun _ => rfl, fun _ => rfl, fun _ => rfl, fun _ h => absurd h List.not_mem_nil⟩
  have hbr : elseCand.br.writesReg elseDesign.decl = true := rfl
  obtain ⟨model, y, htry⟩ := Session.tryCandidate_accepts Solver.ideal
    else_around else_writesReg hbr (by decide) hzero
  exact ⟨model, y, by rw [else_branches, Session.tryCandidates, htry]; rfl⟩

theorem else_asks_iff : ∃ model y,
    elseEnd.tryCandidates elseDesign Solver.ideal.check (elseEnd.branches elseDesign 1 1) =
        some (some (elseCand, model), y) ∧
      ((y.context.Perm (elseEnd.expectedContext elseDesign elseCand) ∧
          Holds model (elseEnd.mutatedTerm elseDesign elseCand)) ↔
        Session.Asked elseDesign elseSession.sigs.clearAllVersions elseEnd elseCand) := by
  obtain ⟨model, y, hfind⟩ := else_accepted
  refine ⟨model, y, hfind, ?_⟩
  exact Session.findNextCfg_asks_iff (Option.some_get else_built).symm (by decide) else_below
    (by decide) (fun _ hc => hc) hfind

/-- The alternative that `a` is one is accepted with a model in which `a` is
zero, as recorded. -/
theorem else_asks_recorded :
    ∃ model y,
      elseEnd.tryCandidates elseDesign Solver.ideal.check (elseEnd.branches elseDesign 1 1) =
        some (some (elseCand, model), y) ∧
      ¬ y.context.Perm (elseEnd.expectedContext elseDesign elseCand) ∧
      ¬ Holds model (elseEnd.mutatedTerm elseDesign elseCand) := by
  obtain ⟨model, y, hfind⟩ := else_accepted
  obtain ⟨-, htry⟩ := Session.tryCandidates_eq_some else_writesReg
    (fun c hc => (Session.mem_branches hc).2.2) hfind
  obtain ⟨-, hcontext, hmodel, -⟩ := Session.tryCandidate_spec else_writesReg rfl htry
  have hmutated : elseEnd.mutatedTerm elseDesign elseCand =
      mkEq (mkVar (.bv 1) 1) (mkConst 1#1) := rfl
  have hrecorded : elseRecord.term = mkEq (mkVar (.bv 1) 1) (mkConst 0#1) := rfl
  have hsat : Satisfies model y.context := Solver.ideal.sound hmodel
  have hzero : Holds model elseRecord.term := by
    refine hsat _ ?_ trivial
    rw [hcontext]
    exact List.mem_append_right _ (List.mem_singleton_self _)
  have hnot : ¬ Holds model (elseEnd.mutatedTerm elseDesign elseCand) := by
    intro hone
    rw [hmutated, holds_mkEq_iff] at hone
    rw [hrecorded, holds_mkEq_iff] at hzero
    have hone' : Denotes model (mkVar (.bv 1) 1) 1#1 := hone.1
    have hzero' : Denotes model (mkVar (.bv 1) 1) 0#1 := hzero.1
    exact absurd (hone'.inj hzero') (by decide)
  refine ⟨model, y, hfind, fun hperm => hnot ?_, hnot⟩
  refine hsat _ (hperm.symm.subset ?_) trivial
  exact List.mem_append_right _ (List.mem_singleton_self _)

end Conquest
