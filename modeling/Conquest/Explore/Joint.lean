import Conquest.Explore.Query
import Conquest.Explore.Told

/-!
# Joint — the values of a run satisfy its constraints

Every version of a signal has a term of its own, so that the values that a run
noted for the versions are a valuation of the terms. Where the log tells the run,
that valuation satisfies the initial formulas and all constraints that
`build_stack` collects, and `check_satisfiability` finds a model. Where a
level-sensitive process reads a signal before its update, the constraints may
have no model at all.
-/

namespace Conquest

open Bv Run

variable {S : Type} [DecidableEq S]

/-! ## The terms of the signals -/

/-- What the constructors set up and no record destroys: there is a version 0 of
every signal and one of every input for each of the clocks, all of them
different. -/
structure SigState.Ready (decl : S → SigDecl) (clocks : Nat) (st : SigState S) : Prop where
  nonempty : ∀ s, (st.core s).termStack ≠ []
  inputs : ∀ s, (decl s).isInput = true → clocks < (st.core s).termStack.length
  below : st.Below
  distinct : st.Distinct

section Ready

variable {d : Design S} {clocks : Nat} {st st' : SigState S}

omit [DecidableEq S] in
theorem SigState.Constructed.ready {decl : S → SigDecl} {gUnroll : Nat}
    (h : st.Constructed decl gUnroll) (hclocks : clocks ≤ gUnroll + 10)
    (hscalar : ∀ s, (decl s).isInput = true → (decl s).isArray = false) :
    st.Ready decl clocks where
  nonempty := by
    intro s
    obtain ⟨base, hbase⟩ := h.core s
    rw [hbase, SMTSigCore.new, ← List.length_pos_iff, List.length_range']
    split <;> omega
  inputs := by
    intro s hs
    obtain ⟨base, hbase⟩ := h.core s
    rw [hbase, SMTSigCore.new, List.length_range', hscalar s hs, if_neg Bool.false_ne_true]
    omega
  below := h.below
  distinct := h.distinct

theorem ready_pushes {clock : Nat} {r : LogRecord} {entries : List (Constraint S)}
    (h : st.Ready d.decl clocks) (hpush : Pushes d clock st r entries st') :
    st'.Ready d.decl clocks := by
  have hext := extends_pushes hpush
  have hkept : st'.Below ∧ st'.Distinct := by
    cases hpush with
    | clock n =>
        refine ⟨fun s id hid => h.below s id ?_, h.distinct.of_termStack (marker_termStack st n)⟩
        rwa [marker_termStack] at hid
    | assign id r hobj hclock hterm hsome =>
        have hrec := SMTAssign.records d.decl r.obj st
        exact ⟨hrec.below h.below, hrec.distinct h.below h.distinct⟩
    | state name value => exact ⟨h.below, h.distinct⟩
  refine ⟨fun s hs => h.nonempty s ?_, fun s hs => ?_, hkept.1, hkept.2⟩
  · exact List.prefix_nil.mp (hs ▸ hext.grown s)
  · rw [hext.inputs s hs]
    exact h.inputs s hs

theorem ready_scanned {simClk clock : Nat} {log : List LogRecord}
    {entries : List (Constraint S)} (h : st.Ready d.decl clocks)
    (hscan : Scanned d simClk clock st log entries st') : st'.Ready d.decl clocks := by
  induction hscan with
  | stop clock st log => exact h
  | step hr hpush hrest ih => exact ih (ready_pushes h hpush)

omit [DecidableEq S] in
theorem LogRecord.whole (hwhole : ∀ a ∈ d.assignMap, a.Whole d.decl) (r : LogRecord) :
    r.Whole d := by
  cases r with
  | clock n => trivial
  | assign id => exact fun a ha => hwhole a (List.mem_of_getElem? ha)
  | state name value => trivial

/-- The constraints of assignments to whole registers are equations. -/
theorem isFormula_scanned {simClk clock : Nat} {log : List LogRecord}
    {entries : List (Constraint S)} (hwhole : ∀ a ∈ d.assignMap, a.Whole d.decl)
    (hscan : Scanned d simClk clock st log entries st') :
    ∀ t ∈ entries.filterMap Constraint.term?, IsFormula t := by
  induction hscan with
  | stop clock st log => exact fun t ht => absurd ht List.not_mem_nil
  | step hr hpush hrest ih =>
      rw [List.filterMap_append, List.forall_mem_append]
      refine ⟨?_, ih⟩
      cases hpush with
      | clock n => exact fun t ht => absurd ht List.not_mem_nil
      | state name value => exact fun t ht => absurd ht List.not_mem_nil
      | assign id r hobj hclock hterm hsome =>
          intro t ht
          obtain rfl := List.mem_singleton.mp ht
          rw [hterm] at hsome ⊢
          cases htarget : r.obj.target with
          | branch lval =>
              exact Session.isFormula_of_isBranch (by simp [SMTAssign.isBranch, htarget]) hsome
          | assign isCommit lval =>
              have hr := LogRecord.whole hwhole (.assign id) _ hobj
              obtain ⟨sig, index, rfl, -⟩ := hr.signal htarget
              obtain ⟨heq, -⟩ := updateTerm_whole htarget hr _
              rw [heq] at hsome ⊢
              exact isFormula_mkEq hsome

end Ready

/-! ## Values of the terms -/

open Classical in
/-- The terms of the versions get the values of the versions. -/
noncomputable def valuationOf (T : Versions S) (st : SigState S) : Valuation := fun τ id =>
  if h : ∃ c : τ.Carrier, ∃ s version,
      (st.core s).termStack[version]? = some id ∧ T s version = some ⟨τ, c⟩ then h.choose
  else Valuation.zero τ id

omit [DecidableEq S] in
theorem versionValue_valuationOf {decl : S → SigDecl} {T : Versions S} {st : SigState S}
    (hdistinct : st.Distinct) {s : S} {version : Nat}
    (hlt : version < (st.core s).termStack.length) (hT : IsOf (decl s).bvType (T s version)) :
    versionValue decl (valuationOf T st) st s version = T s version := by
  obtain ⟨c, hc⟩ := hT
  have hid := List.getElem?_eq_getElem hlt
  have hex : ∃ c : (decl s).bvType.Carrier, ∃ s' version',
      (st.core s').termStack[version']? = some ((st.core s).termStack[version]) ∧
        T s' version' = some ⟨(decl s).bvType, c⟩ := ⟨c, s, version, hid, hc⟩
  obtain ⟨s', version', hid', hc'⟩ := hex.choose_spec
  obtain ⟨rfl, rfl⟩ := hdistinct s' s version' version _ hid' hid
  unfold versionValue
  rw [hid, hc']
  simp only [denote, mkVar, Option.map_some, Term.eval, valuationOf, dif_pos hex]

/-! ## Along a log -/

section Logs

variable [Encodable S] {d : Design S} {ρ : Valuation} {T : Versions S}

omit [DecidableEq S] [Encodable S] in
/-- The valuation gives the versions their values. -/
structure Carries (decl : S → SigDecl) (ρ : Valuation) (st : SigState S) (T : Versions S)
    (simClk : Nat) : Prop where
  typed : ∀ s version, version < (st.core s).termStack.length →
    IsOf (decl s).bvType (T s version) → versionValue decl ρ st s version = T s version
  inputs : ∀ s, (decl s).isInput = true → ∀ n ≤ simClk, versionValue decl ρ st s n = T s n

/-- The registers have the assigned values. -/
def Writes (decl : S → SigDecl) (ρ : Valuation) (stf : SigState S) (T : Versions S)
    (vs : VerilogState S) : Prop :=
  ∀ s, (decl s).isInput = false → ∀ i ≤ vs.assigned s, versionValue decl ρ stf s i = T s i

omit [DecidableEq S] [Encodable S] in
/-- An equation between terms has sides of one type. -/
theorem isOf_of_mkEq {τ : Ty} {id : Nat} {t : TermT}
    (h : (mkEq (mkVar τ id) t).isSome = true) : IsOf τ (denote ρ t) := by
  rcases t with _ | ⟨υ, b⟩
  · cases h
  · by_cases hty : υ = τ
    · subst hty
      exact ⟨_, rfl⟩
    · simp [mkEq, mkVar, hty] at h

/-- A record that told a version's value agrees with the valuation: the
constraint of an assignment has a term only when both sides have one type. -/
theorem Simulates.agrees {simClk : Nat} {st stf : SigState S} {vs : VerilogState S} {p : S → Bool}
    (h : Simulates d.decl ρ st vs p) (hρ : Carries d.decl ρ stf T simClk) {a : SMTAssign S}
    (hwhole : a.Whole d.decl) (hsome : (a.updateTerm d.decl st).term.isSome = true)
    (hext : SigState.Extends d.decl (a.updateTerm d.decl st).st stf)
    (htold : a.Told d.decl T vs) : a.Agrees d.decl ρ stf vs := by
  unfold SMTAssign.Told at htold
  unfold SMTAssign.Agrees
  cases htarget : a.target with
  | branch lval =>
      rw [htarget] at htold
      exact htold
  | assign isCommit lval =>
      rw [htarget] at htold
      obtain ⟨sig, index, rfl, hs⟩ := hwhole.signal htarget
      obtain ⟨hterm, hst⟩ := updateTerm_whole htarget hwhole st
      have hext' : SigState.Extends d.decl (st.updateNextVersion sig.parent) stf := by
        rw [hst] at hext
        split at hext
        · exact (extends_commit _ _).trans hext
        · exact hext
      obtain ⟨-, hlt⟩ := h.written hs hext'
      have htyped : IsOf (d.decl sig.parent).bvType (a.rval.value d.decl vs.visible) := by
        rw [← SMTExpr.denote_evalTerm (h.reads hs)]
        rw [hterm, sigTerm] at hsome
        split at hsome
        · cases hsome
        · exact isOf_of_mkEq hsome
      have hversion : vs.assigned sig.parent + 1 < (stf.core sig.parent).termStack.length := by
        by_contra hge
        simp only [versionValue, List.getElem?_eq_none (Nat.le_of_not_lt hge)] at hlt
        cases hlt
      simp only [SMTLval.parent] at htold ⊢
      exact (hρ.typed _ _ hversion (htold ▸ htyped)).trans htold

/-- One record: its formulas hold, and the valuation follows Verilog's run. -/
theorem Simulates.told {simClk clock : Nat} {st st' stf : SigState S} {vs : VerilogState S}
    {p : S → Bool} (h : Simulates d.decl ρ st vs p) (hρ : Carries d.decl ρ stf T simClk)
    {r : LogRecord} {entries : List (Constraint S)} (hpush : Pushes d clock st r entries st')
    (hwhole : ∀ a ∈ d.assignMap, a.Whole d.decl) (hno : NoOverlap d p r)
    (hext : SigState.Extends d.decl st' stf) (hclock : r.clockAfter clock ≤ simClk)
    (htold : Told d T vs r) (hwrites : Writes d.decl ρ stf T vs) :
    (∀ t ∈ entries.filterMap Constraint.term?, Holds ρ t) ∧
      Simulates d.decl ρ st' (vs.step d (fun n s => T s n) r) (waitingAfter d p r) ∧
      Writes d.decl ρ stf T (vs.step d (fun n s => T s n) r) := by
  have hrecord := r.whole hwhole
  obtain ⟨hiff, hgo⟩ := h.step hpush hrecord hno hext
  cases hpush with
  | clock n =>
      -- the inputs that the marker reads are the ones the valuation carries
      have htick : vs.tick d.decl (fun s => T s n) =
          vs.tick d.decl fun s => versionValue d.decl ρ stf s n := by
        unfold VerilogState.tick
        congr 1
        funext s
        split
        · rename_i hs
          exact (hρ.inputs s hs n hclock).symm
        · rfl
      refine ⟨hiff.mpr trivial, ?_, hwrites⟩
      simp only [VerilogState.step] at hgo ⊢
      rw [htick]
      exact hgo trivial
  | state name value => exact ⟨hiff.mpr trivial, h, hwrites⟩
  | assign id r hobj hclock hterm hsome =>
      have hagrees : r.obj.Agrees d.decl ρ stf vs :=
        h.agrees hρ (hrecord _ hobj) (hterm ▸ hsome) hext (htold _ hobj)
      have hobs : Observed d ρ stf vs (.assign id) := by
        intro a ha
        obtain rfl := Option.some.inj (hobj.symm.trans ha)
        exact hagrees
      refine ⟨hiff.mpr hobs, hgo hobs, ?_⟩
      -- the versions up to the new one: the written one agrees by the record
      intro s hs i hi
      simp only [VerilogState.step, hobj, VerilogState.exec] at hi
      have htold := htold _ hobj
      unfold SMTAssign.Told at htold
      unfold SMTAssign.Agrees at hagrees
      cases htarget : r.obj.target with
      | branch lval =>
          simp only [htarget] at hi
          exact hwrites s hs i hi
      | assign isCommit lval =>
          simp only [htarget, VerilogState.write] at hi htold hagrees
          by_cases hparent : s = lval.parent
          · subst hparent
            rw [Function.update_self] at hi
            rcases Nat.lt_or_eq_of_le hi with hlt | rfl
            · exact hwrites _ hs i (Nat.le_of_lt_succ hlt)
            · exact hagrees.trans htold.symm
          · rw [Function.update_of_ne hparent] at hi
            exact hwrites s hs i hi

/-- A whole log, as far as it is read. -/
theorem Simulates.scannedTold {simClk clock : Nat} {st stf : SigState S} {vs : VerilogState S}
    {p : S → Bool} {log : List LogRecord} {entries : List (Constraint S)}
    (hscan : Scanned d simClk clock st log entries stf)
    (hwhole : ∀ a ∈ d.assignMap, a.Whole d.decl) (hρ : Carries d.decl ρ stf T simClk)
    (hclock : clock ≤ simClk)
    (hcounts : AllSteps (fun c r => r.clockAfter c) (fun c r => ∀ n, r = .clock n → n = c + 1)
      clock log)
    (hno : AllSteps (waitingAfter d) (NoOverlap d) p log)
    (htold : AllSteps (VerilogState.step d fun n s => T s n) (Told d T) vs log)
    (h : Simulates d.decl ρ st vs p) (hwrites : Writes d.decl ρ stf T vs) :
    (∀ t ∈ entries.filterMap Constraint.term?, Holds ρ t) ∧
      ∀ s, (d.decl s).isInput = false → ∀ i ≤ (stf.core s).nextVersion,
        versionValue d.decl ρ stf s i = T s i := by
  induction hscan generalizing vs p with
  | stop clock st log =>
      refine ⟨fun t ht => absurd ht List.not_mem_nil, fun s hs i hi => hwrites s hs i ?_⟩
      rwa [← h.assigned s hs]
  | @step clock st st' st'' r log entries entries' hr hpush hrest ih =>
      obtain ⟨hcount, hcounts⟩ := hcounts
      -- the scan goes on, so this marker is not the one that ends it
      have hclock' : r.clockAfter clock ≤ simClk := by
        cases r with
        | clock n =>
            obtain rfl := hcount n rfl
            have hne : clock ≠ simClk := fun heq => hr (heq ▸ rfl)
            show clock + 1 ≤ simClk
            omega
        | assign id => exact hclock
        | state name value => exact hclock
      obtain ⟨hterms, hgo, hwrites⟩ := h.told hρ hpush hwhole hno.1 (extends_scanned hrest)
        hclock' htold.1 hwrites
      obtain ⟨hterms', hvalues⟩ := ih hρ hclock' hcounts hno.2 htold.2 hgo hwrites
      rw [List.filterMap_append, List.forall_mem_append]
      exact ⟨⟨hterms, hterms'⟩, hvalues⟩

end Logs

/-! ## Simulations -/

section Simulation

/-- The values that a run noted: the assigned ones of a register, those at the
markers of an input. -/
def Sim.versions (d : Design S) (z : Sim S) : Versions S := fun s version =>
  if (d.decl s).isInput then (z.notes.marks[version]?).bind fun σ => σ s
  else ((z.notes.written s)[version]?).join

omit [DecidableEq S] in
theorem Sim.agrees_versions (d : Design S) (z : Sim S) : Sim.Agrees d (z.versions d) z := by
  constructor
  · intro s hs i v hi
    simp [versions, hs, hi]
  · intro s hs n σ hn
    simp [versions, hs, hn]

/-- The markers of a log that counts are not above its last one. -/
theorem le_clock {clock : Nat} {log : List LogRecord}
    (h : AllSteps (fun c r => r.clockAfter c) (fun c r => ∀ n, r = .clock n → n = c + 1) clock log) :
    clock ≤ exec (fun c r => r.clockAfter c) clock log ∧
      ∀ n, .clock n ∈ log → n ≤ exec (fun c r => r.clockAfter c) clock log := by
  induction log generalizing clock with
  | nil => exact ⟨le_rfl, fun n hn => absurd hn List.not_mem_nil⟩
  | cons r log ih =>
      obtain ⟨hcount, hcounts⟩ := h
      obtain ⟨hle, hmarkers⟩ := ih hcounts
      have hafter : clock ≤ r.clockAfter clock := by
        cases r with
        | clock n =>
            obtain rfl := hcount n rfl
            exact Nat.le_succ clock
        | assign id => exact le_rfl
        | state name value => exact le_rfl
      refine ⟨hafter.trans hle, fun n hn => ?_⟩
      rcases List.mem_cons.mp hn with rfl | hn
      · exact hle
      · exact hmarkers n hn

theorem Scanned.marker_mem {d : Design S} {simClk clock : Nat} {st st' : SigState S}
    {log : List LogRecord} {entries : List (Constraint S)}
    (h : Scanned d simClk clock st log entries st') : .clock (simClk + 1) ∈ log := by
  induction h with
  | stop clock st log => exact List.mem_cons_self
  | step hr hpush hrest ih => exact List.mem_cons_of_mem _ ih

variable [Encodable S] {hw : Hardware S} {z : Sim S}

/-- The inputs have values at every clock that is read. -/
theorem Sim.Inv.versions_isOf (h : Sim.Inv hw z) {simClk : Nat}
    (hmarker : .clock (simClk + 1) ∈ z.log) {s : S} (hs : (hw.design.decl s).isInput = true)
    {n : Nat} (hn : n ≤ simClk) :
    IsOf (hw.design.decl s).bvType (z.versions hw.design s n) := by
  have hle := (le_clock h.paced.counts).2 _ hmarker
  have hlt : n < z.notes.marks.length := by
    rw [← h.paced.clock]
    omega
  simp only [versions, hs, if_true, List.getElem?_eq_getElem hlt, Option.bind_some]
  exact h.typed.marks _ (List.getElem_mem hlt) s hs

theorem Sim.Inv.versions_zero (h : Sim.Inv hw z) (s : S) :
    z.versions hw.design s 0 = (hw.design.decl s).zeroValue := by
  cases hs : (hw.design.decl s).isInput with
  | true => exact (agrees_versions hw.design z).marks s hs 0 _ h.typed.marksZero
  | false => exact (agrees_versions hw.design z).written s hs 0 _ (h.typed.writtenZero s)

/-- The values of the run are a model of what is read of its log. -/
theorem Sim.Inv.scanned (h : Sim.Inv hw z)
    (hwhole : ∀ a ∈ hw.design.assignMap, a.Whole hw.design.decl) {simClk : Nat}
    {st stf : SigState S} {entries : List (Constraint S)}
    (hready : st.Ready hw.design.decl simClk)
    (hscan : Scanned hw.design simClk 0 st.clearAllVersions (.clock 0 :: z.log) entries stf) :
    ∃ ρ,
      (∀ s, (hw.design.decl s).isInput = true → ∀ n ≤ simClk,
        versionValue hw.design.decl ρ stf s n = z.versions hw.design s n) ∧
      (∀ s, (hw.design.decl s).isInput = false → ∀ i ≤ (stf.core s).nextVersion,
        versionValue hw.design.decl ρ stf s i = z.versions hw.design s i) ∧
      ∀ t ∈ hw.design.regInit stf ++ entries.filterMap Constraint.term?, Holds ρ t := by
  have hfirst : st.clearAllVersions.Ready hw.design.decl simClk :=
    ⟨hready.nonempty, hready.inputs, hready.below, hready.distinct⟩
  have hlast := ready_scanned hfirst hscan
  have hmarker : .clock (simClk + 1) ∈ z.log := by
    rcases List.mem_cons.mp hscan.marker_mem with heq | hmem
    · cases heq
    · exact hmem
  have hρ : Carries hw.design.decl (valuationOf (z.versions hw.design) stf) stf
      (z.versions hw.design) simClk :=
    { typed := fun s version hlt hT => versionValue_valuationOf hlast.distinct hlt hT
      inputs := fun s hs n hn => versionValue_valuationOf hlast.distinct
        (Nat.lt_of_le_of_lt hn (hlast.inputs s hs)) (h.versions_isOf hmarker hs hn) }
  generalize valuationOf (z.versions hw.design) stf = ρ at hρ
  -- version 0 of every signal is its initial value, and there both runs start
  have hzero : ∀ s, versionValue hw.design.decl ρ stf s 0 = z.versions hw.design s 0 := by
    refine fun s => hρ.typed s 0 (List.length_pos_of_ne_nil (hlast.nonempty s)) ?_
    rw [h.versions_zero]
    exact ⟨_, rfl⟩
  have hsim : Simulates hw.design.decl ρ st.clearAllVersions (.init hw.design.decl)
      fun _ => false := by
    refine simulates_init hready.nonempty fun s => ?_
    rw [← h.versions_zero, ← hzero]
    exact (versionValue_of_grown ((extends_scanned hscan).grown s)
      (List.length_pos_of_ne_nil (hready.nonempty s))).symm
  have hwrites : Writes hw.design.decl ρ stf (z.versions hw.design) (.init hw.design.decl) := by
    intro s _ i hi
    obtain rfl := Nat.le_zero.mp hi
    exact hzero s
  have hfollows := h.recorded.follows _ (agrees_versions hw.design z)
  cases hscan with
  | @step clock st st' st'' r log entries entries' hr hpush hrest =>
      obtain ⟨hterms, hgo, hwrites⟩ := hsim.told hρ hpush hwhole h.recorded.noOverlap.1
        (extends_scanned hrest) (Nat.zero_le _) hfollows.told.1 hwrites
      obtain ⟨hterms', hvalues⟩ := hgo.scannedTold hrest hwhole hρ (Nat.zero_le _)
        h.paced.counts h.recorded.noOverlap.2 hfollows.told.2 hwrites
      refine ⟨ρ, hρ.inputs, hvalues, ?_⟩
      rw [List.forall_mem_append, List.filterMap_append, List.forall_mem_append]
      refine ⟨?_, hterms, hterms'⟩
      rw [hw.design.forall_regInit_iff]
      intro s
      rw [holds_initTerm_iff, hzero, h.versions_zero]
      exact (hw.design.decl s).isZero_zeroValue

/-- **A simulation is satisfiable.** Where every step of a run meets the
condition, the values of the run satisfy the initial formulas and all constraints
that `build_stack` collects from its log. `check_satisfiability` then never ends
in `error`, whatever a candidate has replayed. -/
theorem simulation_satisfiable {active : List Nat}
    (hrun : Reach (Sim.step hw) (Sim.Meets hw) (Sim.start hw active) z)
    (hwhole : ∀ a ∈ hw.design.assignMap, a.Whole hw.design.decl) {x y : Session S}
    (hready : x.sigs.Ready hw.design.decl x.simClk)
    (hbuild : x.simulateBuildStack hw.design z.log = some y) :
    (∃ ρ,
        (∀ s, (hw.design.decl s).isInput = true → ∀ n ≤ x.simClk,
          versionValue hw.design.decl ρ y.sigs s n = z.versions hw.design s n) ∧
        (∀ s, (hw.design.decl s).isInput = false → ∀ i ≤ (y.sigs.core s).nextVersion,
          versionValue hw.design.decl ρ y.sigs s i = z.versions hw.design s i) ∧
        ∀ t ∈ hw.design.regInit y.sigs ++ y.terms, Holds ρ t) ∧
      ∀ (solver : Solver) (w : Session S), Session.Kept hw.design y w →
        (w.checkSatisfiability hw.design solver.check).isSome := by
  obtain ⟨-, hscan⟩ := Session.scanned_of_simulate hbuild
  obtain ⟨ρ, hinputs, hregs, hterms⟩ := (Sim.inv_reach hrun).scanned hwhole hready hscan
  refine ⟨⟨ρ, hinputs, hregs, hterms⟩, fun solver w hkept => ?_⟩
  have hne : ∀ s, (y.sigs.core s).termStack ≠ [] := by
    intro s hs
    exact hready.nonempty s (List.prefix_nil.mp (hs ▸ (extends_scanned hscan).grown s))
  rw [Session.checkSatisfiability_eq, regInit_of_extends hkept.sigs hne, Session.terms, hkept.stack,
    ← Session.terms]
  cases hcheck : solver.check (hw.design.regInit y.sigs ++ y.terms) with
  | none => exact absurd (fun t ht _ => hterms t ht) (solver.complete hcheck ρ)
  | some model => rfl

end Simulation

/-! ## A level-sensitive process -/

/-- The signals are the clock, the reset, the input `a` and the registers `q` and
`w`, of one bit each. -/
def hazardDesign : Design (Fin 5) where
  decl := fun s => { width := 1, isInput := s < 3, indexCount := 1 }
  regList := [3, 4]
  inputList := [0, 1, 2]
  assignMap :=
    [{ id := 0, target := .branch (.leaf (.signal ⟨2, 0, 0, false⟩)),
       rval := .leaf (.number ⟨['1']⟩), process := 0, block := 0 },
     { id := 1, target := .branch (.leaf (.signal ⟨2, 0, 0, false⟩)),
       rval := .leaf (.number ⟨['0']⟩), process := 0, block := 1 },
     { id := 2, target := .assign true (.signal ⟨4, 0, 0, false⟩ none),
       rval := .leaf (.signal ⟨3, 0, 0, false⟩), process := 0, block := 0 },
     { id := 3, target := .assign true (.signal ⟨4, 0, 0, false⟩ none),
       rval := .leaf (.number ⟨['0']⟩), process := 0, block := 1 },
     { id := 4, target := .assign false (.signal ⟨3, 0, 0, false⟩ none),
       rval := .node (.unary ⟨"bv-not", some (.op .not), false⟩)
         [.leaf (.signal ⟨3, 0, 0, false⟩)],
       process := 1, block := 2 }]
  isEdgeTriggered := fun p => p == 1
  branchNodes := [[0, 1]]
  hashTable := fun id => BitVec.ofNat 32 (id + 1)
  mem_regList := by decide
  mem_inputList := by decide
  id_eq := by decide
  writesReg := by decide
  isBranch := by decide

/-- `always @(a or q) case (a) 1: w = q; 0: w = 0;` and
`always @(posedge clk) q <= ~q;`, with the rows of `a`. -/
def hazard (row : Nat → BitVec 1) : Hardware (Fin 5) where
  design := hazardDesign
  clock := 0
  reset := 1
  resetActive := true
  processes :=
    [{ sensitivity := [(.any, 2), (.any, 3)]
       body := .arm 0 (.assign 2) (.arm 1 (.assign 3) .noop)
       uniform := .inl (by decide) },
     { sensitivity := [(.pos, 0)]
       body := .assign 4
       uniform := .inr (by decide) }]
  inPorts := [2]
  row := fun n _ => row n
  isPrinted := fun _ => true
  verilog := fun e σ => e.value hazardDesign.decl σ
  clock_decl := by decide
  reset_decl := by decide
  inPorts_decl := by decide

def hazardSession (simClk : Nat) : Session (Fin 5) where
  sigs :=
    { core := fun s => SMTSigCore.new 1 (hazardDesign.decl s) (12 * s.val)
      fresh := 60 }
  context := []
  stack := []
  hashValue := 0
  pathHashMap := []
  coverage :=
    { coveredInSim := fun _ => none
      atClock := fun _ _ => false
      coveredBranchCount := 0 }
  targetList := [0, 1]
  prevIds := []
  currIds := []
  isNewBlock := false
  simNum := 0
  simClk := simClk

omit [DecidableEq S] in
theorem reads_signal_iff {sig : SMTSignal S} {s : S} :
    SMTExpr.Reads s (.leaf (.signal sig)) ↔ sig.parent = s := by
  constructor
  · rintro ⟨h⟩
    exact h
  · exact .signal

omit [DecidableEq S] in
theorem not_reads_number {n : SMTNumber} {s : S} : ¬ SMTExpr.Reads s (.leaf (.number n)) := by
  rintro ⟨⟩

/-- The condition asks that `a` and `q` are settled when a process runs. -/
theorem hazard_meets {row : Nat → BitVec 1} {x : Sim (Fin 5)} {i : Nat}
    (ha : x.store 2 = x.notes.view 2) (hq : x.store 3 = x.notes.view 3)
    (hw : x.notes.held 4 = false) : Sim.Meets (hazard row) x (.run i) := by
  have hreads : ∀ s, s = 2 ∨ s = 3 → ∀ y : Sim (Fin 5), y.store = x.store ∧ y.notes = x.notes →
      Sim.ReadsSettled (hazard row) (.leaf (.signal ⟨s, 0, 0, false⟩)) y := by
    intro s hs y ⟨hstore, hnotes⟩
    refine ⟨fun t ht => ?_, rfl⟩
    obtain rfl := reads_signal_iff.mp ht
    rw [hstore, hnotes]
    rcases hs with rfl | rfl
    · exact ha
    · exact hq
  have hnumber : ∀ n (y : Sim (Fin 5)), Sim.ReadsSettled (hazard row) (.leaf (.number n)) y :=
    fun n y => ⟨fun t ht => absurd ht not_reads_number, rfl⟩
  intro p hp
  -- the only processes are 0, with the two arms, and 1
  match i, hp with
  | 0, hp =>
      obtain rfl := Option.some.inj hp
      intro a ha
      obtain rfl := Option.some.inj ha
      split
      · rename_i htakes
        refine ⟨fun _ => ⟨_, rfl, ?_, hnumber _ _, htakes⟩, fun a ha => ?_⟩
        · exact hreads 2 (.inl rfl) _ ⟨rfl, rfl⟩
        · obtain rfl := Option.some.inj ha
          refine ⟨rfl, ?_, hw⟩
          exact hreads 3 (.inr rfl) _ ⟨rfl, rfl⟩
      · intro a ha
        obtain rfl := Option.some.inj ha
        split
        · rename_i htakes
          refine ⟨fun _ => ⟨_, rfl, ?_, hnumber _ _, htakes⟩, fun a ha => ?_⟩
          · exact hreads 2 (.inl rfl) _ ⟨rfl, rfl⟩
          · obtain rfl := Option.some.inj ha
            exact ⟨rfl, hnumber _ _, hw⟩
        · trivial
  | 1, hp =>
      obtain rfl := Option.some.inj hp
      intro a ha
      obtain rfl := Option.some.inj ha
      refine ⟨rfl, ⟨fun t ht => ?_, rfl⟩, trivial⟩
      cases ht with
      | node he ht =>
          obtain rfl := List.mem_singleton.mp he
          exact (hreads 3 (.inr rfl) x ⟨rfl, rfl⟩).settled t ht

/-- A run in which `a` and `q` are settled whenever a process runs. -/
def settledRun (row : Nat → BitVec 1) : List Choice → Sim (Fin 5) → Option (Sim (Fin 5))
  | [], x => some x
  | c :: cs, x =>
      if c = .advance ∨ x.store 2 = x.notes.view 2 ∧ x.store 3 = x.notes.view 3 ∧
          x.notes.held 4 = false then
        (x.step (hazard row) c).bind (settledRun row cs)
      else none

theorem hazard_reach {row : Nat → BitVec 1} {x y z : Sim (Fin 5)} {cs : List Choice}
    (h : Reach (Sim.step (hazard row)) (Sim.Meets (hazard row)) x y)
    (hz : settledRun row cs y = some z) :
    Reach (Sim.step (hazard row)) (Sim.Meets (hazard row)) x z := by
  induction cs generalizing y with
  | nil =>
      cases hz
      exact h
  | cons c cs ih =>
      obtain ⟨hsettled, hz⟩ := Option.ite_none_right_eq_some.mp hz
      obtain ⟨w, hw, hz⟩ := Option.bind_eq_some_iff.mp hz
      refine ih (h.step ?_ hw) hz
      cases c with
      | advance => trivial
      | run i =>
          obtain ⟨ha, hq, hheld⟩ := hsettled.resolve_left (by simp)
          exact hazard_meets ha hq hheld

/-- With equal rows, up to the second rise of the clock. -/
def quietChoices : List Choice :=
  List.replicate 2 .advance ++ [.run 1] ++ List.replicate 2 .advance ++ [.run 0] ++
    List.replicate 8 .advance ++ [.run 1] ++ [.advance]

def quietLog : List LogRecord :=
  [.assign 4, .clock 1, .assign 1, .assign 3, .assign 4, .clock 2]

theorem quiet_run :
    (settledRun (fun _ => 0) quietChoices (Sim.start (hazard fun _ => 0) [])).map Sim.log =
      some quietLog := by
  decide +kernel

theorem quiet_built : ((hazardSession 1).simulateBuildStack hazardDesign quietLog).isSome := by
  decide +kernel

theorem hazard_ready {simClk : Nat} (h : simClk < 12) :
    (hazardSession simClk).sigs.Ready hazardDesign.decl simClk := by
  have hconstructed : (hazardSession simClk).sigs.Constructed hazardDesign.decl 1 := by
    refine ⟨fun s => ⟨_, rfl⟩, ?_, ?_⟩
    · intro s id hid
      obtain ⟨i, hi, rfl⟩ := List.mem_range'.mp hid
      change i < 12 at hi
      show 12 * s.val + 1 * i < 60
      omega
    · intro s s' id hid hid'
      obtain ⟨i, hi, rfl⟩ := List.mem_range'.mp hid
      obtain ⟨i', hi', heq⟩ := List.mem_range'.mp hid'
      change i < 12 at hi
      change i' < 12 at hi'
      omega
  exact hconstructed.ready (Nat.le_of_lt_succ h) fun s _ => rfl

theorem hazard_whole : ∀ a ∈ hazardDesign.assignMap, a.Whole hazardDesign.decl := by
  intro a ha
  simp only [hazardDesign, List.mem_cons, List.not_mem_nil, or_false] at ha
  rcases ha with rfl | rfl | rfl | rfl | rfl
  · trivial
  · trivial
  · exact ⟨rfl, rfl, rfl, rfl⟩
  · exact ⟨rfl, rfl, rfl, rfl⟩
  · exact ⟨rfl, rfl, rfl, rfl⟩

/-- With equal rows the run is satisfiable. -/
theorem quiet_satisfiable :
    ∃ (z : Sim (Fin 5)) (y : Session (Fin 5)),
      (hazardSession 1).simulateBuildStack hazardDesign z.log = some y ∧
      (∃ ρ,
        (∀ s, (hazardDesign.decl s).isInput = true → ∀ n ≤ 1,
          versionValue hazardDesign.decl ρ y.sigs s n = z.versions hazardDesign s n) ∧
        (∀ s, (hazardDesign.decl s).isInput = false → ∀ i ≤ (y.sigs.core s).nextVersion,
          versionValue hazardDesign.decl ρ y.sigs s i = z.versions hazardDesign s i) ∧
        ∀ t ∈ hazardDesign.regInit y.sigs ++ y.terms, Holds ρ t) ∧
      ∀ (solver : Solver) (w : Session (Fin 5)), Session.Kept hazardDesign y w →
        (w.checkSatisfiability hazardDesign solver.check).isSome := by
  obtain ⟨z, hz, hlog⟩ := Option.map_eq_some_iff.mp quiet_run
  obtain ⟨y, hy⟩ := Option.isSome_iff_exists.mp quiet_built
  rw [← hlog] at hy
  exact ⟨z, y, hy, simulation_satisfiable (x := hazardSession 1) (hazard_reach .start hz)
    hazard_whole (hazard_ready (by decide)) hy⟩

/-- The run that gives the process the row of `a` before and after its change. -/
def hazardChoices : List Choice :=
  List.replicate 2 .advance ++ [.run 1] ++ List.replicate 2 .advance ++ [.run 0] ++
    List.replicate 8 .advance ++ [.run 1] ++ List.replicate 2 .advance ++ [.run 0] ++
    List.replicate 5 .advance ++ [.run 0] ++ List.replicate 5 .advance ++ [.run 1] ++ [.advance]

def hazardLog : List LogRecord :=
  [.assign 4, .clock 1, .assign 1, .assign 3, .assign 4, .clock 2, .assign 1, .assign 3,
   .assign 0, .assign 2, .assign 4, .clock 3]

theorem hazard_run :
    (hazardChoices.foldlM (Sim.step (hazard (BitVec.ofNat 1)))
      (Sim.start (hazard (BitVec.ofNat 1)) [])).map Sim.log = some hazardLog := by
  decide +kernel

theorem hazard_built : ((hazardSession 2).simulateBuildStack hazardDesign hazardLog).isSome := by
  decide +kernel

/-- No assignment to `w` waits for a marker. -/
theorem hazard_noOverlap (log : List LogRecord) :
    AllSteps (waitingAfter hazardDesign) (NoOverlap hazardDesign) (fun _ => false) log := by
  refine allSteps_of_inv (fun p => p 4 = false) (fun p r hp => ?_) rfl log
  cases r with
  | clock n => exact ⟨trivial, rfl⟩
  | state name value => exact ⟨trivial, hp⟩
  | assign id =>
      have hwrites : ∀ a ∈ hazardDesign.assignMap,
          a.NoOverlap p ∧ a.waitingAfter p 4 = false := by
        intro a ha
        simp only [hazardDesign, List.mem_cons, List.not_mem_nil, or_false] at ha
        rcases ha with rfl | rfl | rfl | rfl | rfl
        · exact ⟨trivial, hp⟩
        · exact ⟨trivial, hp⟩
        · exact ⟨hp, hp⟩
        · exact ⟨hp, hp⟩
        · exact ⟨trivial, hp⟩
      refine ⟨fun a ha => (hwrites a (List.mem_of_getElem? ha)).1, ?_⟩
      simp only [waitingAfter]
      cases ha : hazardDesign.getAssign id with
      | none => exact hp
      | some a => exact (hwrites a (List.mem_of_getElem? ha)).2

/-- Both arms are recorded at clock 2, whose row is one value. -/
theorem hazard_not_observed {ρ : Valuation} {st : SigState (Fin 5)} {vs : VerilogState (Fin 5)} :
    ¬ AllSteps
      (VerilogState.step hazardDesign fun n s => versionValue hazardDesign.decl ρ st s n)
      (Observed hazardDesign ρ st) vs (recorded 2 (.clock 0 :: hazardLog)) := by
  have hrec : recorded 2 (.clock 0 :: hazardLog) = .clock 0 :: hazardLog.dropLast := by decide
  rw [hrec]
  rintro ⟨-, -, -, -, -, -, -, hzero, -, hone, -⟩
  have hzero := (hzero _ rfl).1
  have hone := (hone _ rfl).1
  refine absurd (hone.symm.trans (Eq.trans ?_ hzero)) ?_
  · refine SMTExpr.value_congr fun s hs => ?_
    obtain rfl := reads_signal_iff.mp hs
    rfl
  · have hvalue : ∀ σ : Store (Fin 5),
        (SMTExpr.leaf (.number ⟨['1']⟩)).value hazardDesign.decl σ = some ⟨.bv 1, 1#1⟩ ∧
          (SMTExpr.leaf (.number ⟨['0']⟩)).value hazardDesign.decl σ = some ⟨.bv 1, 0#1⟩ :=
      fun σ => ⟨rfl, rfl⟩
    rw [(hvalue _).1, (hvalue _).2]
    decide

/-- No solver finds a model of the constraints of that run. -/
theorem hazard_unsatisfiable :
    ∃ z y,
      Reach (Sim.step (hazard (BitVec.ofNat 1))) (fun _ _ => True)
        (Sim.start (hazard (BitVec.ofNat 1)) []) z ∧
      (hazardSession 2).simulateBuildStack hazardDesign z.log = some y ∧
      ∀ solver : Solver, y.checkSatisfiability hazardDesign solver.check = none := by
  obtain ⟨z, hz, hlog⟩ := Option.map_eq_some_iff.mp hazard_run
  obtain ⟨y, hy⟩ := Option.isSome_iff_exists.mp hazard_built
  refine ⟨z, y, Reach.start.run (fun _ _ _ => trivial) hz, hlog ▸ hy, fun solver => ?_⟩
  rw [Session.checkSatisfiability_eq, if_neg]
  intro hsome
  obtain ⟨ρ, hρ⟩ := Option.isSome_iff_exists.mp hsome
  have hmodel := solver.sound hρ
  obtain ⟨-, hscan⟩ := Session.scanned_of_simulate hy
  have hterms : ∀ t ∈ y.stack.filterMap Constraint.term?, Holds ρ t := fun t ht =>
    hmodel t (List.mem_append_right _ ht) (isFormula_scanned hazard_whole hscan t ht)
  refine hazard_not_observed ((Simulates.scanned hscan ?_ ?_
    (simulates_first (hazard_ready (by decide)).nonempty)).mp hterms)
  · exact fun r _ => r.whole hazard_whole
  · exact hazard_noOverlap _

end Conquest
