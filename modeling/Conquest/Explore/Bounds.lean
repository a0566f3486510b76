import Conquest.Explore.Rows

/-!
# Bounds — the clocks that index arrays

The flags of a branch, the versions that a register had at the clocks and the
terms of an input are arrays whose sizes are fixed from `g_unroll` before the
exploration starts. They are indexed with the clocks of the log, of candidates
and of the selected branch. Only the random simulations and `explore_one_step`
decide how far those clocks go.
-/

namespace Conquest

open Run

variable {S : Type}

/-! ## Accesses -/

/-- The use of an index that nothing checks. -/
inductive Access where
  /-- `coverage[clock]` of a branch. -/
  | coverage (clock : Nat)
  /-- `version_at_clock[clock]` of a register. -/
  | versionAtClock (clock : Nat)
  /-- `term_stack[version]` of an input. -/
  | inputTerm (version : Nat)
  deriving DecidableEq, Repr

/-- The sizes of the arrays are `g_unroll+10`, `g_unroll+10` and `g_unroll+11`. -/
def Access.InBounds (unroll : Nat) : Access → Prop
  | coverage clock => clock < unroll + 10
  | versionAtClock clock => clock < unroll + 10
  | inputTerm version => version < unroll + 11

/-- `commit_versions` and `restore_versions`. -/
def Design.clockAccesses (d : Design S) (clock : Nat) : List Access :=
  d.regList.map fun _ => .versionAtClock clock

/-- `get_term` of the inputs in an `update_term`, whichever of them occur. -/
def Design.inputAccesses (d : Design S) (st : SigState S) : List Access :=
  d.inputList.map fun s => .inputTerm (st.core s).currVersion

namespace Session

variable [DecidableEq S] (d : Design S)

/-- The accesses of `create_constraint`, and of a marker. -/
def readAccesses (clock : Nat) (x : Session S) : LogRecord → List Access
  | .clock n => d.clockAccesses n
  | .assign id =>
      match d.getAssign id with
      | none => []
      | some assign =>
          d.inputAccesses x.sigs ++
            if assign.isBranch ∧ (assign.updateTerm d.decl x.sigs).term.isSome then
              [.coverage clock]
            else []
  | .state _ _ => []

def scanAccesses (clock : Nat) (x : Session S) : List LogRecord → List Access
  | [] => []
  | r :: log =>
      if r = .clock (x.simClk + 1) then []
      else
        x.readAccesses d clock r ++
          match x.read d clock r with
          | none => []
          | some x => x.scanAccesses (r.clockAfter clock) log

/-- The accesses of `simulate_build_stack`. -/
def simulateAccesses (log : List LogRecord) (x : Session S) : List Access :=
  scanAccesses d 0
    { x with
      sigs := x.sigs.clearAllVersions
      stack := []
      hashValue := 0
      isNewBlock := false }
    (.clock 0 :: log)

def replayAccesses (target : Record S) : List (Constraint S) → Session S → List Access
  | [], _ => []
  | .clk _ :: _, _ => []
  | .record r :: rest, x =>
      if r.index = target.index then []
      else if d.keeps target.obj.process r then
        d.inputAccesses x.sigs ++ replayAccesses target rest (x.assertUpdate d r.obj)
      else replayAccesses target rest x

/-- The accesses for one candidate: `restore_versions`, the replay and the
condition of the alternative. -/
def tryCandidateAccesses (check : Check) (cand : Candidate S) (x : Session S) : List Access :=
  match x.stack.dropWhile fun c => c.clock ≠ cand.cnst.clock with
  | .clk _ :: rest =>
      let x := x.fillPrior d check cand.cnst.clock
      d.clockAccesses cand.cnst.clock ++ x.replayAccesses d cand.cnst rest ++
        match x.replay d cand.cnst rest with
        | none => []
        | some x => d.inputAccesses x.sigs
  | _ => []

def tryCandidatesAccesses (check : Check) : List (Candidate S) → Session S → List Access
  | [], _ => []
  | cand :: cands, x =>
      x.tryCandidateAccesses d check cand ++
        match x.tryCandidate d check cand with
        | some (none, x) => x.tryCandidatesAccesses check cands
        | _ => []

end Session

namespace Search

variable [DecidableEq S] (d : Design S) (opts : Options) (firstAssign : Nat → Nat)

/-- `is_covered_clk` of the selected branch. -/
def checkAccesses (a : Answer S) (x : Search S) : List Access :=
  if opts.enableErrorCheck ∧ (x.session.checkSatisfiability d a.check).isSome then
    x.selected.toList.map fun (_, clock) => .coverage clock
  else []

def exploreAccesses (path : Nat) (a : Answer S) (x : Search S) : List Access :=
  { x.session with simClk := x.clk path + opts.step }.simulateAccesses d a.log

/-- The candidates, and `set_covered_clk` of the accepted one. -/
def searchAccesses (cands : List (Candidate S)) (a : Answer S) (x : Search S) : List Access :=
  x.session.tryCandidatesAccesses d a.check cands ++
    match x.session.tryCandidates d a.check cands with
    | some (some (cand, _), _) =>
        if opts.enableErrorCheck then [] else [.coverage cand.cnst.clock]
    | _ => []

/-- All accesses of a step, also of one that ends the program. -/
def accesses (x : Search S) (a : Answer S) : List Access :=
  match x.point with
  | .random i => if i < opts.randomSimNum then x.session.simulateAccesses d a.log else []
  | .pick =>
      match Rows.resumed firstAssign x with
      | none => []
      | some _ => { x.session with simNum := 0 }.simulateAccesses d a.log
  | .iterate _ =>
      match x.path with
      | none => []
      | some path =>
          x.checkAccesses d opts a ++
            match x.errorCheck d opts a with
            | none => []
            | some x => x.exploreAccesses d opts path a
  | .search _ initClk =>
      match x.path with
      | none => []
      | some path =>
          x.searchAccesses d opts
            (a.rank (x.session.branches d (initClk + 1) (x.clk path))) a
  | .confirm _ _ => x.session.simulateAccesses d a.log
  | .again _ _ => x.session.simulateAccesses d a.log
  | .restart _ =>
      match x.path with
      | none => []
      | some path => x.exploreAccesses d opts path a
  | .done => []

/-- Every access of the step is within its array. -/
def Safe (x : Search S) (a : Answer S) : Prop :=
  ∀ access ∈ x.accesses d opts firstAssign a, access.InBounds opts.unroll

end Search

/-- A random simulation, and a path that is extended, end within the arrays. -/
def Search.EndsInBounds (opts : Options) (x : Search S) : Prop :=
  match x.point with
  | .random i => i < opts.randomSimNum → opts.step < opts.unroll + 10
  | .iterate _ | .restart _ =>
      ∀ path, x.path = some path → x.clk path + opts.step < opts.unroll + 10
  | _ => True

/-- The markers of the log count the clocks, as the testbench prints them. -/
def Counts (clock : Nat) (log : List LogRecord) : Prop :=
  AllSteps (fun c r => r.clockAfter c) (fun c r => ∀ n, r = .clock n → n = c + 1) clock log

/-! ## The scan of a log -/

theorem Counts.marker_le {simClk clock n : Nat} {log : List LogRecord} (h : Counts clock log)
    (hclock : clock ≤ simClk) (hn : .clock n ∈ recorded simClk log) : n ≤ simClk := by
  induction log generalizing clock with
  | nil => cases hn
  | cons r log ih =>
      obtain ⟨hcount, hrest⟩ := h
      by_cases hr : r = .clock (simClk + 1)
      · rw [hr, recorded_stop] at hn
        cases hn
      · rw [recorded_cons hr] at hn
        have hafter : r.clockAfter clock ≤ simClk := by
          cases r with
          | clock m =>
              obtain rfl := hcount m rfl
              have hne : clock + 1 ≠ simClk + 1 := fun heq => hr (by rw [heq])
              show clock + 1 ≤ simClk
              omega
          | assign id => exact hclock
          | state name value => exact hclock
        rcases List.mem_cons.mp hn with rfl | hn
        · exact hafter
        · exact ih hrest hafter hn

/-- The versions of the inputs are within their stacks. -/
def InputsInBounds (d : Design S) (unroll : Nat) (st : SigState S) : Prop :=
  ∀ s, (d.decl s).isInput = true → (st.core s).currVersion < unroll + 11

section InBounds

variable {d : Design S} {unroll clock : Nat} {st : SigState S}

theorem InputsInBounds.inputAccesses (h : InputsInBounds d unroll st) :
    ∀ access ∈ d.inputAccesses st, access.InBounds unroll := by
  intro access haccess
  obtain ⟨s, hs, rfl⟩ := List.mem_map.mp haccess
  exact h s ((d.mem_inputList s).mp hs)

theorem inBounds_clockAccesses (h : clock < unroll + 10) :
    ∀ access ∈ d.clockAccesses clock, access.InBounds unroll := by
  intro access haccess
  obtain ⟨s, -, rfl⟩ := List.mem_map.mp haccess
  exact h

theorem InputsInBounds.marker (st : SigState S) (h : clock < unroll + 10) :
    InputsInBounds d unroll ((st.setInputVersion d.decl clock).commitVersions d.decl clock) := by
  intro s hs
  rw [marker_core, if_pos hs]
  exact Nat.lt_succ_of_lt h

theorem InputsInBounds.restore (st : SigState S) (h : clock < unroll + 10) :
    InputsInBounds d unroll (st.restoreVersions d.decl clock) := by
  intro s hs
  rw [restore_core, if_pos hs]
  exact Nat.lt_succ_of_lt h

variable [DecidableEq S]

/-- A record leaves the versions of the inputs. -/
theorem InputsInBounds.updateTerm {a : SMTAssign S} (h : InputsInBounds d unroll st)
    (ha : a.writesReg d.decl = true) :
    InputsInBounds d unroll (a.updateTerm d.decl st).st := by
  intro s hs
  have hother : some s ≠ a.assigned := by
    intro heq
    rw [SMTAssign.isInput_of_assigned ha heq] at hs
    cases hs
  rw [(a.records d.decl st).other s hother]
  exact h s hs

theorem InputsInBounds.pushes {st' : SigState S} {r : LogRecord} {entries : List (Constraint S)}
    (h : InputsInBounds d unroll st) (hpush : Pushes d clock st r entries st')
    (hr : ∀ n, r = .clock n → n < unroll + 10) : InputsInBounds d unroll st' := by
  cases hpush with
  | clock n => exact .marker st (hr n rfl)
  | assign id r hobj hclock hterm hsome => exact h.updateTerm (d.writesReg_of_getAssign hobj)
  | state name value => exact h

namespace Session

/-- The accesses for one record. -/
theorem inBounds_read {x : Session S} {r : LogRecord} (h : InputsInBounds d unroll x.sigs)
    (hclock : clock < unroll + 10) (hr : ∀ n, r = .clock n → n < unroll + 10) :
    ∀ access ∈ x.readAccesses d clock r, access.InBounds unroll := by
  cases r with
  | clock n => exact inBounds_clockAccesses (hr n rfl)
  | assign id =>
      rw [readAccesses]
      cases d.getAssign id with
      | none => exact List.forall_mem_nil _
      | some assign =>
          intro access haccess
          rcases List.mem_append.mp haccess with haccess | haccess
          · exact h.inputAccesses access haccess
          · split at haccess
            · obtain rfl := List.mem_singleton.mp haccess
              exact hclock
            · cases haccess
  | state name value => exact List.forall_mem_nil _

theorem inBounds_scan {x : Session S} {log : List LogRecord} (h : InputsInBounds d unroll x.sigs)
    (hclock : clock < unroll + 10)
    (hlog : ∀ n, .clock n ∈ recorded x.simClk log → n < unroll + 10) :
    ∀ access ∈ x.scanAccesses d clock log, access.InBounds unroll := by
  induction log generalizing clock x with
  | nil => exact List.forall_mem_nil _
  | cons r log ih =>
      rw [scanAccesses]
      split
      · exact List.forall_mem_nil _
      · rename_i hr
        rw [recorded_cons hr] at hlog
        have hmarker : ∀ n, r = .clock n → n < unroll + 10 :=
          fun n hn => hlog n (hn ▸ List.mem_cons_self)
        intro access haccess
        rcases List.mem_append.mp haccess with haccess | haccess
        · exact inBounds_read h hclock hmarker access haccess
        · cases hread : x.read d clock r with
          | none =>
              rw [hread] at haccess
              cases haccess
          | some y =>
              rw [hread] at haccess
              obtain ⟨entries, -, hclk, hpush⟩ := pushes_of_read hread
              have hafter : r.clockAfter clock < unroll + 10 := by
                cases r with
                | clock n => exact hmarker n rfl
                | assign id => exact hclock
                | state name value => exact hclock
              refine ih (h.pushes hpush hmarker) hafter ?_ access haccess
              rw [hclk]
              exact fun n hn => hlog n (List.mem_cons_of_mem _ hn)

/-- A simulation of clocks that the arrays have. -/
theorem inBounds_simulate {x : Session S} {log : List LogRecord} (hcounts : Counts 0 log)
    (hclk : x.simClk < unroll + 10) :
    ∀ access ∈ x.simulateAccesses d log, access.InBounds unroll := by
  refine inBounds_scan (fun s _ => Nat.succ_pos _) (Nat.succ_pos _) fun n hn => ?_
  dsimp only at hn
  rw [recorded_cons (by simp)] at hn
  rcases List.mem_cons.mp hn with heq | hn
  · cases heq
    exact Nat.succ_pos _
  · exact (hcounts.marker_le (Nat.zero_le _) hn).trans_lt hclk

/-- A log that is read to its end commits the registers at the last clock. -/
theorem mem_scanAccesses {x y : Session S} {log : List LogRecord}
    (h : scan d clock x log = some y) (hcounts : Counts clock log) (hclock : clock < x.simClk)
    {access : Access} (haccess : access ∈ d.clockAccesses x.simClk) :
    access ∈ x.scanAccesses d clock log := by
  induction log generalizing clock x with
  | nil => cases h
  | cons r log ih =>
      obtain ⟨hcount, hrest⟩ := hcounts
      rw [scan] at h
      have hr : r ≠ .clock (x.simClk + 1) := by
        intro heq
        have hnext := hcount _ heq
        omega
      rw [if_neg hr] at h
      obtain ⟨z, hread, hscan⟩ := Option.bind_eq_some_iff.mp h
      obtain ⟨_, -, hclk, -⟩ := pushes_of_read hread
      rw [scanAccesses, if_neg hr, hread]
      refine List.mem_append.mpr ?_
      by_cases hlast : r = .clock x.simClk
      · rw [hlast]
        exact .inl haccess
      · refine .inr (ih hscan hrest ?_ (hclk ▸ haccess))
        rw [hclk]
        cases r with
        | clock n =>
            obtain rfl := hcount n rfl
            have hne : clock + 1 ≠ x.simClk := fun heq => hlast (by rw [heq])
            show clock + 1 < x.simClk
            omega
        | assign id => exact hclock
        | state name value => exact hclock

theorem mem_simulateAccesses {x y : Session S} {log : List LogRecord}
    (h : x.simulateBuildStack d log = some y) (hcounts : Counts 0 log) (hclk : 0 < x.simClk)
    {access : Access} (haccess : access ∈ d.clockAccesses x.simClk) :
    access ∈ x.simulateAccesses d log := by
  obtain ⟨z, hscan, -⟩ := Option.map_eq_some_iff.mp h
  rw [scan, if_neg (by simp)] at hscan
  obtain ⟨w, hread, hscan⟩ := Option.bind_eq_some_iff.mp hscan
  obtain ⟨_, -, hclk', -⟩ := pushes_of_read hread
  rw [simulateAccesses, scanAccesses, if_neg (by simp), hread]
  refine List.mem_append_right _ (mem_scanAccesses hscan hcounts ?_ ?_)
  · rw [hclk']
    exact hclk
  · rw [hclk']
    exact haccess

/-! ## Candidates -/

theorem inBounds_replay (target : Record S) {entries : List (Constraint S)} {x : Session S}
    (h : InputsInBounds d unroll x.sigs)
    (hreg : ∀ r, .record r ∈ entries → r.obj.writesReg d.decl = true) :
    (∀ access ∈ x.replayAccesses d target entries, access.InBounds unroll) ∧
      ∀ y, x.replay d target entries = some y → InputsInBounds d unroll y.sigs := by
  induction entries generalizing x with
  | nil => exact ⟨List.forall_mem_nil _, fun y hy => by cases hy⟩
  | cons c entries ih =>
      have hregs := fun r hr => hreg r (List.mem_cons_of_mem _ hr)
      cases c with
      | clk n => exact ⟨List.forall_mem_nil _, fun y hy => by cases hy⟩
      | record r =>
          rw [replayAccesses, replay]
          split
          · refine ⟨List.forall_mem_nil _, fun y hy => ?_⟩
            obtain rfl := Option.some.inj hy
            exact h
          · split
            · have hupdate : InputsInBounds d unroll (x.assertUpdate d r.obj).sigs :=
                h.updateTerm (hreg r List.mem_cons_self)
              obtain ⟨hrest, hend⟩ := ih hupdate hregs
              exact ⟨List.forall_mem_append.mpr ⟨h.inputAccesses, hrest⟩, hend⟩
            · exact ih h hregs

/-- One candidate of a clock that the arrays have. -/
theorem inBounds_tryCandidate {check : Check} {cand : Candidate S} {x : Session S}
    (hreg : ∀ r, .record r ∈ x.stack → r.obj.writesReg d.decl = true)
    (hclock : cand.cnst.clock < unroll + 10) :
    ∀ access ∈ x.tryCandidateAccesses d check cand, access.InBounds unroll := by
  unfold tryCandidateAccesses
  split
  · rename_i n rest hdrop
    have hrest : ∀ r, .record r ∈ rest → r.obj.writesReg d.decl = true := by
      intro r hr
      have hsuffix : Constraint.clk n :: rest <:+ x.stack := hdrop ▸ List.dropWhile_suffix _
      exact hreg r (hsuffix.subset (List.mem_cons_of_mem _ hr))
    have hinputs : InputsInBounds d unroll (x.fillPrior d check cand.cnst.clock).sigs :=
      .restore _ hclock
    obtain ⟨hreplay, hend⟩ := inBounds_replay cand.cnst hinputs hrest
    refine List.forall_mem_append.mpr
      ⟨List.forall_mem_append.mpr ⟨inBounds_clockAccesses hclock, hreplay⟩, ?_⟩
    cases hy : (x.fillPrior d check cand.cnst.clock).replay d cand.cnst rest with
    | none => exact List.forall_mem_nil _
    | some y => exact (hend y hy).inputAccesses
  · exact List.forall_mem_nil _

theorem inBounds_tryCandidates {check : Check} {cands : List (Candidate S)} {x : Session S}
    (hreg : ∀ r, .record r ∈ x.stack → r.obj.writesReg d.decl = true)
    (hclock : ∀ cand ∈ cands, cand.cnst.clock < unroll + 10) :
    ∀ access ∈ x.tryCandidatesAccesses d check cands, access.InBounds unroll := by
  induction cands generalizing x with
  | nil => exact List.forall_mem_nil _
  | cons cand cands ih =>
      obtain ⟨hcand, hcands⟩ := List.forall_mem_cons.mp hclock
      refine List.forall_mem_append.mpr ⟨inBounds_tryCandidate hreg hcand, ?_⟩
      split
      · rename_i y htry
        obtain ⟨sigs, context, rfl⟩ := tryCandidate_eq htry
        exact ih hreg hcands
      · exact List.forall_mem_nil _

end Session

end InBounds

/-! ## The invariant of the exploration -/

section Inv

variable [DecidableEq S] {d : Design S} {opts : Options} {firstAssign : Nat → Nat}
  {x y : Search S} {a : Answer S} {events : List Event}

/-- The clocks that the next step starts from. -/
structure Search.Bounded (d : Design S) (opts : Options) (x : Search S) : Prop where
  selected : ∀ id clock, x.selected = some (id, clock) → clock < opts.unroll + 10
  point :
    match x.point with
    | .random _ =>
        x.session.simClk = opts.step ∧ (x.path.isSome → opts.step < opts.unroll + 10)
    | .search _ _ =>
        (∀ path, x.path = some path → x.clk path < opts.unroll + 10) ∧
          x.session.simClk < opts.unroll + 10 ∧
          ∀ r, .record r ∈ x.session.stack → r.obj.writesReg d.decl = true
    | .iterate _ | .pick => x.session.simClk < opts.unroll + 10
    | .confirm _ _ | .again _ _ => x.session.simClk < opts.unroll + 10
    | _ => True

/-- The records of a simulation are those of the design. -/
theorem Session.writesReg_of_simulate {x y : Session S} {log : List LogRecord}
    (h : x.simulateBuildStack d log = some y) :
    ∀ r, .record r ∈ y.stack → r.obj.writesReg d.decl = true := by
  obtain ⟨-, hscan⟩ := scanned_of_simulate h
  intro r hr
  exact ((made_scanned hscan).1.exists_of_mem hr).choose_spec.2.2

/-- **One step.** -/
theorem Search.Bounded.step (h : x.Bounded d opts) (hends : x.EndsInBounds opts)
    (hmoves : x.Moves d opts firstAssign a y events) : y.Bounded d opts := by
  obtain ⟨hselected, hpoint⟩ := h
  unfold EndsInBounds at hends
  -- only `random`, `iterate` and `restart` simulate beyond the clocks of a path,
  -- and there `hends` bounds them; `accept` goes back to a clock of the path
  cases hmoves with
  | random hx hlt hsim =>
      obtain ⟨session, -, hclk, rfl, -⟩ := simulate_eq hsim
      rw [hx] at hpoint hends
      exact ⟨hselected, hclk.trans hpoint.1, fun _ => hends hlt⟩
  | explore hx hge hpath =>
      rw [hx] at hpoint
      refine ⟨hselected, ?_⟩
      show x.session.simClk < _
      exact hpoint.1 ▸ hpoint.2 hpath
  | finish hx htargets => exact ⟨hselected, trivial⟩
  | skip hx htargets hcovered =>
      rw [hx] at hpoint
      exact ⟨hselected, hpoint⟩
  | resume hx htargets hcovered hclosest hsim =>
      obtain ⟨session, -, hclk, rfl, -⟩ := simulate_eq hsim
      rw [hx] at hpoint
      exact ⟨nofun, hclk ▸ hpoint⟩
  | stay hx htargets hcovered hclosest =>
      rw [hx] at hpoint
      exact ⟨nofun, hpoint⟩
  | @iterate target path w z _ hx hpath hcheck hsim =>
      obtain ⟨context, rfl⟩ := errorCheck_eq hcheck
      obtain ⟨session, hbuilt, hclk, rfl, -⟩ := exploreOneStep_eq hsim
      rw [hx] at hends
      have hlt := hends path hpath
      refine ⟨hselected, ?_, hclk ▸ hlt, Session.writesReg_of_simulate hbuilt⟩
      rintro p hp
      obtain rfl := Option.some.inj (hp.symm.trans hpath)
      simpa using hlt
  | reject hx hpath htry =>
      obtain ⟨sigs, context, rfl⟩ := Session.tryCandidates_eq htry
      rw [hx] at hpoint
      exact ⟨hselected, hpoint.2.1⟩
  | accept hx hpath htry haccept =>
      obtain rfl := accept_eq haccept
      rw [hx] at hpoint
      have hle := (Session.clock_of_mem_branches
        (Answer.mem_rank (Session.tryCandidates_mem htry))).2
      have hlt := hle.trans_lt (hpoint.1 _ hpath)
      refine ⟨?_, hlt⟩
      rintro id clock ⟨⟩
      exact hlt
  | confirm hx hsim =>
      obtain ⟨session, -, hclk, rfl, -⟩ := simulate_eq hsim
      rw [hx] at hpoint
      exact ⟨hselected, hclk ▸ hpoint⟩
  | cover hx hsim hlong =>
      obtain ⟨session, -, hclk, rfl, -⟩ := simulate_eq hsim
      rw [hx] at hpoint
      exact ⟨hselected, hclk ▸ hpoint⟩
  | clear hx hsim hlong =>
      obtain ⟨session, -, -, rfl, -⟩ := simulate_eq hsim
      exact ⟨hselected, trivial⟩
  | @again target clock z _ hx hsim =>
      obtain ⟨session, -, hclk, rfl, -⟩ := simulate_eq hsim
      rw [hx] at hpoint
      obtain ⟨targets, covered, uncovered, point, hnext, heq⟩ :=
        checkTarget_eq opts firstAssign target (newPath clock { x with session := session })
      rw [heq]
      have hlt : session.simClk < opts.unroll + 10 := hclk ▸ hpoint
      refine ⟨hselected, ?_⟩
      rcases hnext with rfl | rfl <;> exact hlt
  | @restart target path z _ hx hpath hsim =>
      obtain ⟨session, -, hclk, rfl, -⟩ := exploreOneStep_eq hsim
      rw [hx] at hends
      obtain ⟨targets, covered, uncovered, point, hnext, heq⟩ :=
        checkTarget_eq opts firstAssign target
          { x with
            clk := Function.update x.clk path (x.clk path + opts.step)
            session := session }
      rw [heq]
      have hlt : session.simClk < opts.unroll + 10 := hclk ▸ hends path hpath
      refine ⟨hselected, ?_⟩
      rcases hnext with rfl | rfl <;> exact hlt

omit [DecidableEq S] in
/-- The error check looks at the clock of the selected branch. -/
theorem Search.Bounded.checkAccesses (h : x.Bounded d opts) (a : Answer S) :
    ∀ access ∈ x.checkAccesses d opts a, access.InBounds opts.unroll := by
  unfold Search.checkAccesses
  split
  · intro access haccess
    obtain ⟨⟨id, clock⟩, hmem, rfl⟩ := List.mem_map.mp haccess
    exact h.selected id clock (Option.mem_toList.mp hmem)
  · exact List.forall_mem_nil _

/-- The accesses while candidates are tried. -/
theorem Search.inBounds_search {cands : List (Candidate S)}
    (hreg : ∀ r, .record r ∈ x.session.stack → r.obj.writesReg d.decl = true)
    (hclock : ∀ cand ∈ cands, cand.cnst.clock < opts.unroll + 10) :
    ∀ access ∈ x.searchAccesses d opts cands a, access.InBounds opts.unroll := by
  refine List.forall_mem_append.mpr ⟨Session.inBounds_tryCandidates hreg hclock, ?_⟩
  split
  · rename_i cand model y htry
    split
    · exact List.forall_mem_nil _
    · intro access haccess
      obtain rfl := List.mem_singleton.mp haccess
      exact hclock cand (Session.tryCandidates_mem htry)
  · exact List.forall_mem_nil _

/-- A step from clocks within the arrays stays within them. -/
theorem Search.Bounded.safe (h : x.Bounded d opts) (hcounts : Counts 0 a.log)
    (hends : x.EndsInBounds opts) : x.Safe d opts firstAssign a := by
  have hpoint := h.point
  unfold Safe accesses
  unfold EndsInBounds at hends
  -- at the points that extend a path the clock is bounded by `hends`, at the
  -- others by what the invariant says of the last simulation
  cases hx : x.point with
  | random i =>
      rw [hx] at hpoint hends
      dsimp only
      split
      · rename_i hlt
        exact Session.inBounds_simulate hcounts (hpoint.1 ▸ hends hlt)
      · exact List.forall_mem_nil _
  | pick =>
      rw [hx] at hpoint
      dsimp only
      split
      · exact List.forall_mem_nil _
      · exact Session.inBounds_simulate hcounts hpoint
  | iterate target =>
      rw [hx] at hends
      cases hpath : x.path with
      | none => exact List.forall_mem_nil _
      | some path =>
          refine List.forall_mem_append.mpr ⟨h.checkAccesses a, ?_⟩
          split
          · exact List.forall_mem_nil _
          · rename_i y hcheck
            obtain ⟨context, rfl⟩ := errorCheck_eq hcheck
            exact Session.inBounds_simulate hcounts (hends path hpath)
  | search target initClk =>
      rw [hx] at hpoint
      obtain ⟨hclk, -, hreg⟩ := hpoint
      cases hpath : x.path with
      | none => exact List.forall_mem_nil _
      | some path =>
          refine inBounds_search hreg fun cand hcand => ?_
          exact (Session.clock_of_mem_branches (Answer.mem_rank hcand)).2.trans_lt (hclk path hpath)
  | confirm target clock =>
      rw [hx] at hpoint
      exact Session.inBounds_simulate hcounts hpoint
  | again target clock =>
      rw [hx] at hpoint
      exact Session.inBounds_simulate hcounts hpoint
  | restart target =>
      rw [hx] at hends
      cases hpath : x.path with
      | none => exact List.forall_mem_nil _
      | some path => exact Session.inBounds_simulate hcounts (hends path hpath)
  | done => exact List.forall_mem_nil _

/-- A simulation that is read to its end within the arrays is of that many clocks. -/
theorem Session.simClk_lt_of_inBounds {x y : Session S} {log : List LogRecord} {unroll : Nat}
    (hreg : d.regList ≠ []) (h : x.simulateBuildStack d log = some y) (hcounts : Counts 0 log)
    (hsafe : ∀ access ∈ x.simulateAccesses d log, access.InBounds unroll) :
    x.simClk < unroll + 10 := by
  by_contra hge
  obtain ⟨s, hs⟩ := List.exists_mem_of_ne_nil _ hreg
  have hmem : Access.versionAtClock x.simClk ∈ d.clockAccesses x.simClk :=
    List.mem_map.mpr ⟨s, hs, rfl⟩
  exact hge (hsafe _ (mem_simulateAccesses h hcounts (by omega) hmem))

/-- A step that is made within the arrays extends its path within them. -/
theorem Search.Bounded.ends_of_safe (h : x.Bounded d opts) (hreg : d.regList ≠ [])
    (hcounts : Counts 0 a.log) (hmoves : x.Moves d opts firstAssign a y events)
    (hsafe : x.Safe d opts firstAssign a) : x.EndsInBounds opts := by
  have hpoint := h.point
  unfold Safe accesses at hsafe
  unfold EndsInBounds
  -- the read of the last marker of a simulation is among its accesses
  cases hmoves with
  | random hx hlt hsim =>
      obtain ⟨session, hbuilt, -⟩ := simulate_eq hsim
      rw [hx] at hpoint hsafe ⊢
      dsimp only at hsafe
      rw [if_pos hlt] at hsafe
      intro _
      rw [← hpoint.1]
      exact Session.simClk_lt_of_inBounds hreg hbuilt hcounts hsafe
  | explore hx hge hpath =>
      rw [hx]
      exact fun hlt => absurd hlt hge
  | iterate hx hpath hcheck hsim =>
      obtain ⟨session, hbuilt, -⟩ := exploreOneStep_eq hsim
      obtain ⟨context, rfl⟩ := errorCheck_eq hcheck
      simp only [hx, hpath, hcheck] at hsafe ⊢
      rintro path ⟨⟩
      exact Session.simClk_lt_of_inBounds hreg hbuilt hcounts
        (List.forall_mem_append.mp hsafe).2
  | restart hx hpath hsim =>
      obtain ⟨session, hbuilt, -⟩ := exploreOneStep_eq hsim
      simp only [hx, hpath] at hsafe ⊢
      rintro path ⟨⟩
      exact Session.simClk_lt_of_inBounds hreg hbuilt hcounts hsafe
  | finish hx => rw [hx]; trivial
  | skip hx => rw [hx]; trivial
  | resume hx => rw [hx]; trivial
  | stay hx => rw [hx]; trivial
  | reject hx => rw [hx]; trivial
  | accept hx => rw [hx]; trivial
  | confirm hx => rw [hx]; trivial
  | cover hx => rw [hx]; trivial
  | clear hx => rw [hx]; trivial
  | again hx => rw [hx]; trivial

omit [DecidableEq S] in
theorem Search.bounded_start {printed : Nat → List Char} {session : Session S}
    {targets : List Nat} : (Search.start d opts printed session targets).Bounded d opts where
  selected := nofun
  point := ⟨rfl, nofun⟩

end Inv

/-! ## Runs -/

section Runs

variable [DecidableEq S] {d : Design S} {opts : Options} {firstAssign : Nat → Nat}
  {printed : Nat → List Char} {session : Session S} {targets : List Nat}
  {answers : List (Answer S)}

/-- **The arrays are large enough.** A run of `step_coverage` whose random
simulations and extended paths end below `g_unroll+10` indexes the arrays within
their sizes, and in a design with registers only such a run does, as far as it
makes its steps. -/
theorem stepCoverage_inBounds (hcounts : ∀ a ∈ answers, Counts 0 a.log) :
    (ObservedSteps (Search.step d opts firstAssign) (fun x _ => x.EndsInBounds opts)
        (Search.start d opts printed session targets) answers →
      ObservedSteps (Search.step d opts firstAssign) (Search.Safe d opts firstAssign)
        (Search.start d opts printed session targets) answers) ∧
    (d.regList ≠ [] →
      (ObservedSteps (Search.step d opts firstAssign)
          (fun x a => (x.step d opts firstAssign a).isSome → x.Safe d opts firstAssign a)
          (Search.start d opts printed session targets) answers ↔
        ObservedSteps (Search.step d opts firstAssign)
          (fun x a => (x.step d opts firstAssign a).isSome → x.EndsInBounds opts)
          (Search.start d opts printed session targets) answers)) := by
  constructor
  · intro h
    exact h.imp (Search.Bounded d opts) Search.bounded_start hcounts
      (fun x a hx ha hends => hx.safe ha hends)
      fun x a y events hx _ hends hy => hx.step hends (Search.moves_of_step hy)
  · intro hreg
    have hiff : ∀ (x : Search S) (a : Answer S), x.Bounded d opts → Counts 0 a.log →
        (((x.step d opts firstAssign a).isSome → x.Safe d opts firstAssign a) ↔
          ((x.step d opts firstAssign a).isSome → x.EndsInBounds opts)) := by
      intro x a hx ha
      refine forall_congr' fun hsome => ?_
      obtain ⟨⟨y, events⟩, hy⟩ := Option.isSome_iff_exists.mp hsome
      exact ⟨hx.ends_of_safe hreg ha (Search.moves_of_step hy), hx.safe ha⟩
    refine observedSteps_iff (Search.Bounded d opts) Search.bounded_start hcounts hiff ?_
    intro x a y events hx ha hsafe hy
    exact hx.step ((hiff x a hx ha).mp hsafe (hy ▸ rfl)) (Search.moves_of_step hy)

end Runs

/-! ## A path of sixty clocks -/

def deepOptions : Options where
  unroll := 50
  step := 30
  randomSimNum := 1
  totalLimit := 5
  enableErrorCheck := false
  resetSigName := ['r', 's', 't']

/-- What the testbench prints up to `$finish` while `a` is zero. -/
def deepAnswer : Answer Bool :=
  { elseAnswer with log := (List.range' 1 61).flatMap fun n => [.clock n, .assign 2] }

/-- The signals have terms for the versions up to 60. -/
def deepStart : Search Bool :=
  Search.start elseDesign deepOptions (fun _ => ['a'])
    { elseSession with
      sigs :=
        { core := fun s => SMTSigCore.new 50 (elseDesign.decl s) (if s then 61 else 0)
          fresh := 122 } } [0]

theorem counts_flatMap (id k n : Nat) :
    Counts k ((List.range' (k + 1) n).flatMap fun n => [.clock n, .assign id]) := by
  induction n generalizing k with
  | zero => trivial
  | succ n ih =>
      refine ⟨fun m hm => (LogRecord.clock.inj hm).symm, ?_⟩
      refine ⟨fun m hm => LogRecord.noConfusion hm, ?_⟩
      exact ih (k + 1)

theorem deep_inBounds :
    (ObservedSteps (Search.step elseDesign deepOptions id) (fun x _ => x.EndsInBounds deepOptions)
        deepStart (List.replicate 4 deepAnswer) →
      ObservedSteps (Search.step elseDesign deepOptions id) (Search.Safe elseDesign deepOptions id)
        deepStart (List.replicate 4 deepAnswer)) ∧
    (elseDesign.regList ≠ [] →
      (ObservedSteps (Search.step elseDesign deepOptions id)
          (fun x a => (x.step elseDesign deepOptions id a).isSome →
            x.Safe elseDesign deepOptions id a)
          deepStart (List.replicate 4 deepAnswer) ↔
        ObservedSteps (Search.step elseDesign deepOptions id)
          (fun x a => (x.step elseDesign deepOptions id a).isSome → x.EndsInBounds deepOptions)
          deepStart (List.replicate 4 deepAnswer))) :=
  stepCoverage_inBounds fun _ ha => List.eq_of_mem_replicate ha ▸ counts_flatMap 2 0 61

/-- The first target extends the random path to sixty clocks; the marker of the
last one writes `version_at_clock[60]`, of sixty elements. -/
theorem deep_not_safe :
    ¬ ObservedSteps (Search.step elseDesign deepOptions id) (Search.Safe elseDesign deepOptions id)
      deepStart (List.replicate 4 deepAnswer) := by
  have hrun : (observe (Search.step elseDesign deepOptions id) deepStart
      (List.replicate 3 deepAnswer)).map (fun r =>
        (r.1.accesses elseDesign deepOptions id deepAnswer).contains (.versionAtClock 60)) =
      some true := by decide +kernel
  intro h
  obtain ⟨⟨x, events⟩, hx, hcontains⟩ := Option.map_eq_some_iff.mp hrun
  have hsplit : List.replicate 4 deepAnswer = List.replicate 3 deepAnswer ++ [deepAnswer] :=
    List.replicate_succ'
  rw [hsplit] at h
  have hlt := h.of_observe hx _ (List.contains_iff_mem.mp hcontains)
  exact Nat.lt_irrefl 60 hlt

end Conquest
