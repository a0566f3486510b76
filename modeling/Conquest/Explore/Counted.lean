import Conquest.Explore.StepCoverage
import Mathlib.Algebra.BigOperators.Intervals
import Mathlib.Data.Finset.Card
import Mathlib.Data.Finset.Range

/-!
# Counted — what the flags and the count of covered branches say

`set_covered_clk` is called for every arm in a log and for an accepted
alternative, and counts an arm when its flag is set for the first time. Over a
whole run the flags are therefore set exactly where an arm was shown, and
`covered_branch_count` is the number of arms with a flag, those that the reset
made covered included; these are counted again for every block inside them that
instruments them.
-/

namespace Conquest

open Bv Run

/-! ## Arms and places -/

section Arms

variable {S : Type}

/-- The record of an arm. -/
def Design.isArm (d : Design S) (id : Nat) : Bool := (d.getAssign id).any SMTAssign.isBranch

theorem Design.isArm_id {d : Design S} {id : Nat} {a : SMTAssign S}
    (h : d.getAssign id = some a) : d.isArm a.id = a.isBranch := by
  rw [d.getAssign_id h, Design.isArm, h]
  rfl

theorem Design.lt_of_isArm {d : Design S} {id : Nat} (h : d.isArm id = true) :
    id < d.assignMap.length := by
  obtain ⟨a, ha, -⟩ := Option.any_eq_true _ _ |>.mp h
  exact (List.getElem?_eq_some_iff.mp ha).1

/-- The arms that are covered. -/
def Coverage.coveredArms (d : Design S) (c : Coverage) : Finset Nat :=
  (Finset.range d.assignMap.length).filter fun id => d.isArm id && c.isCovered id

theorem Coverage.mem_coveredArms {d : Design S} {c : Coverage} {id : Nat} :
    id ∈ c.coveredArms d ↔ d.isArm id = true ∧ c.isCovered id = true := by
  simp only [coveredArms, Finset.mem_filter, Finset.mem_range, Bool.and_eq_true]
  constructor
  · exact fun h => h.2
  · exact fun h => ⟨d.lt_of_isArm h.1, h⟩

end Arms

/-- The ids in a log, each with its clock. -/
def placesFrom (clock : Nat) : List LogRecord → List (Nat × Nat)
  | [] => []
  | .assign id :: log => (id, clock) :: placesFrom clock log
  | r :: log => placesFrom (r.clockAfter clock) log

theorem exists_mem_placesFrom {log : List LogRecord} {id : Nat} (clock : Nat) :
    (∃ k, (id, k) ∈ placesFrom clock log) ↔ .assign id ∈ log := by
  induction log generalizing clock with
  | nil => simp [placesFrom]
  | cons r log ih =>
      cases r with
      | clock n =>
          show (∃ k, (id, k) ∈ placesFrom n log) ↔ _
          simp [ih n]
      | state name value =>
          show (∃ k, (id, k) ∈ placesFrom clock log) ↔ _
          simp [ih clock]
      | assign id' =>
          simp only [placesFrom, List.mem_cons, Prod.mk.injEq, LogRecord.assign.injEq, ← ih clock]
          constructor
          · rintro ⟨k, ⟨rfl, -⟩ | hk⟩
            · exact .inl rfl
            · exact .inr ⟨k, hk⟩
          · rintro (rfl | ⟨k, hk⟩)
            · exact ⟨clock, .inl ⟨rfl, rfl⟩⟩
            · exact ⟨k, .inr hk⟩

/-! ## How the flags change -/

/-- From `c` to `c'` exactly the `marked` records are marked, at their clocks, and
the count grows by the arms that were not covered before. -/
structure Coverage.Advances {S : Type} (d : Design S) (c : Coverage)
    (marked : Nat → Nat → Prop) (c' : Coverage) : Prop where
  isCovered : ∀ id, c'.isCovered id ↔ c.isCovered id ∨ ∃ clock, marked id clock
  atClock : ∀ id clock, c'.atClock id clock ↔
    c.atClock id clock ∨ d.isArm id = true ∧ marked id clock
  count : c'.coveredBranchCount + (c.coveredArms d).card =
    c.coveredBranchCount + (c'.coveredArms d).card

namespace Coverage

variable {S : Type} {d : Design S} {c c' c'' : Coverage} {marked marked' : Nat → Nat → Prop}

theorem Advances.refl (d : Design S) (c : Coverage) : Advances d c (fun _ _ => False) c where
  isCovered := by simp
  atClock := by simp
  count := rfl

theorem Advances.trans (h : Advances d c marked c') (h' : Advances d c' marked' c'') :
    Advances d c (fun id clock => marked id clock ∨ marked' id clock) c'' where
  isCovered id := by rw [h'.isCovered, h.isCovered, exists_or, or_assoc]
  atClock id clock := by rw [h'.atClock, h.atClock, or_assoc, and_or_left]
  count := by
    have hfirst := h.count
    have hrest := h'.count
    omega

theorem Advances.congr (h : Advances d c marked c')
    (hiff : ∀ id clock, marked' id clock ↔ marked id clock) : Advances d c marked' c' := by
  obtain rfl : marked' = marked := by
    ext id clock
    exact hiff id clock
  exact h

theorem coveredArms_mark {id : Nat} (hid : ∀ i, c'.isCovered i ↔ c.isCovered i ∨ i = id) :
    c'.coveredArms d =
      if d.isArm id then insert id (c.coveredArms d) else c.coveredArms d := by
  ext i
  rw [mem_coveredArms, hid]
  split
  · rename_i harm
    rw [Finset.mem_insert, mem_coveredArms]
    constructor
    · rintro ⟨hi, hcov | rfl⟩
      · exact .inr ⟨hi, hcov⟩
      · exact .inl rfl
    · rintro (rfl | ⟨hi, hcov⟩)
      · exact ⟨harm, .inr rfl⟩
      · exact ⟨hi, .inl hcov⟩
  · rename_i harm
    rw [mem_coveredArms]
    constructor
    · rintro ⟨hi, hcov | rfl⟩
      · exact ⟨hi, hcov⟩
      · exact absurd hi harm
    · exact fun h => ⟨h.1, .inl h.2⟩

/-- The number of covered arms when a record is marked. -/
theorem card_coveredArms_mark {id : Nat} (hid : ∀ i, c'.isCovered i ↔ c.isCovered i ∨ i = id) :
    (c'.coveredArms d).card =
      (c.coveredArms d).card + if d.isArm id && !c.isCovered id then 1 else 0 := by
  rw [coveredArms_mark hid]
  by_cases harm : d.isArm id = true
  · rw [if_pos harm]
    by_cases hcov : c.isCovered id = true
    · rw [Finset.insert_eq_of_mem (mem_coveredArms.mpr ⟨harm, hcov⟩)]
      simp [hcov]
    · have hnot : id ∉ c.coveredArms d := fun hmem => hcov (mem_coveredArms.mp hmem).2
      rw [Finset.card_insert_of_notMem hnot]
      simp [harm, hcov]
  · simp [harm]

theorem coveredBranchCount_setCovered (c : Coverage) (simNum id : Nat) :
    (c.setCovered simNum id).coveredBranchCount = c.coveredBranchCount := by
  unfold setCovered
  split <;> rfl

theorem atClock_setCovered (c : Coverage) (simNum id : Nat) :
    (c.setCovered simNum id).atClock = c.atClock := by
  unfold setCovered
  split <;> rfl

/-- The record of an assignment is marked. -/
theorem advances_setCovered {id : Nat} (harm : d.isArm id = false) (c : Coverage)
    (simNum clock : Nat) :
    Advances d c (fun i k => i = id ∧ k = clock) (c.setCovered simNum id) where
  isCovered i := by
    rw [isCovered_setCovered]
    simp
  atClock i k := by
    rw [atClock_setCovered]
    constructor
    · exact .inl
    · rintro (h | ⟨hi, rfl, -⟩)
      · exact h
      · exact absurd hi (Bool.eq_false_iff.mp harm)
  count := by
    rw [coveredBranchCount_setCovered, card_coveredArms_mark (isCovered_setCovered c simNum id),
      harm]
    rfl

/-- The record of an arm is marked. -/
theorem advances_setCoveredClk {id : Nat} (harm : d.isArm id = true) (c : Coverage)
    (simNum clock : Nat) :
    Advances d c (fun i k => i = id ∧ k = clock) (c.setCoveredClk simNum id clock) where
  isCovered i := by
    rw [isCovered_setCoveredClk]
    simp
  atClock i k := by
    show Function.update c.atClock id (Function.update (c.atClock id) clock true) i k = true ↔ _
    by_cases hi : i = id
    · subst hi
      by_cases hk : k = clock
      · simp [hk, harm]
      · simp [hk]
    · simp [hi]
  count := by
    rw [card_coveredArms_mark (isCovered_setCoveredClk c simNum id clock), harm]
    show c.coveredBranchCount + (if c.isCovered id then 0 else 1) + _ = _
    cases c.isCovered id with
    | true => rfl
    | false =>
        simp only [Bool.false_eq_true, if_false, Bool.not_false, Bool.and_self, if_true]
        omega

end Coverage

/-! ## One simulation -/

section Simulation

variable {S : Type} [DecidableEq S] {d : Design S} {x y : Session S} {clock : Nat}

namespace Session

theorem advances_createConstraint {id : Nat} {assign : SMTAssign S} {r : Record S}
    (hassign : d.getAssign id = some assign)
    (h : x.createConstraint d clock assign = some (r, y)) :
    x.coverage.Advances d (fun i k => i = id ∧ k = clock) y.coverage := by
  obtain rfl := d.getAssign_id hassign
  have harm := d.isArm_id hassign
  obtain ⟨-, -, ⟨hbranch, rfl⟩ | ⟨hbranch, rfl⟩⟩ := createConstraint_cases h
  · exact Coverage.advances_setCoveredClk (harm.trans hbranch) _ _ _
  · exact Coverage.advances_setCovered (harm.trans hbranch) _ _ _

theorem advances_read {r : LogRecord} (h : x.read d clock r = some y) :
    x.coverage.Advances d (fun id k => r = .assign id ∧ k = clock) y.coverage := by
  cases r with
  | clock n =>
      cases h
      exact (Coverage.Advances.refl d _).congr fun id k => by simp
  | assign id =>
      obtain ⟨assign, hassign, h⟩ := Option.bind_eq_some_iff.mp h
      obtain ⟨⟨r, z⟩, hz, rfl⟩ := Option.map_eq_some_iff.mp h
      refine (advances_createConstraint hassign hz).congr fun i k => ?_
      rw [LogRecord.assign.injEq, @eq_comm _ id]
  | state name value =>
      cases h
      exact (Coverage.Advances.refl d _).congr fun id k => by simp

theorem mem_placesFrom_cons {r : LogRecord} {log : List LogRecord} {id k : Nat} :
    (id, k) ∈ placesFrom clock (r :: log) ↔
      (r = .assign id ∧ k = clock) ∨ (id, k) ∈ placesFrom (r.clockAfter clock) log := by
  cases r with
  | assign id' =>
      simp only [placesFrom, LogRecord.clockAfter, List.mem_cons, Prod.mk.injEq,
        LogRecord.assign.injEq, @eq_comm _ id' id]
  | clock n => simp [placesFrom]
  | state name value => simp [placesFrom]

theorem advances_scan {log : List LogRecord} (h : scan d clock x log = some y) :
    x.coverage.Advances d (fun id k => (id, k) ∈ placesFrom clock (recorded x.simClk log))
      y.coverage := by
  refine scan_induction (P := fun clock x log y => x.coverage.Advances d
    (fun id k => (id, k) ∈ placesFrom clock (recorded x.simClk log)) y.coverage) ?_ ?_ h
  · intro clock x log
    rw [recorded_stop]
    exact (Coverage.Advances.refl d _).congr fun id k => by simp [placesFrom]
  · intro clock x r log z y hr hread hclk hrest
    refine ((advances_read hread).trans hrest).congr fun id k => ?_
    rw [recorded_cons hr, mem_placesFrom_cons, hclk]

theorem advances_simulate {log : List LogRecord} (h : x.simulateBuildStack d log = some y) :
    x.coverage.Advances d
      (fun id k => (id, k) ∈ placesFrom 0 (recorded x.simClk (.clock 0 :: log))) y.coverage := by
  obtain ⟨z, hscan, rfl⟩ := Option.map_eq_some_iff.mp h
  have hadvances := advances_scan hscan
  exact hadvances

end Session

end Simulation

/-! ## Runs -/

section Runs

variable {S : Type} [DecidableEq S] {d : Design S} {opts : Options} {firstAssign : Nat → Nat}
  {x y : Search S} {a : Answer S} {events events' : List Event}

/-- A record in a log that was read, or an alternative that was accepted unless
simulations are checked, with its clock. -/
def ShownAt (opts : Options) (events : List Event) (id clock : Nat) : Prop :=
  (∃ records, .read records ∈ events ∧ (id, clock) ∈ placesFrom 0 records) ∨
    opts.enableErrorCheck = false ∧ .accept id clock ∈ events

theorem shownAt_append {id clock : Nat} :
    ShownAt opts (events ++ events') id clock ↔
      ShownAt opts events id clock ∨ ShownAt opts events' id clock := by
  simp only [ShownAt, List.mem_append, or_and_right, exists_or, and_or_left]
  exact or_or_or_comm

theorem shownAt_nil {id clock : Nat} : ShownAt opts [] id clock ↔ False := by
  simp [ShownAt]

theorem exists_shownAt {id : Nat} :
    (∃ clock, ShownAt opts events id clock) ↔ Shown opts events id := by
  simp only [ShownAt, Shown, exists_or]
  constructor
  · rintro (⟨k, records, hread, hmem⟩ | ⟨k, hcheck, haccept⟩)
    · exact .inl ⟨records, hread, (exists_mem_placesFrom 0).mp ⟨k, hmem⟩⟩
    · exact .inr ⟨hcheck, k, haccept⟩
  · rintro (⟨records, hread, hmem⟩ | ⟨hcheck, k, haccept⟩)
    · obtain ⟨k, hk⟩ := (exists_mem_placesFrom 0).mpr hmem
      exact .inl ⟨k, records, hread, hk⟩
    · exact .inr ⟨k, hcheck, haccept⟩

namespace Search

/-- What the events do to the flags. -/
def Advances (d : Design S) (opts : Options) (x : Search S) (events : List Event)
    (y : Search S) : Prop :=
  x.session.coverage.Advances d (ShownAt opts events) y.session.coverage

omit [DecidableEq S] in
theorem Advances.of_coverage (h : y.session.coverage = x.session.coverage) :
    Advances d opts x [] y := by
  unfold Advances
  rw [h]
  exact (Coverage.Advances.refl d _).congr fun id clock => shownAt_nil

omit [DecidableEq S] in
theorem Advances.trans {z : Search S} (h : Advances d opts x events y)
    (h' : Advances d opts y events' z) : Advances d opts x (events ++ events') z :=
  (Coverage.Advances.trans h h').congr fun _ _ => shownAt_append

omit [DecidableEq S] in
theorem Advances.congr {x' y' : Search S} (h : Advances d opts x events y)
    (hx : x'.session.coverage = x.session.coverage)
    (hy : y'.session.coverage = y.session.coverage) : Advances d opts x' events y' := by
  unfold Advances
  rw [hx, hy]
  exact h

theorem advances_simulate (h : x.simulate d a = some (y, events)) :
    Advances d opts x events y := by
  obtain ⟨session, hsim, heq⟩ := Option.map_eq_some_iff.mp h
  cases heq
  exact (Session.advances_simulate hsim).congr fun id clock => by simp [ShownAt]

/-- An alternative is the record of an arm. -/
theorem isArm_of_tryCandidates {path initClk : Nat} {cand : Candidate S} {model : Valuation}
    {session : Session S} (htry : x.session.tryCandidates d a.check
      (a.rank (x.session.branches d (initClk + 1) (x.clk path))) =
        some (some (cand, model), session)) : d.isArm cand.br.id = true := by
  have hmem := Answer.mem_rank (Session.tryCandidates_mem htry)
  obtain ⟨-, id, -, hget⟩ := Session.exists_of_mem_branches hmem
  rw [d.isArm_id hget]
  exact (Session.mem_branches hmem).2.1

omit [DecidableEq S] in
theorem advances_accept {cand : Candidate S} (harm : d.isArm cand.br.id = true)
    (h : x.accept d opts cand = some y) :
    Advances d opts x [.accept cand.br.id cand.cnst.clock] y := by
  obtain rfl := accept_eq h
  by_cases hcheck : opts.enableErrorCheck = true
  · simp only [Advances, if_pos hcheck]
    exact (Coverage.Advances.refl d _).congr fun id clock => by simp [ShownAt, hcheck]
  · simp only [Advances, if_neg hcheck]
    have hoff : opts.enableErrorCheck = false := Bool.eq_false_of_not_eq_true hcheck
    exact (Coverage.advances_setCoveredClk harm _ _ _).congr fun id clock => by
      simp [ShownAt, hoff]

theorem advances_step (h : x.step d opts firstAssign a = some (y, events)) :
    Advances d opts x events y := by
  cases moves_of_step h with
  | random _ _ hsim => exact (advances_simulate hsim).congr rfl rfl
  | explore => exact .of_coverage rfl
  | finish => exact .of_coverage rfl
  | skip => exact .of_coverage rfl
  | resume _ _ _ _ hsim => exact (advances_simulate hsim).congr rfl rfl
  | stay => exact .of_coverage rfl
  | iterate _ _ hcheck hsim =>
      exact (advances_simulate hsim).congr (coverage_errorCheck hcheck).symm rfl
  | reject _ _ htry =>
      obtain ⟨sigs, context, rfl⟩ := Session.tryCandidates_eq htry
      exact .of_coverage rfl
  | accept _ _ htry haccept =>
      have harm := isArm_of_tryCandidates htry
      obtain ⟨sigs, context, rfl⟩ := Session.tryCandidates_eq htry
      exact (advances_accept harm haccept).congr rfl rfl
  | confirm _ hsim => exact (advances_simulate hsim).congr rfl rfl
  | cover _ hsim => exact (advances_simulate hsim).congr rfl rfl
  | clear _ hsim => exact (advances_simulate hsim).congr rfl rfl
  | again _ hsim => exact (advances_simulate hsim).congr rfl (coverage_checkTarget _ _)
  | restart _ _ hsim => exact (advances_simulate hsim).congr rfl (coverage_checkTarget _ _)

end Search

end Runs

/-! ## The flags when the design is emitted -/

section Emitted

variable {S : Type} {d : Design S} {opts : Options} {printed : Nat → List Char}

/-- The record of an arm that is counted when it is instrumented. -/
def Design.isResetArm (opts : Options) (d : Design S) (printed : Nat → List Char) (id : Nat) :
    Bool := d.isArm id && skipAssign opts (printed id)

/-- A record prints the name of the reset signal, so that it has no display. An arm
that is covered already is counted once more. -/
theorem advances_instrument (opts : Options) (printed : Nat → List Char) {a : SMTAssign S}
    {id : Nat} (ha : d.getAssign id = some a) (c : Coverage) :
    (∀ i, (c.instrument opts (printed a.id) a).isCovered i ↔
      c.isCovered i ∨ i = id ∧ skipAssign opts (printed id) = true) ∧
    (c.instrument opts (printed a.id) a).atClock = c.atClock ∧
    (c.instrument opts (printed a.id) a).coveredBranchCount + (c.coveredArms d).card =
      c.coveredBranchCount + ((c.instrument opts (printed a.id) a).coveredArms d).card +
        if c.isCovered id && d.isResetArm opts printed id then 1 else 0 := by
  have hid := d.getAssign_id ha
  have harm := d.isArm_id ha
  rw [hid] at harm
  unfold Coverage.instrument
  split
  · rename_i hskip
    have hmark : ∀ i, (c.setCovered 0 a.id).isCovered i ↔ c.isCovered i ∨ i = id := by
      intro i
      rw [Coverage.isCovered_setCovered, hid]
    rw [hid] at hskip
    refine ⟨fun i => (hmark i).trans (by rw [hskip]; simp), Coverage.atClock_setCovered _ _ _, ?_⟩
    show c.coveredBranchCount + (if a.isBranch then 1 else 0) + _ =
      c.coveredBranchCount + (Coverage.coveredArms d (c.setCovered 0 a.id)).card + _
    rw [Coverage.card_coveredArms_mark hmark, Design.isResetArm, harm, hskip, Bool.and_true]
    cases a.isBranch <;> cases c.isCovered id <;> simp <;> omega
  · rename_i hskip
    rw [hid] at hskip
    refine ⟨fun i => ?_, rfl, ?_⟩
    · simp [hskip]
    · simp [Design.isResetArm, hskip]

/-- The same for an arm that is instrumented `n` times more. -/
theorem advances_iterate_instrument (opts : Options) (printed : Nat → List Char)
    {a : SMTAssign S} {id : Nat} (ha : d.getAssign id = some a) (c : Coverage)
    (hnew : c.isCovered id = false) (n : Nat) :
    let c' := Nat.iterate (Coverage.instrument opts (printed a.id) a) (n + 1) c
    (∀ i, c'.isCovered i ↔ c.isCovered i ∨ i = id ∧ skipAssign opts (printed id) = true) ∧
    c'.atClock = c.atClock ∧
    c'.coveredBranchCount + (c.coveredArms d).card =
      c.coveredBranchCount + (c'.coveredArms d).card +
        if d.isResetArm opts printed id then n else 0 := by
  induction n with
  | zero =>
      obtain ⟨hcov, hclock, hcount⟩ := advances_instrument opts printed ha c
      refine ⟨hcov, hclock, hcount.trans ?_⟩
      rw [hnew]
      simp
  | succ n ih =>
      rw [Function.iterate_succ_apply']
      obtain ⟨hcov, hclock, hcount⟩ := ih
      generalize Nat.iterate (Coverage.instrument opts (printed a.id) a) (n + 1) c = c' at *
      obtain ⟨hcov', hclock', hcount'⟩ := advances_instrument opts printed ha c'
      refine ⟨fun i => ?_, hclock'.trans hclock, ?_⟩
      · rw [hcov', hcov, or_assoc, or_self]
      · by_cases hreset : d.isResetArm opts printed id = true
        · have hagain : c'.isCovered id = true :=
            (hcov id).mpr (.inr ⟨rfl, (Bool.and_eq_true_iff.mp hreset).2⟩)
          simp only [hreset, hagain, Bool.and_self, if_true] at hcount hcount' ⊢
          omega
        · simp only [hreset, Bool.and_false, Bool.false_eq_true, if_false] at hcount hcount' ⊢
          omega

/-- The flags after the first `n` records are emitted. -/
def instrumentedTo (opts : Options) (d : Design S) (printed : Nat → List Char) (n : Nat) :
    Coverage :=
  (d.assignMap.take n).foldl
    (fun c a => Nat.iterate (Coverage.instrument opts (printed a.id) a)
      (d.instrumentedAgain a.id + 1) c)
    { coveredInSim := fun _ => none
      atClock := fun _ _ => false
      coveredBranchCount := 0 }

theorem instrumentedTo_length :
    instrumentedTo opts d printed d.assignMap.length = instrumented opts d printed := by
  rw [instrumentedTo, List.take_length]
  rfl

theorem instrumentedTo_succ {n : Nat} (hn : n < d.assignMap.length) :
    instrumentedTo opts d printed (n + 1) =
      Nat.iterate (Coverage.instrument opts (printed d.assignMap[n].id) d.assignMap[n])
        (d.instrumentedAgain d.assignMap[n].id + 1) (instrumentedTo opts d printed n) := by
  rw [instrumentedTo, List.take_succ_eq_append_getElem hn, List.foldl_append]
  rfl

/-- The records before the `n`th have their flags. -/
theorem flags_instrumentedTo (opts : Options) (printed : Nat → List Char) {n : Nat}
    (hn : n ≤ d.assignMap.length) :
    (∀ id, (instrumentedTo opts d printed n).isCovered id ↔
      id < n ∧ skipAssign opts (printed id) = true) ∧
    (instrumentedTo opts d printed n).atClock = (fun _ _ => false) ∧
    (instrumentedTo opts d printed n).coveredBranchCount =
      ((instrumentedTo opts d printed n).coveredArms d).card +
        ∑ id ∈ Finset.range n,
          if d.isResetArm opts printed id then d.instrumentedAgain id else 0 := by
  induction n with
  | zero =>
      refine ⟨fun id => ?_, rfl, ?_⟩
      · simp [instrumentedTo, Coverage.isCovered]
      · simp [instrumentedTo, Coverage.coveredArms, Coverage.isCovered]
  | succ n ih =>
      obtain ⟨hcov, hclock, hcount⟩ := ih (Nat.le_of_succ_le hn)
      have hget : d.getAssign n = some d.assignMap[n] := List.getElem?_eq_getElem hn
      have hnew : (instrumentedTo opts d printed n).isCovered n = false := by
        rw [Bool.eq_false_iff]
        exact fun h => Nat.lt_irrefl n ((hcov n).mp h).1
      have hid : d.assignMap[n].id = n := d.getAssign_id hget
      rw [instrumentedTo_succ hn, Finset.sum_range_succ]
      obtain ⟨hcov', hclock', hcount'⟩ := advances_iterate_instrument opts printed hget _ hnew
        (d.instrumentedAgain d.assignMap[n].id)
      refine ⟨fun id => ?_, hclock'.trans hclock, ?_⟩
      · rw [hcov', hcov]
        constructor
        · rintro (⟨hlt, hskip⟩ | ⟨rfl, hskip⟩)
          · exact ⟨Nat.lt_succ_of_lt hlt, hskip⟩
          · exact ⟨Nat.lt_succ_self _, hskip⟩
        · rintro ⟨hlt, hskip⟩
          rcases Nat.lt_succ_iff_lt_or_eq.mp hlt with hlt | rfl
          · exact .inl ⟨hlt, hskip⟩
          · exact .inr ⟨rfl, hskip⟩
      · rw [hid] at hcount' ⊢
        omega

end Emitted

section FromStart

variable {S : Type} [DecidableEq S] {d : Design S} {opts : Options} {firstAssign : Nat → Nat}
  {printed : Nat → List Char} {session : Session S} {targets : List Nat}
  {answers : List (Answer S)} {events : List Event} {x : Search S}

namespace Search

theorem advances_run {y : Search S}
    (h : observe (step d opts firstAssign) x answers = some (y, events)) :
    Advances d opts x events y :=
  observe_rel (fun _ => .of_coverage rfl) Advances.trans advances_step h

/-- The arms with the flag of a clock, after a run. -/
theorem atClock_run (h : observe (step d opts firstAssign)
      (start d opts printed session targets) answers = some (x, events)) (id clock : Nat) :
    x.session.coverage.atClock id clock ↔ d.isArm id ∧ ShownAt opts events id clock := by
  obtain ⟨-, hclock, -⟩ := flags_instrumentedTo opts printed (le_refl d.assignMap.length)
  rw [instrumentedTo_length] at hclock
  have hstart : (start d opts printed session targets).session.coverage.atClock id clock =
      false := congrFun (congrFun hclock id) clock
  rw [(advances_run h).atClock, hstart]
  simp

end Search

end FromStart

section Checked

variable {S : Type} [DecidableEq S] {d : Design S} {opts : Options} {firstAssign : Nat → Nat}
  {x y : Search S} {a : Answer S} {events : List Event}

namespace Search

/-- The selected branch is an arm of the design. -/
def SelectsArm (d : Design S) (x : Search S) : Prop :=
  ∀ id clock, x.selected = some (id, clock) → d.isArm id = true

omit [DecidableEq S] in
theorem SelectsArm.of_selected (hx : SelectsArm d x) (h : y.selected = x.selected) :
    SelectsArm d y := by
  unfold SelectsArm
  rw [h]
  exact hx

omit [DecidableEq S] in
theorem selectsArm_of_none (h : x.selected = none) : SelectsArm d x := by
  intro id clock hselected
  cases h.symm.trans hselected

theorem selected_simulate (h : x.simulate d a = some (y, events)) : y.selected = x.selected := by
  obtain ⟨session, -, -, rfl, -⟩ := simulate_eq h
  rfl

omit [DecidableEq S] in
theorem selected_checkTarget (target : Nat) (x : Search S) :
    (x.checkTarget opts firstAssign target).selected = x.selected := by
  obtain ⟨_, _, _, _, -, heq⟩ := checkTarget_eq opts firstAssign target x
  rw [heq]

theorem SelectsArm.step (hx : SelectsArm d x)
    (h : x.step d opts firstAssign a = some (y, events)) : SelectsArm d y := by
  cases moves_of_step h with
  | random _ _ hsim =>
      have hselected := selected_simulate hsim
      exact hx.of_selected hselected
  | explore => exact hx.of_selected rfl
  | finish => exact hx.of_selected rfl
  | skip => exact hx.of_selected rfl
  | resume => exact selectsArm_of_none rfl
  | stay => exact selectsArm_of_none rfl
  | iterate _ _ hcheck hsim =>
      obtain ⟨context, rfl⟩ := errorCheck_eq hcheck
      have hselected := selected_simulate hsim
      exact hx.of_selected hselected
  | reject => exact hx.of_selected rfl
  | accept _ _ htry haccept =>
      have harm := isArm_of_tryCandidates htry
      obtain rfl := accept_eq haccept
      intro id clock hselected
      cases hselected
      exact harm
  | confirm _ hsim =>
      have hselected := selected_simulate hsim
      exact hx.of_selected hselected
  | cover _ hsim =>
      have hselected := selected_simulate hsim
      exact hx.of_selected hselected
  | clear _ hsim =>
      have hselected := selected_simulate hsim
      exact hx.of_selected hselected
  | again _ hsim =>
      have hselected := selected_simulate hsim
      exact hx.of_selected ((selected_checkTarget _ _).trans hselected)
  | restart _ _ hsim =>
      have hselected := selected_simulate hsim
      exact hx.of_selected ((selected_checkTarget _ _).trans hselected)

omit [DecidableEq S] in
/-- What the checks at the start of `concolic_iteration` look at. -/
theorem isSome_errorCheck_iff (hcheck : opts.enableErrorCheck = true) :
    (x.errorCheck d opts a).isSome ↔
      (a.check (d.regInit x.session.sigs ++ x.session.terms)).isSome ∧
      ∀ id clock, x.selected = some (id, clock) → x.session.coverage.atClock id clock = true := by
  rw [errorCheck, if_pos hcheck, Session.checkSatisfiability, Session.setContext_context]
  cases a.check (d.regInit x.session.sigs ++ x.session.terms) with
  | none => simp
  | some model =>
      show (if _ then _ else _ : Option (Search S)).isSome ↔ _
      have hcoverage : (Session.dumpError d a.check (x.session.setContext
          (d.regInit x.session.sigs ++ x.session.terms))).coverage = x.session.coverage := rfl
      rw [hcoverage]
      cases x.selected with
      | none => simp
      | some s =>
          obtain ⟨id, clock⟩ := s
          simp only [Option.all_some, Option.isSome_ite, Option.isSome_some, true_and,
            Option.some.injEq, Prod.mk.injEq]
          constructor
          · rintro h i k ⟨rfl, rfl⟩
            exact h
          · exact fun h => h id clock ⟨rfl, rfl⟩

end Search

/-- **The check of the selected branch.** With `enable_error_check`, after every run
of `step_coverage`, the checks at the start of `concolic_iteration` pass if and only
if the solver finds the recorded stack satisfiable and the selected branch, if there
is one, is at the selected clock in some log that was read: not only in that of its
own inputs, but in any one before. -/
theorem stepCoverage_checked_iff (hcheck : opts.enableErrorCheck = true)
    {printed : Nat → List Char} {session : Session S} {targets : List Nat}
    {answers : List (Answer S)} (h : observe (Search.step d opts firstAssign)
      (Search.start d opts printed session targets) answers = some (x, events))
    (a : Answer S) :
    (x.errorCheck d opts a).isSome ↔
      (a.check (d.regInit x.session.sigs ++ x.session.terms)).isSome ∧
      ∀ id clock, x.selected = some (id, clock) →
        ∃ records, .read records ∈ events ∧ (id, clock) ∈ placesFrom 0 records := by
  have harm : Search.SelectsArm d x :=
    observe_inv (Search.SelectsArm d) (V := fun _ => True) h (Search.selectsArm_of_none rfl)
      (fun _ _ => trivial) fun _ _ _ _ hx _ hstep => hx.step hstep
  rw [Search.isSome_errorCheck_iff hcheck]
  refine and_congr_right fun _ => forall₃_congr fun id clock hselected => ?_
  rw [Search.atClock_run h]
  simp [ShownAt, hcheck, harm id clock hselected]

end Checked

/-- The options of `elseOptions` with checked simulations and a second try. -/
def checkedOptions : Options := { elseOptions with enableErrorCheck := true, totalLimit := 2 }

/-- The arm that was accepted is in no log, and the next iteration ends in `error`. -/
theorem checked_fails :
    ∃ x events, observe (Search.step elseDesign checkedOptions fun _ => 0)
        (Search.start elseDesign checkedOptions (fun _ => ['a']) elseSession [0])
        (List.replicate 7 elseAnswer) = some (x, events) ∧
      x.selected = some (0, 2) ∧ x.errorCheck elseDesign checkedOptions elseAnswer = none := by
  have hrun : (observe (Search.step elseDesign checkedOptions fun _ => 0)
      (Search.start elseDesign checkedOptions (fun _ => ['a']) elseSession [0])
      (List.replicate 7 elseAnswer)).map (fun r => (r.1.selected, r.2)) =
        some (some (0, 2), elseEvents) := by
    decide +kernel
  obtain ⟨⟨x, events⟩, hx, heq⟩ := Option.map_eq_some_iff.mp hrun
  obtain ⟨hselected, rfl⟩ := Prod.mk.inj heq
  refine ⟨x, elseEvents, hx, hselected, ?_⟩
  rw [← Option.not_isSome_iff_eq_none, stepCoverage_checked_iff rfl hx elseAnswer]
  rintro ⟨-, hshown⟩
  obtain ⟨records, hread, hmem⟩ := hshown 0 2 hselected
  simp only [elseEvents, List.mem_cons, Event.read.injEq, reduceCtorEq, List.not_mem_nil,
    or_false, false_or] at hread
  rcases hread with rfl | rfl | rfl | rfl <;> exact absurd hmem (by decide)

end Conquest
