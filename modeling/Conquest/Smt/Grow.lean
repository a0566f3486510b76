import Conquest.Smt.Assign

/-!
# Grow — what a record does to the signals

`update_term` moves the next version of one signal up by one and adds terms at
the end of its stack; it changes no other signal and forgets no version. Terms
of earlier versions therefore keep their meaning in every later state.
-/

namespace Conquest

open Bv

variable {S : Type}

/-- The target is not an input, which no assignment may be. -/
def SMTAssign.writesReg (decl : S → SigDecl) (a : SMTAssign S) : Bool :=
  match a.target with
  | .assign _ lval => !(decl lval.parent).isInput
  | .branch _ => true

/-! ## One signal -/

/-- The signal after an assignment to it; the term that it may add is numbered
from `fresh` on and below `fresh'`. -/
structure SMTSigCore.Bumped (fresh fresh' : Nat) (c c' : SMTSigCore) : Prop where
  nextVersion : c'.nextVersion = c.nextVersion + 1
  termStack : ∃ new : Option Nat, c'.termStack = c.termStack ++ new.toList ∧
    ∀ id ∈ new, fresh ≤ id ∧ id < fresh'
  inBounds : c.InBounds → c'.InBounds
  versionAtClock : c'.versionAtClock = c.versionAtClock

namespace SMTSigCore.Bumped

variable {fresh fresh' fresh'' : Nat} {c c' : SMTSigCore}

theorem commit (h : Bumped fresh fresh' c c') : Bumped fresh fresh' c c'.commit :=
  ⟨h.nextVersion, h.termStack, fun hc => (h.inBounds hc).commit, h.versionAtClock⟩

theorem mono (h : Bumped fresh fresh' c c') (hle : fresh' ≤ fresh'') :
    Bumped fresh fresh'' c c' := by
  obtain ⟨new, hnew, hbelow⟩ := h.termStack
  refine ⟨h.nextVersion, ⟨new, hnew, fun id hid => ?_⟩, h.inBounds, h.versionAtClock⟩
  exact ⟨(hbelow id hid).1, Nat.lt_of_lt_of_le (hbelow id hid).2 hle⟩

/-- `update_next_version`, where the new term is used or not. -/
theorem updateNextVersion (c : SMTSigCore) (fresh : Nat) :
    Bumped fresh (if (c.updateNextVersion fresh).2 then fresh + 1 else fresh) c
      (c.updateNextVersion fresh).1 where
  nextVersion := c.updateNextVersion_nextVersion fresh
  termStack := by
    refine ⟨if (c.updateNextVersion fresh).2 then some fresh else none, ?_, ?_⟩
    · rw [c.updateNextVersion_termStack fresh]
      split <;> rfl
    · intro id hid
      split at hid
      · rename_i hused
        rw [if_pos hused]
        obtain rfl := Option.mem_some_iff.mp hid
        omega
      · cases hid
  inBounds := fun h => h.updateNextVersion fresh
  versionAtClock := c.updateNextVersion_versionAtClock fresh

theorem arrayUpdateTerm (c : SMTSigCore) (fresh : Nat) :
    Bumped fresh (fresh + 1) c (c.arrayUpdateTerm fresh) where
  nextVersion := rfl
  termStack := by
    refine ⟨some fresh, rfl, fun id hid => ?_⟩
    obtain rfl := Option.mem_some_iff.mp hid
    omega
  inBounds := by
    intro ⟨hcurr, hnext⟩
    constructor
    · show c.currVersion ≤ c.nextVersion + 1
      omega
    · show c.nextVersion + 1 < (c.termStack ++ [fresh]).length
      rw [List.length_append, List.length_singleton]
      omega
  versionAtClock := rfl

end SMTSigCore.Bumped

/-! ## One record -/

section Record

variable [DecidableEq S] {decl : S → SigDecl}

/-- The states before and after a record: one signal is bumped, or none is. -/
structure Records (target : Option S) (st st' : SigState S) : Prop where
  fresh : st.fresh ≤ st'.fresh
  other : ∀ s, some s ≠ target → st'.core s = st.core s
  bumped : ∀ s, some s = target → SMTSigCore.Bumped st.fresh st'.fresh (st.core s) (st'.core s)

theorem Records.commit {st st' : SigState S} {s : S} (h : Records (some s) st st') :
    Records (some s) st (st'.commit s) where
  fresh := h.fresh
  other := by
    intro s' hs
    rw [SigState.commit_core, if_neg (fun heq => hs (congrArg some heq))]
    exact h.other s' hs
  bumped := by
    intro s' hs
    obtain rfl := Option.some.inj hs
    rw [SigState.commit_core, if_pos rfl]
    exact (h.bumped s' rfl).commit

theorem records_updateNextVersion (st : SigState S) (s : S) :
    Records (some s) st (st.updateNextVersion s) where
  fresh := by
    show st.fresh ≤ if ((st.core s).updateNextVersion st.fresh).2 then st.fresh + 1 else st.fresh
    split <;> omega
  other := by
    intro s' hs
    rw [SigState.updateNextVersion_core, if_neg (fun heq => hs (congrArg some heq))]
  bumped := by
    intro s' hs
    obtain rfl := Option.some.inj hs
    rw [SigState.updateNextVersion_core, if_pos rfl]
    exact SMTSigCore.Bumped.updateNextVersion _ _

theorem records_arrayUpdateTerm (st : SigState S) (s : S) :
    Records (some s) st (st.arrayUpdateTerm s).1 where
  fresh := Nat.le_succ _
  other := fun _ hs => Function.update_of_ne (fun heq => hs (congrArg some heq)) _ _
  bumped := by
    intro s' hs
    obtain rfl := Option.some.inj hs
    simp only [SigState.arrayUpdateTerm, Function.update_self]
    exact SMTSigCore.Bumped.arrayUpdateTerm _ _

omit [DecidableEq S] in
/-- The constraint of a signal makes terms of its own at most. -/
theorem Records.constrain {st st' : SigState S} {target : Option S} (h : Records target st st')
    (decl : S → SigDecl) (sig : SMTSignal S) (index : Option (SMTExpr S)) (rval : SMTExpr S) :
    Records target st (constrain decl sig index rval st').st := by
  unfold Conquest.constrain
  split
  · exact ⟨Nat.le_succ_of_le h.fresh, h.other, fun s hs => (h.bumped s hs).mono (Nat.le_succ _)⟩
  · exact h

/-- The signal that the record assigns. -/
def SMTAssign.assigned (a : SMTAssign S) : Option S :=
  match a.target with
  | .assign _ lval => some lval.parent
  | .branch _ => none

/-- **What `update_term` does to the signals.** -/
theorem SMTAssign.records (decl : S → SigDecl) (a : SMTAssign S) (st : SigState S) :
    Records a.assigned st (a.updateTerm decl st).st := by
  unfold SMTAssign.assigned SMTAssign.updateTerm
  cases a.target with
  | branch lval => exact ⟨le_rfl, fun _ _ => rfl, fun s hs => by cases hs⟩
  | assign isCommit lval =>
      cases lval with
      | signal sig index =>
          have hnext := (records_updateNextVersion st sig.parent).constrain decl sig index a.rval
          cases isCommit
          · exact hnext
          · exact hnext.commit
      | array arr index => exact (records_arrayUpdateTerm st arr.parent).commit

end Record

/-! ## Later states -/

/-- The stacks of terms have grown at their ends, and those of the inputs have
not. -/
structure SigState.Extends (decl : S → SigDecl) (st st' : SigState S) : Prop where
  grown : ∀ s, (st.core s).termStack <+: (st'.core s).termStack
  inputs : ∀ s, (decl s).isInput → (st'.core s).termStack = (st.core s).termStack
  fresh : st.fresh ≤ st'.fresh

/-- The counters of the registers are within their stacks. -/
def SigState.RegsInBounds (decl : S → SigDecl) (st : SigState S) : Prop :=
  ∀ s, (decl s).isInput = false → (st.core s).InBounds

section Extends

variable {decl : S → SigDecl} {st st' st'' : SigState S}

theorem SigState.Extends.refl (st : SigState S) : SigState.Extends decl st st :=
  ⟨fun _ => List.prefix_rfl, fun _ _ => rfl, le_rfl⟩

theorem SigState.Extends.trans (h : SigState.Extends decl st st')
    (h' : SigState.Extends decl st' st'') : SigState.Extends decl st st'' :=
  ⟨fun s => (h.grown s).trans (h'.grown s), fun s hs => (h'.inputs s hs).trans (h.inputs s hs),
    h.fresh.trans h'.fresh⟩

/-- States that differ in the counters only. -/
theorem SigState.Extends.of_termStack
    (hstack : ∀ s, (st'.core s).termStack = (st.core s).termStack) (hfresh : st'.fresh = st.fresh) :
    SigState.Extends decl st st' :=
  ⟨fun s => hstack s ▸ List.prefix_rfl, fun s _ => hstack s, hfresh.ge⟩

/-- The versions after the marker of clock `n`. -/
theorem marker_core (st : SigState S) (n : Nat) (s : S) :
    ((st.setInputVersion decl n).commitVersions decl n).core s =
      if (decl s).isInput then { st.core s with currVersion := n }
      else
        { (st.core s).commit with
          versionAtClock :=
            Function.update (st.core s).versionAtClock n (st.core s).nextVersion } := by
  by_cases hs : (decl s).isInput <;>
    simp [SigState.commitVersions, SigState.setInputVersion, hs]

theorem marker_termStack (st : SigState S) (n : Nat) (s : S) :
    (((st.setInputVersion decl n).commitVersions decl n).core s).termStack =
      (st.core s).termStack := by
  rw [marker_core]
  split <;> rfl

theorem extends_marker (st : SigState S) (n : Nat) :
    SigState.Extends decl st ((st.setInputVersion decl n).commitVersions decl n) :=
  .of_termStack (marker_termStack st n) rfl

theorem SigState.RegsInBounds.marker (h : st.RegsInBounds decl) (n : Nat) :
    ((st.setInputVersion decl n).commitVersions decl n).RegsInBounds decl := by
  intro s hs
  rw [marker_core, if_neg (by simp [hs])]
  exact (h s hs).commit

/-- Counters that start a simulation, of stacks that are not empty. -/
theorem SigState.regsInBounds_clear (hne : ∀ s, (st.core s).termStack ≠ []) :
    st.clearAllVersions.RegsInBounds decl :=
  fun s _ => ⟨le_rfl, List.length_pos_of_ne_nil (hne s)⟩

/-- The versions that `restore_versions(n)` restores. -/
theorem restore_core (st : SigState S) (n : Nat) (s : S) :
    (st.restoreVersions decl n).core s =
      if (decl s).isInput then { st.core s with currVersion := n }
      else
        { st.core s with
          currVersion := (st.core s).versionAtClock n
          nextVersion := (st.core s).versionAtClock n } := by
  by_cases hs : (decl s).isInput <;>
    simp [SigState.restoreVersions, SigState.setInputVersion, hs]

theorem extends_restore (st : SigState S) (n : Nat) :
    SigState.Extends decl st (st.restoreVersions decl n) := by
  refine .of_termStack (fun s => ?_) rfl
  rw [restore_core]
  split <;> rfl

variable [DecidableEq S] {a : SMTAssign S}

theorem Records.extends {target : Option S} (h : Records target st st')
    (hreg : ∀ s, some s = target → (decl s).isInput = false) : SigState.Extends decl st st' := by
  refine ⟨?_, ?_, h.fresh⟩
  · intro s
    by_cases hs : some s = target
    · obtain ⟨new, hnew, -⟩ := (h.bumped s hs).termStack
      exact hnew ▸ List.prefix_append _ _
    · rw [h.other s hs]
  · -- an input is never the target
    intro s hs
    rw [h.other s]
    intro htarget
    rw [hreg s htarget] at hs
    cases hs

omit [DecidableEq S] in
theorem SMTAssign.isInput_of_assigned (ha : a.writesReg decl = true) {s : S}
    (hs : some s = a.assigned) : (decl s).isInput = false := by
  unfold SMTAssign.assigned at hs
  unfold SMTAssign.writesReg at ha
  split at hs
  · rename_i isCommit lval heq
    obtain rfl := Option.some.inj hs
    simpa [heq] using ha
  · cases hs

theorem extends_updateTerm (ha : a.writesReg decl = true) (st : SigState S) :
    SigState.Extends decl st (a.updateTerm decl st).st :=
  (SMTAssign.records decl a st).extends fun _ hs => SMTAssign.isInput_of_assigned ha hs

theorem extends_updateNextVersion {s : S} (hs : (decl s).isInput = false) (st : SigState S) :
    SigState.Extends decl st (st.updateNextVersion s) :=
  (records_updateNextVersion st s).extends fun _ heq => Option.some.inj heq ▸ hs

theorem extends_commit (st : SigState S) (s : S) : SigState.Extends decl st (st.commit s) := by
  refine .of_termStack (fun s' => ?_) rfl
  rw [st.commit_core]
  split
  · rename_i heq
    rw [heq, SMTSigCore.commit_termStack]
  · rfl

theorem Records.below {target : Option S} (h : Records target st st') (hst : st.Below) :
    st'.Below := by
  intro s id hid
  by_cases hs : some s = target
  · obtain ⟨new, hnew, hbelow⟩ := (h.bumped s hs).termStack
    rw [hnew, List.mem_append, Option.mem_toList] at hid
    rcases hid with hid | hid
    · exact Nat.lt_of_lt_of_le (hst s id hid) h.fresh
    · exact (hbelow id hid).2
  · rw [h.other s hs] at hid
    exact Nat.lt_of_lt_of_le (hst s id hid) h.fresh

theorem Records.regsInBounds {target : Option S} (h : Records target st st')
    (hst : st.RegsInBounds decl) : st'.RegsInBounds decl := by
  intro s hs
  by_cases hs' : some s = target
  · exact (h.bumped s hs').inBounds (hst s hs)
  · rw [h.other s hs']
    exact hst s hs

theorem versionAtClock_updateTerm (a : SMTAssign S) (st : SigState S) (s : S) :
    ((a.updateTerm decl st).st.core s).versionAtClock = (st.core s).versionAtClock := by
  have hrec := SMTAssign.records decl a st
  by_cases hs : some s = a.assigned
  · exact (hrec.bumped s hs).versionAtClock
  · rw [hrec.other s hs]

end Extends

/-! ## Different versions -/

/-- Different versions have different terms. -/
def SigState.Distinct (st : SigState S) : Prop :=
  ∀ s s' (version version' id : Nat), (st.core s).termStack[version]? = some id →
    (st.core s').termStack[version']? = some id → s = s' ∧ version = version'

section Distinct

variable {decl : S → SigDecl} {st st' : SigState S}

theorem SigState.Constructed.distinct {gUnroll : Nat} (h : SigState.Constructed decl gUnroll st) :
    st.Distinct := by
  intro s s' version version' id hid hid'
  obtain rfl := h.apart s s' id (List.mem_of_getElem? hid) (List.mem_of_getElem? hid')
  obtain ⟨base, hbase⟩ := h.core s
  rw [hbase] at hid hid'
  obtain ⟨_, rfl⟩ := List.getElem?_eq_some_iff.mp hid
  obtain ⟨_, heq⟩ := List.getElem?_eq_some_iff.mp hid'
  simp only [SMTSigCore.new, List.getElem_range'] at heq
  exact ⟨rfl, by omega⟩

theorem SigState.Distinct.of_termStack (h : st.Distinct)
    (hstack : ∀ s, (st'.core s).termStack = (st.core s).termStack) : st'.Distinct := by
  intro s s' version version' id hid hid'
  rw [hstack] at hid hid'
  exact h s s' version version' id hid hid'

/-- A version after a record is one of before, or the new one of the target. -/
theorem Records.termStack_cases {target : Option S} (h : Records target st st') {s : S}
    {version id : Nat} (hid : (st'.core s).termStack[version]? = some id) :
    (st.core s).termStack[version]? = some id ∨
      some s = target ∧ version = (st.core s).termStack.length ∧ st.fresh ≤ id := by
  by_cases hs : some s = target
  · obtain ⟨new, hnew, hfresh⟩ := (h.bumped s hs).termStack
    rw [hnew] at hid
    by_cases hlt : version < (st.core s).termStack.length
    · exact .inl (List.getElem?_append_left hlt ▸ hid)
    · rw [List.getElem?_append_right (by omega)] at hid
      have hmem := hfresh id (Option.mem_toList.mp (List.mem_of_getElem? hid))
      obtain ⟨hlt', -⟩ := List.getElem?_eq_some_iff.mp hid
      have hle := Option.length_toList_le (o := new)
      exact .inr ⟨hs, by omega, hmem.1⟩
  · rw [h.other s hs] at hid
    exact .inl hid

theorem Records.distinct {target : Option S} (h : Records target st st') (hbelow : st.Below)
    (hst : st.Distinct) : st'.Distinct := by
  intro s s' version version' id hid hid'
  rcases h.termStack_cases hid with hold | ⟨hs, hversion, hfresh⟩
  · rcases h.termStack_cases hid' with hold' | ⟨-, -, hfresh'⟩
    · exact hst s s' version version' id hold hold'
    · have hlt := hbelow s id (List.mem_of_getElem? hold)
      omega
  · rcases h.termStack_cases hid' with hold' | ⟨hs', hversion', -⟩
    · have hlt := hbelow s' id (List.mem_of_getElem? hold')
      omega
    · obtain rfl := Option.some.inj (hs.trans hs'.symm)
      exact ⟨rfl, hversion.trans hversion'.symm⟩

end Distinct

end Conquest
