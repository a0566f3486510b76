import Conquest.Lib.Run
import Conquest.Smt.Assign

/-!
# Versions — the counters of a signal over whole runs

The counters of every signal stay within its term stack, and the term that an
assignment constrains is the one `get_term(SMT_CLK_NEXT)` returns afterwards, as
long as an array is written only while its next version is the last term of its
stack. `SMTArray::update_term` pushes its new term at the end of the stack
whatever the counters are, so the first array write after `clear_all_versions`
or `restore_versions` leaves them apart.
-/

namespace Conquest

open Bv Run

variable {S : Type} [DecidableEq S] (decl : S → SigDecl)

/-! ## Runs -/

/-- The operations on the versions of the signals. -/
inductive SigOp (S : Type) where
  | updateTerm (a : SMTAssign S)
  | commit (s : S)
  | commitVersions (clock : Nat)
  | restoreVersions (clock : Nat)
  | clearAllVersions

def SigOp.step (st : SigState S) : SigOp S → SigState S
  | .updateTerm a => (a.updateTerm decl st).st
  | .commit s => st.commit s
  | .commitVersions clock => st.commitVersions decl clock
  | .restoreVersions clock => st.restoreVersions decl clock
  | .clearAllVersions => st.clearAllVersions

/-- The term the constraint of an assignment is about is the next version's. -/
def WritesNext (a : SMTAssign S) (st : SigState S) : Prop :=
  match a.target with
  | .branch _ => True
  | .assign _ lval =>
      (a.updateTerm decl st).written.isSome ∧
        (a.updateTerm decl st).written =
          ((a.updateTerm decl st).st.core lval.parent).getTerm .next

/-- What a step has to establish. -/
def StepAligned (st : SigState S) (op : SigOp S) : Prop :=
  (∀ s, ((op.step decl st).core s).InBounds) ∧
    match op with
    | .updateTerm a => WritesNext decl a st
    | _ => True

/-- When it does: an array is written with its next version at the end of its
stack, and inputs are restored to a clock that their next version reaches. -/
def StepAllowed (st : SigState S) : SigOp S → Prop
  | .updateTerm a =>
      match a.target with
      | .assign _ (.array arr _) =>
          (st.core arr.parent).nextVersion + 1 = (st.core arr.parent).termStack.length
      | _ => True
  | .restoreVersions clock => ∀ s, (decl s).isInput → clock ≤ (st.core s).nextVersion
  | _ => True

/-! ## The invariant -/

/-- The counters, and every version remembered for a clock, are within the
stack, whose terms are below `fresh`. -/
structure SMTSigCore.Ok (fresh : Nat) (c : SMTSigCore) : Prop where
  inBounds : c.InBounds
  atClock : ∀ clock, c.versionAtClock clock < c.termStack.length
  below : ∀ id ∈ c.termStack, id < fresh

def SigState.Ok (st : SigState S) : Prop := ∀ s, (st.core s).Ok st.fresh

namespace SMTSigCore

theorem Ok.mono {fresh fresh' : Nat} {c : SMTSigCore} (h : c.Ok fresh) (hle : fresh ≤ fresh') :
    c.Ok fresh' :=
  ⟨h.inBounds, h.atClock, fun id hid => Nat.lt_of_lt_of_le (h.below id hid) hle⟩

theorem Ok.commit {fresh : Nat} {c : SMTSigCore} (h : c.Ok fresh) : c.commit.Ok fresh :=
  ⟨h.inBounds.commit, h.atClock, h.below⟩

/-- Reading the next version of a core within its bounds. -/
theorem Ok.getTerm_next {fresh : Nat} {c : SMTSigCore} (h : c.Ok fresh) :
    (c.getTerm .next).isSome := by
  simp [getTerm, version, h.inBounds.2]

/-- A term pushed on top of the stack, with the next version one up. -/
theorem Ok.arrayUpdateTerm {fresh : Nat} {c : SMTSigCore} (h : c.Ok fresh) :
    (c.arrayUpdateTerm fresh).Ok (fresh + 1) := by
  obtain ⟨hcurr, hnext⟩ := h.inBounds
  refine ⟨⟨?_, ?_⟩, ?_, ?_⟩
  · show c.currVersion ≤ c.nextVersion + 1
    omega
  · show c.nextVersion + 1 < (c.termStack ++ [fresh]).length
    simp
    omega
  · intro clock
    show c.versionAtClock clock < (c.termStack ++ [fresh]).length
    have := h.atClock clock
    simp
    omega
  · intro id hid
    rcases List.mem_append.mp hid with hid | hid
    · exact Nat.lt_succ_of_lt (h.below id hid)
    · rw [List.mem_singleton.mp hid]
      exact Nat.lt_succ_self fresh

theorem Ok.updateNextVersion {fresh : Nat} {c : SMTSigCore} (h : c.Ok fresh) :
    (c.updateNextVersion fresh).1.Ok
      (if (c.updateNextVersion fresh).2 then fresh + 1 else fresh) := by
  have hbounds := h.inBounds.updateNextVersion fresh
  unfold SMTSigCore.updateNextVersion at hbounds ⊢
  split
  · exact h.arrayUpdateTerm
  · rename_i hne
    rw [if_neg hne] at hbounds
    exact ⟨hbounds, h.atClock, h.below⟩

/-- The pushed term is the next version exactly at the end of the stack. -/
theorem getTerm_arrayUpdateTerm {fresh : Nat} {c : SMTSigCore} (h : c.Ok fresh) :
    (c.arrayUpdateTerm fresh).getTerm .next = some fresh ↔
      c.nextVersion + 1 = c.termStack.length := by
  have hget : (c.arrayUpdateTerm fresh).getTerm .next =
      (c.termStack ++ [fresh])[c.nextVersion + 1]? := rfl
  have hnext := h.inBounds.2
  rw [hget]
  by_cases hend : c.nextVersion + 1 = c.termStack.length
  · simp [hend]
  · rw [List.getElem?_append_left (by omega)]
    constructor
    · intro hold
      exact absurd (h.below fresh (List.mem_of_getElem? hold)) (lt_irrefl fresh)
    · intro hlen
      exact absurd hlen hend

end SMTSigCore

namespace SigState

variable {decl}

theorem Ok.set {st : SigState S} (h : st.Ok) {fresh : Nat} (hle : st.fresh ≤ fresh) {s : S}
    {c : SMTSigCore} (hc : c.Ok fresh) :
    SigState.Ok { core := Function.update st.core s c, fresh := fresh } := by
  intro s'
  by_cases hs : s' = s
  · subst hs
    simpa using hc
  · simpa [Function.update_of_ne hs] using (h s').mono hle

theorem Ok.updateNextVersion {st : SigState S} (h : st.Ok) (s : S) :
    (st.updateNextVersion s).Ok := by
  refine h.set ?_ (h s).updateNextVersion
  split <;> omega

theorem Ok.commit {st : SigState S} (h : st.Ok) (s : S) : (st.commit s).Ok :=
  h.set le_rfl (h s).commit

theorem Ok.arrayUpdateTerm {st : SigState S} (h : st.Ok) (s : S) :
    (st.arrayUpdateTerm s).1.Ok :=
  h.set (Nat.le_succ _) (h s).arrayUpdateTerm

omit [DecidableEq S]

theorem Ok.fresh_mono {st : SigState S} (h : st.Ok) {fresh : Nat} (hle : st.fresh ≤ fresh) :
    SigState.Ok { st with fresh := fresh } :=
  fun s => (h s).mono hle

theorem Ok.commitVersions {st : SigState S} (h : st.Ok) (clock : Nat) :
    (st.commitVersions decl clock).Ok := by
  intro s
  simp only [SigState.commitVersions]
  split
  · exact h s
  · have hcommit := (h s).commit
    refine ⟨hcommit.inBounds, fun clock' => ?_, hcommit.below⟩
    by_cases hclock : clock' = clock
    · subst hclock
      simpa using (h s).inBounds.2
    · simpa [Function.update_of_ne hclock] using (h s).atClock clock'

theorem Ok.clearAllVersions {st : SigState S} (h : st.Ok) : st.clearAllVersions.Ok := by
  intro s
  have hlen : 0 < (st.core s).termStack.length := Nat.zero_lt_of_lt (h s).inBounds.2
  exact ⟨⟨le_rfl, hlen⟩, (h s).atClock, (h s).below⟩

/-- Restored registers are within bounds; a restored input is when the clock
does not exceed its next version. -/
theorem inBounds_restoreVersions {st : SigState S} (h : st.Ok) (clock : Nat) (s : S) :
    ((st.restoreVersions decl clock).core s).InBounds ↔
      ((decl s).isInput → clock ≤ (st.core s).nextVersion) := by
  simp only [SigState.restoreVersions, SigState.setInputVersion, SMTSigCore.InBounds]
  by_cases hin : (decl s).isInput
  · simp [hin, (h s).inBounds.2]
  · simp [hin, (h s).atClock clock]

theorem Ok.restoreVersions {st : SigState S} (h : st.Ok) {clock : Nat}
    (hin : ∀ s, (decl s).isInput → clock ≤ (st.core s).nextVersion) :
    (st.restoreVersions decl clock).Ok := by
  intro s
  have hstack : ((st.restoreVersions decl clock).core s).termStack = (st.core s).termStack := by
    simp only [SigState.restoreVersions, SigState.setInputVersion]
    split <;> simp
  have hclock : ((st.restoreVersions decl clock).core s).versionAtClock =
      (st.core s).versionAtClock := by
    simp only [SigState.restoreVersions, SigState.setInputVersion]
    split <;> simp
  refine ⟨(inBounds_restoreVersions h clock s).mpr (hin s), ?_, ?_⟩
  · rw [hstack, hclock]
    exact (h s).atClock
  · rw [hstack]
    exact (h s).below

end SigState

/-! ## One step -/

variable {decl}

omit [DecidableEq S] in
theorem bitWrite_ok {st : SigState S} (h : st.Ok) (sig : SMTSignal S)
    (index : Option (SMTExpr S)) (n : SMTNumber) : (bitWrite decl sig index n st).st.Ok :=
  h.fresh_mono (Nat.le_succ _)

omit [DecidableEq S] in
/-- Constraining the next version keeps the cores and returns their next term. -/
theorem constrain_spec {st : SigState S} (h : st.Ok) (sig : SMTSignal S)
    (index : Option (SMTExpr S)) (rval : SMTExpr S) :
    (constrain decl sig index rval st).st.Ok ∧
      (constrain decl sig index rval st).st.core = st.core ∧
      (constrain decl sig index rval st).written = (st.core sig.parent).getTerm .next := by
  unfold constrain
  split
  · exact ⟨bitWrite_ok h sig index _, rfl, rfl⟩
  · exact ⟨h, rfl, rfl⟩

theorem updateTerm_ok {st : SigState S} (h : st.Ok) (a : SMTAssign S) :
    (a.updateTerm decl st).st.Ok := by
  unfold SMTAssign.updateTerm
  split
  · rename_i sig index _
    have hnext := h.updateNextVersion sig.parent
    have hok : (constrain decl sig index a.rval (st.updateNextVersion sig.parent)).st.Ok :=
      (constrain_spec hnext sig index a.rval).1
    split
    · exact hok.commit sig.parent
    · exact hok
  · rename_i arr index _
    exact (h.arrayUpdateTerm arr.parent).commit arr.parent
  · exact h

/-- A scalar's constraint is always on its next version; an array's exactly
when its next version was the last term of the stack. -/
theorem writesNext_iff {st : SigState S} (h : st.Ok) (a : SMTAssign S) :
    WritesNext decl a st ↔ StepAllowed decl st (.updateTerm a) := by
  unfold WritesNext StepAllowed
  cases htarget : a.target with
  | branch lval => simp [htarget]
  | assign isCommit lval =>
      cases lval with
      | signal sig index =>
          have hnext := h.updateNextVersion sig.parent
          have hspec := @constrain_spec S decl _ hnext sig index a.rval
          obtain ⟨-, hcore, hwritten⟩ := hspec
          have hsome := (hnext sig.parent).getTerm_next
          simp only [SMTAssign.updateTerm, htarget, SMTLval.parent, iff_true]
          cases isCommit
          · simp [hwritten, hcore, hsome]
          · simp [hwritten, hcore, hsome, SigState.commit, SigState.setCore,
              SMTSigCore.getTerm_next_commit]
      | array arr index =>
          -- the new term is pushed, while the version only goes up by one
          have hget := SMTSigCore.getTerm_arrayUpdateTerm (h arr.parent)
          simp only [SMTAssign.updateTerm, htarget, arrayWrite, SMTLval.parent,
            SigState.commit, SigState.setCore, SigState.arrayUpdateTerm, Function.update_self,
            SMTSigCore.getTerm_next_commit, Option.isSome_some, true_and]
          rw [eq_comm, hget]

theorem stepAligned_iff {st : SigState S} (h : st.Ok) (op : SigOp S) :
    StepAligned decl st op ↔ StepAllowed decl st op := by
  have hbounds {st' : SigState S} (hok : st'.Ok) : ∀ s, (st'.core s).InBounds :=
    fun s => (hok s).inBounds
  cases op with
  | updateTerm a =>
      rw [← writesNext_iff h a]
      exact and_iff_right (hbounds (updateTerm_ok h a))
  | commit s => exact iff_of_true ⟨hbounds (h.commit s), trivial⟩ trivial
  | commitVersions clock => exact iff_of_true ⟨hbounds (h.commitVersions clock), trivial⟩ trivial
  | restoreVersions clock =>
      refine (and_iff_left trivial).trans ?_
      exact forall_congr' fun s => SigState.inBounds_restoreVersions h clock s
  | clearAllVersions => exact iff_of_true ⟨hbounds h.clearAllVersions, trivial⟩ trivial

theorem step_ok {st : SigState S} (h : st.Ok) {op : SigOp S} (ha : StepAligned decl st op) :
    (op.step decl st).Ok := by
  cases op with
  | updateTerm a => exact updateTerm_ok h a
  | commit s => exact h.commit s
  | commitVersions clock => exact h.commitVersions clock
  | restoreVersions clock => exact h.restoreVersions ((stepAligned_iff h _).mp ha)
  | clearAllVersions => exact h.clearAllVersions

theorem run_aligned_iff {st : SigState S} (h : st.Ok) (ops : List (SigOp S)) :
    AllSteps (SigOp.step decl) (StepAligned decl) st ops ↔
      AllSteps (SigOp.step decl) (StepAllowed decl) st ops := by
  have hiff : ∀ (st : SigState S) op, st.Ok → (StepAligned decl st op ↔ StepAllowed decl st op) :=
    fun _ op hok => stepAligned_iff hok op
  exact allSteps_iff hiff (fun _ _ hok ha => step_ok hok ha) h ops

omit [DecidableEq S] in
theorem ok_of_constructed {gUnroll : Nat} {st : SigState S}
    (h : SigState.Constructed decl gUnroll st) : st.Ok := by
  intro s
  obtain ⟨base, hcore⟩ := h.core s
  have hlen : 0 < (st.core s).termStack.length := by
    rw [hcore]
    simp only [SMTSigCore.new, List.length_range']
    split <;> omega
  refine ⟨⟨?_, ?_⟩, ?_, h.below s⟩
  · rw [hcore]
    exact le_rfl
  · rw [hcore] at hlen ⊢
    exact hlen
  · intro clock
    rw [hcore] at hlen ⊢
    exact hlen

/-- **Versions over whole runs.** From freshly constructed signals, every step of
a run leaves all counters within bounds, and every assignment constrains the
term that `get_term(SMT_CLK_NEXT)` then returns, exactly when every step of the
run is allowed: no array is written unless its next version is the last of its
stack, and no input is restored beyond its next version. -/
theorem versions_aligned_iff {gUnroll : Nat} {st : SigState S}
    (h : SigState.Constructed decl gUnroll st) (ops : List (SigOp S)) :
    AllSteps (SigOp.step decl) (StepAligned decl) st ops ↔
      AllSteps (SigOp.step decl) (StepAllowed decl) st ops :=
  run_aligned_iff (ok_of_constructed h) ops

/-! ## An array written in two simulations -/

/-- A design of one array of two bits. -/
def memDecl : Unit → SigDecl := fun _ => { width := 1, isInput := false, indexCount := 2 }

def memState : SigState Unit where
  core := fun _ => SMTSigCore.new 0 (memDecl ()) 0
  fresh := 1

theorem memState_constructed : SigState.Constructed memDecl 0 memState where
  core := fun _ => ⟨0, rfl⟩
  below := by
    intro s id hid
    simpa [memState, SMTSigCore.new, memDecl, SigDecl.isArray] using hid
  apart := fun _ _ _ _ _ => rfl

/-- `mem[0] = 1`. -/
def memWrite : SMTAssign Unit where
  id := 0
  target := .assign true (.array ⟨(), false, (), 0⟩ (.leaf (.number ⟨['0']⟩)))
  rval := .leaf (.number ⟨['1']⟩)
  process := 0
  block := 0

/-- Two writes of the array in one simulation are aligned. -/
theorem memWrite_twice_aligned :
    AllSteps (SigOp.step memDecl) (StepAligned memDecl) memState
      [.updateTerm memWrite, .updateTerm memWrite, .commitVersions 1] :=
  (versions_aligned_iff memState_constructed _).mpr ⟨rfl, rfl, trivial, trivial⟩

/-- A write, a reset and a write are not: the second write constrains a term
that no later read returns. -/
theorem memWrite_after_clear_not_aligned :
    ¬ AllSteps (SigOp.step memDecl) (StepAligned memDecl) memState
      [.updateTerm memWrite, .clearAllVersions, .updateTerm memWrite] := by
  rw [run_aligned_iff (ok_of_constructed memState_constructed)]
  rintro ⟨-, -, hwrite, -⟩
  have hversions : (0 : Nat) + 1 = 2 := hwrite
  omega

end Conquest
