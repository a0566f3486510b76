import Conquest.Lib.Binary32
import Conquest.Lib.Bv

/-!
# SigCore — versions of a signal

Every signal has a stack of solver terms, one per version, and two counters:
`curr_version` is the version that reads refer to and `next_version` the one
last written. A commit makes them equal; between simulations the counters go
back to zero, and a candidate's replay restores them to a clock, while the stack
keeps its terms.
-/

namespace Conquest

open Bv

/-! ## The source's data -/

inductive SMTClkType where
  | curr | next
  deriving DecidableEq, Repr

/-- What the declaration of a signal fixes. A scalar has one element. -/
structure SigDecl where
  width : Nat
  isInput : Bool
  indexCount : Nat
  deriving DecidableEq, Repr

namespace SigDecl

def isArray (d : SigDecl) : Bool := d.indexCount ≠ 1

/-- `index_width`: the number of elements becomes a `float`, and so does the
logarithm, which is truncated. -/
def indexWidth (d : SigDecl) : Nat := Binary32.truncLog2 (Binary32.roundInt d.indexCount)

/-- The width is the integer part of a value next to the logarithm of a value next
to the number of elements. -/
theorem indexWidth_eq_floor {d : SigDecl} (hpos : 0 < d.indexCount)
    (hlt : d.indexCount < 2 ^ 31) :
    ∃ x : ℝ, Binary32.IsNearest x d.indexCount ∧
      ∀ y, Binary32.IsNearest y (Real.logb 2 x) → ⌊y⌋ = d.indexWidth := by
  have hle := Binary32.roundInt_le_two_pow hlt
  have hge := Binary32.two_pow_le_roundInt le_rfl (Nat.log2_self_le (Nat.ne_of_gt hpos))
  have hpow := Nat.two_pow_pos (Nat.log2 d.indexCount)
  refine ⟨Binary32.roundInt d.indexCount, Binary32.roundInt_nearest _, fun y hy => ?_⟩
  exact Binary32.floor_eq_truncLog2 (by omega) (by omega) (Binary32.ulp_dvd_roundInt _) hy

theorem indexWidth_of_lt {d : SigDecl} (h : d.indexCount < 2 ^ 20) :
    d.indexWidth = Nat.log2 d.indexCount := by
  rw [indexWidth, Binary32.roundInt_of_lt (by omega), Binary32.truncLog2_of_lt h]

theorem indexWidth_le {d : SigDecl} (h : d.indexCount < 2 ^ 31) : d.indexWidth ≤ 32 := by
  have hround := Binary32.roundInt_le_two_pow h
  have hlog := Binary32.truncLog2_le (Binary32.roundInt d.indexCount)
  have hlt : Nat.log2 (Binary32.roundInt d.indexCount) < 32 := by
    by_cases hzero : Binary32.roundInt d.indexCount = 0
    · simp [hzero]
    · exact (Nat.log2_lt hzero).mpr (by omega)
  unfold indexWidth
  omega

theorem indexWidth_pos {d : SigDecl} (h : 2 ≤ d.indexCount) : 1 ≤ d.indexWidth :=
  calc 1 ≤ Nat.log2 d.indexCount := (Nat.le_log2 (by omega)).mpr h
    _ ≤ Nat.log2 (Binary32.roundInt d.indexCount) := Binary32.log2_le_roundInt _
    _ ≤ d.indexWidth := Binary32.log2_le_truncLog2 _

/-- `bv_type`: a bit-vector, or a function from indices. -/
def bvType (d : SigDecl) : Ty := if d.isArray then .fn d.indexWidth d.width else .bv d.width

/-- `init_term` of a signal whose version 0 is the term `id`: every element is
zero. -/
def initTerm (d : SigDecl) (id : Nat) : TermT :=
  let term := mkVar d.bvType id
  if d.isArray then
    let elem (i : Nat) :=
      mkEq (mkApp term (mkConst (BitVec.ofNat d.indexWidth i))) (mkConst (0#d.width))
    (List.range (d.indexCount - 1)).foldl (fun acc i => mkAnd2 acc (elem (i + 1))) (elem 0)
  else mkEq term (mkConst (0#d.width))

end SigDecl

/-- The state of an `SMTSigCore`: the terms are identified by the numbers the
solver gives to its uninterpreted terms. -/
structure SMTSigCore where
  termStack : List Nat
  currVersion : Nat
  nextVersion : Nat
  versionAtClock : Nat → Nat

namespace SMTSigCore

def version (c : SMTSigCore) : SMTClkType → Nat
  | .curr => c.currVersion
  | .next => c.nextVersion

/-- `get_term`; `none` beyond the stack. -/
def getTerm (c : SMTSigCore) (clk : SMTClkType) : Option Nat := c.termStack[c.version clk]?

def commit (c : SMTSigCore) : SMTSigCore := { c with currVersion := c.nextVersion }

@[simp] theorem commit_currVersion (c : SMTSigCore) : c.commit.currVersion = c.nextVersion := rfl

@[simp] theorem commit_nextVersion (c : SMTSigCore) : c.commit.nextVersion = c.nextVersion := rfl

@[simp] theorem commit_termStack (c : SMTSigCore) : c.commit.termStack = c.termStack := rfl

@[simp] theorem commit_versionAtClock (c : SMTSigCore) :
    c.commit.versionAtClock = c.versionAtClock := rfl

theorem getTerm_next_commit (c : SMTSigCore) : c.commit.getTerm .next = c.getTerm .next := rfl

/-- `update_next_version`, with the number a new term would get; the flag says
whether it was used. -/
def updateNextVersion (c : SMTSigCore) (fresh : Nat) : SMTSigCore × Bool :=
  if c.nextVersion + 1 = c.termStack.length then
    ({ c with nextVersion := c.nextVersion + 1, termStack := c.termStack ++ [fresh] }, true)
  else ({ c with nextVersion := c.nextVersion + 1 }, false)

section UpdateNextVersion

variable (c : SMTSigCore) (fresh : Nat)

@[simp] theorem updateNextVersion_currVersion :
    (c.updateNextVersion fresh).1.currVersion = c.currVersion := by
  unfold updateNextVersion
  split <;> rfl

@[simp] theorem updateNextVersion_nextVersion :
    (c.updateNextVersion fresh).1.nextVersion = c.nextVersion + 1 := by
  unfold updateNextVersion
  split <;> rfl

@[simp] theorem updateNextVersion_versionAtClock :
    (c.updateNextVersion fresh).1.versionAtClock = c.versionAtClock := by
  unfold updateNextVersion
  split <;> rfl

/-- The stack grows by the new term, exactly when it was used. -/
theorem updateNextVersion_termStack :
    (c.updateNextVersion fresh).1.termStack =
      c.termStack ++ if (c.updateNextVersion fresh).2 then [fresh] else [] := by
  unfold updateNextVersion
  split <;> simp

end UpdateNextVersion

/-- `curr_version <= next_version < term_stack.size()`. -/
def InBounds (c : SMTSigCore) : Prop :=
  c.currVersion ≤ c.nextVersion ∧ c.nextVersion < c.termStack.length

theorem InBounds.commit {c : SMTSigCore} (h : c.InBounds) : c.commit.InBounds :=
  ⟨Nat.le_refl _, h.2⟩

theorem InBounds.updateNextVersion {c : SMTSigCore} (h : c.InBounds) (fresh : Nat) :
    (c.updateNextVersion fresh).1.InBounds := by
  obtain ⟨hcurr, hnext⟩ := h
  unfold InBounds SMTSigCore.updateNextVersion
  split
  · simp only [List.length_append, List.length_singleton]
    omega
  · simp only
    omega

/-- `SMTArray::update_term` on the array's core: a new term is always pushed. -/
def arrayUpdateTerm (c : SMTSigCore) (fresh : Nat) : SMTSigCore :=
  { c with nextVersion := c.nextVersion + 1, termStack := c.termStack ++ [fresh] }

/-- A core as its constructor leaves it: terms for the versions `0 … g_unroll+10`
of a scalar, for version 0 of an array. -/
def new (gUnroll : Nat) (d : SigDecl) (fresh : Nat) : SMTSigCore where
  termStack := List.range' fresh (if d.isArray then 1 else gUnroll + 11)
  currVersion := 0
  nextVersion := 0
  versionAtClock := fun _ => 0

end SMTSigCore

/-- All signals of the design, and the number of the solver's next new term. -/
structure SigState (S : Type) where
  core : S → SMTSigCore
  fresh : Nat

namespace SigState

variable {S : Type} [DecidableEq S]

def setCore (st : SigState S) (s : S) (c : SMTSigCore) : SigState S :=
  { st with core := Function.update st.core s c }

/-- `update_next_version` of a signal. -/
def updateNextVersion (st : SigState S) (s : S) : SigState S :=
  let r := (st.core s).updateNextVersion st.fresh
  { core := Function.update st.core s r.1
    fresh := if r.2 then st.fresh + 1 else st.fresh }

theorem updateNextVersion_core (st : SigState S) (s s' : S) :
    (st.updateNextVersion s).core s' =
      if s' = s then ((st.core s).updateNextVersion st.fresh).1 else st.core s' := by
  by_cases hs : s' = s
  · subst hs
    simp [updateNextVersion]
  · simp [updateNextVersion, hs]

/-- `SMTArray::update_term`: the state and the new term. -/
def arrayUpdateTerm (st : SigState S) (s : S) : SigState S × Nat :=
  ({ core := Function.update st.core s ((st.core s).arrayUpdateTerm st.fresh)
     fresh := st.fresh + 1 }, st.fresh)

/-- `commit` of one signal. -/
def commit (st : SigState S) (s : S) : SigState S := st.setCore s (st.core s).commit

theorem commit_core (st : SigState S) (s s' : S) :
    (st.commit s).core s' = if s' = s then (st.core s).commit else st.core s' := by
  by_cases hs : s' = s
  · subst hs
    simp [commit, setCore]
  · simp [commit, setCore, hs]

omit [DecidableEq S]
variable (decl : S → SigDecl)

/-- `clear_all_versions`. -/
def clearAllVersions (st : SigState S) : SigState S :=
  { st with core := fun s => { st.core s with currVersion := 0, nextVersion := 0 } }

/-- `commit_versions(clock)`, over the registers. -/
def commitVersions (st : SigState S) (clock : Nat) : SigState S :=
  { st with
    core := fun s =>
      if (decl s).isInput then st.core s
      else
        let c := (st.core s).commit
        { c with versionAtClock := Function.update c.versionAtClock clock c.currVersion } }

/-- `set_input_version(version)`, over the inputs. -/
def setInputVersion (st : SigState S) (version : Nat) : SigState S :=
  { st with
    core := fun s =>
      if (decl s).isInput then { st.core s with currVersion := version } else st.core s }

/-- `restore_versions(clock)`. -/
def restoreVersions (st : SigState S) (clock : Nat) : SigState S :=
  setInputVersion decl
    { st with
      core := fun s =>
        if (decl s).isInput then st.core s
        else
          { st.core s with
            currVersion := (st.core s).versionAtClock clock
            nextVersion := (st.core s).versionAtClock clock } }
    clock

/-- All terms have numbers below `fresh`. -/
def Below (st : SigState S) : Prop := ∀ s, ∀ id ∈ (st.core s).termStack, id < st.fresh

/-- The state after all constructors: the terms of different signals have
different numbers, all below `fresh`. -/
structure Constructed (gUnroll : Nat) (st : SigState S) : Prop where
  core : ∀ s, ∃ base, st.core s = SMTSigCore.new gUnroll (decl s) base
  below : st.Below
  apart : ∀ s s' id, id ∈ (st.core s).termStack → id ∈ (st.core s').termStack → s = s'

end SigState

end Conquest
