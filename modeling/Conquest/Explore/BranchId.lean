import Conquest.Explore.Counted
import Conquest.Explore.Targets
import Conquest.Lib.Scanf

/-!
# BranchId — the targets between two starts

The first start of the program finds no file `branch_id`, writes the ids of all
arms into one, a line each, and exits, so that the user can choose among them.
The next start reads the file: the blocks of its ids, in their order, are the
targets of the exploration.
-/

namespace Conquest

open Run Text Scanf

/-! ## Starting the program -/

section Start

variable {S : Type} (d : Design S)

/-- A file of ids as `dump_branch_id` writes it. -/
def branchIdText (ids : List Nat) : Line := ids.flatMap fun id => toDec id ++ ['\n']

/-- What `dump_branch_id` writes. -/
def Design.dumpBranchId : Line :=
  branchIdText ((List.range d.assignMap.length).filter d.isArm)

/-- The block of an arm; `select_target` asserts that the id is that of an arm. -/
def Design.targetOf (id : Nat) : Option Nat :=
  (d.getAssign id).bind fun assign => if assign.isBranch then some assign.block else none

/-- `select_target`. -/
def Design.selectTarget (file : Line) : Option (List Nat) :=
  (signeds file).mapM fun id => d.targetOf id.toNat

/-- What a start comes to. -/
inductive Start where
  | exits (branchId : Line)
  | explores (targets : List Nat)
  deriving DecidableEq

/-- `start_concolic`, with the file `branch_id` if there is one. Without a target it
ends in `error`. -/
def Design.startConcolic : Option Line → Option Start
  | none => some (.exits d.dumpBranchId)
  | some file =>
      (d.selectTarget file).bind fun targets =>
        if targets = [] then none else some (.explores targets)

/-- The blocks of the arms, in the order of their ids. -/
def Design.armTargets : List Nat := (d.assignMap.filter SMTAssign.isBranch).map SMTAssign.block

end Start

/-! ## Reading the file -/

section Read

variable {S : Type} {d : Design S}

/-- A file that the user has written in this form. -/
theorem selectTarget_branchIdText {ids : List Nat} (h : ∀ id ∈ ids, id < 2 ^ 32) :
    d.selectTarget (branchIdText ids) = ids.mapM d.targetOf := by
  have hread : signeds (branchIdText ids) = ids.map (BitVec.ofNat 32) :=
    signeds_lines fun id hid => (h id hid).trans (by decide)
  rw [Design.selectTarget, hread]
  clear hread
  induction ids with
  | nil => rfl
  | cons id ids ih =>
      obtain ⟨hid, hids⟩ := List.forall_mem_cons.mp h
      have hnat : (BitVec.ofNat 32 id).toNat = id := by
        rw [BitVec.toNat_ofNat, Nat.mod_eq_of_lt hid]
      rw [List.map_cons, List.mapM_cons, List.mapM_cons, hnat, ih hids]

theorem map_id_assignMap : d.assignMap.map SMTAssign.id = List.range d.assignMap.length := by
  apply List.ext_getElem
  · simp
  · intro i h₁ h₂
    rw [List.getElem_map, List.getElem_range]
    exact d.id_eq i (by simpa using h₁)

/-- The ids of the arms are those of the records that are arms. -/
theorem filter_isArm :
    (List.range d.assignMap.length).filter d.isArm =
      (d.assignMap.filter SMTAssign.isBranch).map SMTAssign.id := by
  rw [← map_id_assignMap, List.filter_map]
  congr 1
  apply List.filter_congr
  intro a ha
  obtain ⟨i, hi, rfl⟩ := List.getElem_of_mem ha
  exact d.isArm_id (List.getElem?_eq_getElem hi)

theorem targetOf_id {a : SMTAssign S} (ha : a ∈ d.assignMap) (hbranch : a.isBranch = true) :
    d.targetOf a.id = some a.block := by
  obtain ⟨i, hi, rfl⟩ := List.getElem_of_mem ha
  have hget : d.getAssign d.assignMap[i].id = some d.assignMap[i] := by
    rw [d.id_eq i hi]
    exact List.getElem?_eq_getElem hi
  rw [Design.targetOf, hget, Option.bind_some, if_pos hbranch]

theorem mapM_targetOf {assigns : List (SMTAssign S)} (h : assigns ⊆ d.assignMap)
    (hbranch : ∀ a ∈ assigns, a.isBranch = true) :
    (assigns.map SMTAssign.id).mapM d.targetOf = some (assigns.map SMTAssign.block) := by
  induction assigns with
  | nil => rfl
  | cons a assigns ih =>
      obtain ⟨ha, hassigns⟩ := List.cons_subset.mp h
      obtain ⟨hfirst, hrest⟩ := List.forall_mem_cons.mp hbranch
      rw [List.map_cons, List.mapM_cons, targetOf_id ha hfirst, ih hassigns hrest]
      rfl

/-- The file of the first start is read back. -/
theorem selectTarget_dumpBranchId (hcount : d.assignMap.length ≤ 2 ^ 32) :
    d.selectTarget d.dumpBranchId = some d.armTargets := by
  rw [Design.dumpBranchId, selectTarget_branchIdText, filter_isArm, mapM_targetOf]
  · rfl
  · exact fun a ha => (List.mem_filter.mp ha).1
  · exact fun a ha => (List.mem_filter.mp ha).2
  · intro id hid
    have hlt := List.mem_range.mp (List.mem_filter.mp hid).1
    omega

end Read

/-- **Two starts.** What the first start writes is read by the second one without a
failing assertion: it ends in `error` if the design has no arm, and otherwise its
targets are the blocks of all arms, in the order of their ids. In every run of its
exploration each of them is, as often as it has arms, in one of the lists of
covered, of uncovered and of remaining targets; those that are reported as covered
are marked, and no target remains at the end. -/
theorem stepCoverage_startedTwice {S : Type} [DecidableEq S] {d : Design S} {opts : Options}
    {firstAssign : Nat → Nat} (hcount : d.assignMap.length ≤ 2 ^ 32) {file : Line}
    (hfirst : d.startConcolic none = some (.exits file)) (printed : Nat → List Char)
    (session : Session S) :
    (d.startConcolic (some file) =
      if d.armTargets = [] then none else some (.explores d.armTargets)) ∧
    ∀ targets, d.startConcolic (some file) = some (.explores targets) →
      ∀ (answers : List (Answer S)) (x : Search S) (events : List Event),
        observe (Search.step d opts firstAssign) (Search.start d opts printed session targets)
          answers = some (x, events) →
        (x.coveredTargetList ++ x.uncoveredTargetList ++ x.session.targetList).Perm d.armTargets ∧
        (∀ target ∈ x.coveredTargetList, x.isCovered firstAssign target = true) ∧
        (x.point = .done → x.session.targetList = []) := by
  obtain rfl : d.dumpBranchId = file := Start.exits.inj (Option.some.inj hfirst)
  have hsecond : d.startConcolic (some d.dumpBranchId) =
      if d.armTargets = [] then none else some (.explores d.armTargets) := by
    rw [Design.startConcolic, selectTarget_dumpBranchId hcount]
    rfl
  refine ⟨hsecond, fun targets htargets answers x events hrun => ?_⟩
  rw [hsecond] at htargets
  split at htargets
  · cases htargets
  · obtain rfl := Start.explores.inj (Option.some.inj htargets)
    have htracked := Search.tracked_run (Search.tracked_start printed session _) hrun
    exact ⟨htracked.perm, htracked.covered, htracked.done⟩

/-- The file has the lines `0` and `2`, and both arms are targets. -/
theorem else_startedTwice :
    elseDesign.startConcolic none = some (.exits "0\n2\n".toList) ∧
      elseDesign.startConcolic (some "0\n2\n".toList) = some (.explores [0, 1]) := by
  have hfirst : elseDesign.startConcolic none = some (.exits "0\n2\n".toList) := by decide
  refine ⟨hfirst, ?_⟩
  have htwice := @stepCoverage_startedTwice _ _ elseDesign elseOptions (fun _ => 0) (by decide) _
    hfirst (fun _ => ['a']) elseSession
  exact htwice.1

end Conquest
