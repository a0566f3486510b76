import Conquest.Explore.StepCoverage
import Conquest.Lib.Least
import Mathlib.Data.Prod.Lex

/-!
# Nearest — which path comes closest to a target

`distance_from_current_path` finds the least distance and clock of the records
on the stack, and `update_closest_path` keeps the first path where they are
least. Both start from the values `0xFFFFFFF`, and distances and clocks are
compared in lexicographic order. A block from which the target cannot be reached
has that distance too, and it still counts, because its clock is smaller.
-/

namespace Conquest

open Least

variable {S : Type}

/-! ## One path -/

/-- The first value of `min_dist` and `min_clock`, and of the fields that they
are compared with. -/
def farthest : Nat := 0xFFFFFFF

/-- The comparison of distances and clocks in both loops. -/
def isNearer (distClock least : Nat × Nat) : Bool :=
  distClock.1 < least.1 || (distClock.1 == least.1 && distClock.2 < least.2)

/-- What the loop over the stack does with one entry. -/
def nearest (adjacencyList : Nat → Nat) (least : Nat × Nat) : Constraint S → Nat × Nat
  | .clk _ => least
  | .record r =>
      let dist := adjacencyList r.obj.block
      if isNearer (dist, r.clock) least then (dist, r.clock) else least

/-- `distance_from_current_path` of the target with the adjacency list. -/
def distanceFromCurrentPath (adjacencyList : Nat → Nat) (stack : List (Constraint S)) :
    Nat × Nat :=
  stack.foldl (nearest adjacencyList) (farthest, farthest)

/-- The distance and the clock of a record, in the order of the comparison. -/
def distClock (adjacencyList : Nat → Nat) (r : Record S) : ℕ ×ₗ ℕ :=
  toLex (adjacencyList r.obj.block, r.clock)

/-- The records on the stack. -/
def pathRecords (stack : List (Constraint S)) : List (Record S) :=
  stack.filterMap Constraint.record?

theorem isNearer_iff {distClock least : Nat × Nat} :
    isNearer distClock least = true ↔ toLex distClock < toLex least := by
  simp [isNearer, Prod.Lex.toLex_lt_toLex]

section Path

variable {adjacencyList : Nat → Nat}

theorem keep_distClock (r : Record S) (kept : Option (Record S)) (least : Nat × Nat) :
    (keep (distClock adjacencyList) (kept, toLex least) r).2 =
      toLex (nearest adjacencyList least (.record r)) := by
  show (if toLex _ < toLex _ then _ else _ : Option (Record S) × (ℕ ×ₗ ℕ)).2 =
    toLex (if _ then _ else _)
  simp only [← isNearer_iff]
  split
  · rfl
  · rfl

/-- The loop over the stack is the scan of its records. -/
theorem foldl_nearest (stack : List (Constraint S)) (kept : Option (Record S))
    (least : Nat × Nat) :
    toLex (stack.foldl (nearest adjacencyList) least) =
      ((pathRecords stack).foldl (keep (distClock adjacencyList)) (kept, toLex least)).2 := by
  induction stack generalizing kept least with
  | nil => rfl
  | cons c stack ih =>
      cases c with
      | clk n => exact ih kept least
      | record r =>
          show _ = ((pathRecords stack).foldl _ (keep _ _ r)).2
          rw [← Prod.mk.eta (p := keep (distClock adjacencyList) (kept, toLex least) r),
            keep_distClock]
          exact ih _ _

theorem distanceFromCurrentPath_eq (stack : List (Constraint S)) :
    toLex (distanceFromCurrentPath adjacencyList stack) =
      ((pathRecords stack).foldl (keep (distClock adjacencyList))
        (none, toLex (farthest, farthest))).2 := foldl_nearest stack none _

/-- Distances are capped, and clocks stay below the cap. -/
def InRange (adjacencyList : Nat → Nat) (stack : List (Constraint S)) : Prop :=
  ∀ r ∈ pathRecords stack, adjacencyList r.obj.block ≤ farthest ∧ r.clock < farthest

/-- The least distance and clock of the records, where there is one. -/
def IsNearest (adjacencyList : Nat → Nat) (stack : List (Constraint S)) (least : ℕ ×ₗ ℕ) : Prop :=
  IsLeast {k | ∃ r ∈ pathRecords stack, distClock adjacencyList r = k} least

/-- A record from which the target cannot be reached comes before the bound too. -/
theorem InRange.lt {stack : List (Constraint S)} (h : InRange adjacencyList stack) {r : Record S}
    (hr : r ∈ pathRecords stack) : distClock adjacencyList r < toLex (farthest, farthest) := by
  obtain ⟨hdist, hclock⟩ := h r hr
  rw [distClock, Prod.Lex.toLex_lt_toLex]
  rcases Nat.lt_or_eq_of_le hdist with hlt | heq
  · exact .inl hlt
  · exact .inr ⟨heq, hclock⟩

theorem InRange.isNearest {stack : List (Constraint S)} (h : InRange adjacencyList stack)
    (hne : pathRecords stack ≠ []) :
    IsNearest adjacencyList stack (toLex (distanceFromCurrentPath adjacencyList stack)) := by
  rw [distanceFromCurrentPath_eq]
  obtain ⟨r, hr⟩ := List.exists_mem_of_ne_nil _ hne
  exact isLeast_foldl_keep ⟨r, hr, h.lt hr⟩

theorem distanceFromCurrentPath_of_nil {stack : List (Constraint S)}
    (h : pathRecords stack = []) :
    distanceFromCurrentPath adjacencyList stack = (farthest, farthest) := by
  have heq : toLex (distanceFromCurrentPath adjacencyList stack) = _ :=
    distanceFromCurrentPath_eq stack
  rw [h] at heq
  exact toLex.injective heq

/-- The value of the path is below the bound exactly when it has a record. -/
theorem InRange.lt_iff {stack : List (Constraint S)} (h : InRange adjacencyList stack) :
    toLex (distanceFromCurrentPath adjacencyList stack) < toLex (farthest, farthest) ↔
      pathRecords stack ≠ [] := by
  constructor
  · intro hlt hnil
    rw [distanceFromCurrentPath_of_nil hnil] at hlt
    exact lt_irrefl _ hlt
  · intro hne
    obtain ⟨r, hr, heq⟩ := (h.isNearest hne).1
    rw [← heq]
    exact h.lt hr

end Path

/-! ## All paths -/

/-- `closest_path` with its distance and its clock. The constructor leaves the
path unset. -/
structure ClosestPath where
  path : Option Nat
  distance : Nat
  clock : Nat
  deriving DecidableEq

def ClosestPath.initial : ClosestPath where
  path := none
  distance := farthest
  clock := farthest

/-- `update_closest_path`. -/
def updateClosestPath (adjacencyList : Nat → Nat) (path : Nat) (stack : List (Constraint S))
    (c : ClosestPath) : ClosestPath :=
  let distClock := distanceFromCurrentPath adjacencyList stack
  if isNearer distClock (c.distance, c.clock) then
    { path := some path, distance := distClock.1, clock := distClock.2 }
  else c

/-- The calls of `update_closest_path` of one target, each with a path and the
stack of its simulation. -/
def updateCalls (adjacencyList : Nat → Nat) (calls : List (Nat × List (Constraint S))) :
    ClosestPath :=
  calls.foldl (fun c call => updateClosestPath adjacencyList call.1 call.2 c) .initial

/-- The first path whose least distance and clock are least. A path without a
record has none. -/
def IsClosest (adjacencyList : Nat → Nat) (calls : List (Nat × List (Constraint S)))
    (path : Nat) : Prop :=
  ∃ before stack after least, calls = before ++ (path, stack) :: after ∧
    IsNearest adjacencyList stack least ∧
      (∀ call ∈ before, ∀ r ∈ pathRecords call.2, least < distClock adjacencyList r) ∧
        ∀ call ∈ after, ∀ r ∈ pathRecords call.2, least ≤ distClock adjacencyList r

section Calls

variable {adjacencyList : Nat → Nat} {calls : List (Nat × List (Constraint S))}

/-- The value that a call compares. -/
def callKey (adjacencyList : Nat → Nat) (call : Nat × List (Constraint S)) : ℕ ×ₗ ℕ :=
  toLex (distanceFromCurrentPath adjacencyList call.2)

theorem foldl_updateClosestPath (kept : Option (Nat × List (Constraint S))) (least : Nat × Nat) :
    (calls.foldl (fun c call => updateClosestPath adjacencyList call.1 call.2 c)
      { path := kept.map Prod.fst, distance := least.1, clock := least.2 }).path =
        (calls.foldl (keep (callKey adjacencyList)) (kept, toLex least)).1.map Prod.fst := by
  induction calls generalizing kept least with
  | nil => rfl
  | cons call calls ih =>
      rw [List.foldl_cons, List.foldl_cons, updateClosestPath]
      dsimp only
      split
      · rename_i hnear
        have hlt : callKey adjacencyList call < (kept, toLex least).2 := isNearer_iff.mp hnear
        rw [keep_of_lt hlt]
        exact ih (some call) (distanceFromCurrentPath adjacencyList call.2)
      · rename_i hnear
        have hle : (kept, toLex least).2 ≤ callKey adjacencyList call :=
          not_lt.mp (mt isNearer_iff.mpr hnear)
        rw [keep_of_le hle]
        exact ih kept least

/-- The calls are the scan of the paths. -/
theorem updateCalls_path : (updateCalls adjacencyList calls).path =
    (calls.foldl (keep (callKey adjacencyList)) (none, toLex (farthest, farthest))).1.map
      Prod.fst := foldl_updateClosestPath none (farthest, farthest)

variable (hrange : ∀ call ∈ calls, InRange adjacencyList call.2)

include hrange

/-- A value below the bound is below that of a path where it is below all of its
records. -/
theorem lt_callKey {call : Nat × List (Constraint S)} (hcall : call ∈ calls) {least : ℕ ×ₗ ℕ}
    (hbound : least < toLex (farthest, farthest)) :
    least < callKey adjacencyList call ↔
      ∀ r ∈ pathRecords call.2, least < distClock adjacencyList r := by
  by_cases hnil : pathRecords call.2 = []
  · rw [callKey, distanceFromCurrentPath_of_nil hnil, hnil]
    exact iff_of_true hbound fun _ hr => absurd hr List.not_mem_nil
  · have hnearest := (hrange call hcall).isNearest hnil
    constructor
    · intro hlt r hr
      exact hlt.trans_le (hnearest.2 ⟨r, hr, rfl⟩)
    · intro hall
      obtain ⟨r, hr, heq⟩ := hnearest.1
      rw [callKey, ← heq]
      exact hall r hr

theorem le_callKey {call : Nat × List (Constraint S)} (hcall : call ∈ calls) {least : ℕ ×ₗ ℕ}
    (hbound : least < toLex (farthest, farthest)) :
    least ≤ callKey adjacencyList call ↔
      ∀ r ∈ pathRecords call.2, least ≤ distClock adjacencyList r := by
  by_cases hnil : pathRecords call.2 = []
  · rw [callKey, distanceFromCurrentPath_of_nil hnil, hnil]
    exact iff_of_true hbound.le fun _ hr => absurd hr List.not_mem_nil
  · have hnearest := (hrange call hcall).isNearest hnil
    constructor
    · intro hle r hr
      exact hle.trans (hnearest.2 ⟨r, hr, rfl⟩)
    · intro hall
      obtain ⟨r, hr, heq⟩ := hnearest.1
      rw [callKey, ← heq]
      exact hall r hr

/-- The closest path is the first one in the scan. -/
theorem isClosest_iff {path : Nat} : IsClosest adjacencyList calls path ↔
    ∃ stack, IsFirst (callKey adjacencyList) calls (path, stack) ∧
      callKey adjacencyList (path, stack) < toLex (farthest, farthest) := by
  constructor
  · rintro ⟨before, stack, after, least, rfl, hnearest, hbefore, hafter⟩
    have hmem : (path, stack) ∈ before ++ (path, stack) :: after :=
      List.mem_append_right _ List.mem_cons_self
    have hstack := hrange _ hmem
    obtain ⟨r, hr, -⟩ := hnearest.1
    have hne : pathRecords stack ≠ [] := List.ne_nil_of_mem hr
    have hkey : callKey adjacencyList (path, stack) = least :=
      (hstack.isNearest hne).unique hnearest
    have hbound := hstack.lt_iff.mpr hne
    refine ⟨stack, ⟨before, after, rfl, fun call hcall => ?_, fun call hcall => ?_⟩, hbound⟩
    · refine (lt_callKey hrange (List.mem_append_left _ hcall) hbound).mpr ?_
      intro r hr
      exact hkey.trans_lt (hbefore call hcall r hr)
    · refine (le_callKey hrange (List.mem_append_right _ (List.mem_cons_of_mem _ hcall))
        hbound).mpr ?_
      intro r hr
      exact hkey.trans_le (hafter call hcall r hr)
  · rintro ⟨stack, ⟨before, after, rfl, hbefore, hafter⟩, hbound⟩
    have hstack := hrange _ (List.mem_append_right _ List.mem_cons_self)
    refine ⟨before, stack, after, _, rfl, hstack.isNearest (hstack.lt_iff.mp hbound), ?_, ?_⟩
    · intro call hcall
      exact (lt_callKey hrange (List.mem_append_left _ hcall) hbound).mp (hbefore call hcall)
    · intro call hcall
      exact (le_callKey hrange (List.mem_append_right _ (List.mem_cons_of_mem _ hcall))
        hbound).mp (hafter call hcall)

end Calls

/-- **The closest path.** After any calls of `update_closest_path` the path is the
first one whose least distance and clock are least, and it is set as soon as a
path has a record, whether or not the target can be reached from its blocks. -/
theorem closestPath_first {adjacencyList : Nat → Nat} {calls : List (Nat × List (Constraint S))}
    (hrange : ∀ call ∈ calls, InRange adjacencyList call.2) :
    (∀ path, (updateCalls adjacencyList calls).path = some path ↔
      IsClosest adjacencyList calls path) ∧
        ((updateCalls adjacencyList calls).path.isSome = true ↔
          ∃ call ∈ calls, pathRecords call.2 ≠ []) := by
  constructor
  · intro path
    rw [updateCalls_path, isClosest_iff hrange, Option.map_eq_some_iff]
    constructor
    · rintro ⟨⟨path, stack⟩, hkept, rfl⟩
      exact ⟨stack, foldl_keep_eq_some_iff.mp hkept⟩
    · rintro ⟨stack, hfirst⟩
      exact ⟨(path, stack), foldl_keep_eq_some_iff.mpr hfirst, rfl⟩
  · rw [updateCalls_path, Option.isSome_map]
    constructor
    · intro hsome
      obtain ⟨call, hkept⟩ := Option.isSome_iff_exists.mp hsome
      obtain ⟨hfirst, hbound⟩ := foldl_keep_eq_some_iff.mp hkept
      exact ⟨call, hfirst.mem, (hrange call hfirst.mem).lt_iff.mp hbound⟩
    · rintro ⟨call, hcall, hne⟩
      rcases foldl_keep (callKey adjacencyList) (toLex (farthest, farthest)) calls with
        ⟨a, -, -, heq⟩ | ⟨hnone, -⟩
      · rw [heq]
        rfl
      · have hlt := (hrange call hcall).lt_iff.mpr hne
        exact absurd hlt (not_lt.mpr (hnone call hcall))

/-- Two paths from which the target cannot be reached: the second one has the
smaller clock. -/
def unreachableCalls : List (Nat × List (Constraint Bool)) :=
  [(0, [.clk 1, .clk 2, .record { elseRecord with clock := 2 }]),
    (1, [.clk 1, .record elseRecord, .clk 2, .record { elseRecord with clock := 2 }])]

theorem unreachable_closest : IsClosest (fun _ => farthest) unreachableCalls 1 := by
  have hrange : ∀ call ∈ unreachableCalls, InRange (fun _ => farthest) call.2 := by
    unfold InRange
    decide
  exact ((closestPath_first hrange).1 1).mp (by decide)

/-! ## All targets -/

/-- `update_all_closest_paths`, where every target has its adjacency list. -/
def updateAllClosestPaths (adjacencyList : Nat → Nat → Nat) (targetList : List Nat) (path : Nat)
    (stack : List (Constraint S)) (c : Nat → ClosestPath) : Nat → ClosestPath :=
  targetList.foldl
    (fun c it => Function.update c it (updateClosestPath (adjacencyList it) path stack (c it))) c

/-- The same path is not closer than itself. -/
theorem updateClosestPath_twice (adjacencyList : Nat → Nat) (path : Nat)
    (stack : List (Constraint S)) (c : ClosestPath) :
    updateClosestPath adjacencyList path stack (updateClosestPath adjacencyList path stack c) =
      updateClosestPath adjacencyList path stack c := by
  by_cases hnear :
      isNearer (distanceFromCurrentPath adjacencyList stack) (c.distance, c.clock) = true
  · have honce : updateClosestPath adjacencyList path stack c =
        { path := some path
          distance := (distanceFromCurrentPath adjacencyList stack).1
          clock := (distanceFromCurrentPath adjacencyList stack).2 } := if_pos hnear
    rw [honce]
    exact if_neg fun hself => lt_irrefl _ (isNearer_iff.mp hself)
  · have honce : updateClosestPath adjacencyList path stack c = c := if_neg hnear
    rw [honce, honce]

/-- Every target is updated, and nothing else. -/
theorem updateAllClosestPaths_apply (adjacencyList : Nat → Nat → Nat) (targetList : List Nat)
    (path : Nat) (stack : List (Constraint S)) (c : Nat → ClosestPath) (target : Nat) :
    updateAllClosestPaths adjacencyList targetList path stack c target =
      if target ∈ targetList then updateClosestPath (adjacencyList target) path stack (c target)
      else c target := by
  unfold updateAllClosestPaths
  induction targetList generalizing c with
  | nil => rfl
  | cons it targetList ih =>
      rw [List.foldl_cons, ih]
      by_cases heq : target = it
      · subst heq
        rw [Function.update_self, updateClosestPath_twice, ite_self,
          if_pos List.mem_cons_self]
      · rw [Function.update_of_ne heq]
        simp only [List.mem_cons, heq, false_or]

/-- The exploration keeps these paths, where it is told which targets the new one
is closer to. -/
theorem Search.updateAllClosestPaths_eq {x : Search S} {path : Nat} (hpath : x.path = some path)
    {adjacencyList : Nat → Nat → Nat} {c : Nat → ClosestPath} {isCloser : Nat → Bool}
    (hc : ∀ target, x.closestPath target = (c target).path)
    (hcloser : ∀ target, isCloser target =
      isNearer (distanceFromCurrentPath (adjacencyList target) x.session.stack)
        ((c target).distance, (c target).clock)) (target : Nat) :
    (x.updateAllClosestPaths isCloser).closestPath target =
      (Conquest.updateAllClosestPaths adjacencyList x.session.targetList path x.session.stack c
        target).path := by
  rw [updateAllClosestPaths_apply]
  show (if target ∈ x.session.targetList ∧ isCloser target = true then x.path
    else x.closestPath target) = _
  rw [hcloser, hpath, hc]
  by_cases hmem : target ∈ x.session.targetList
  · rw [if_pos hmem, updateClosestPath]
    split
    · rename_i hnear
      rw [if_pos hnear.2]
    · rename_i hnear
      rw [if_neg fun h => hnear ⟨hmem, h⟩]
  · rw [if_neg hmem, if_neg fun h => hmem h.1]

end Conquest
