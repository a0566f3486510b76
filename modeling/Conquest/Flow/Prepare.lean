import Conquest.Flow.Distance

/-!
# Prepare — the control flow before the exploration

`step_coverage` prepares the blocks in three passes. `edge_realignment` replaces
the predecessors of an arm by the blocks whose assignments can make its condition
true, as the solver answers. `update_all_distances` notes for every target how
far each block is. `make_circular` leads from the entry of a process back to its
exit, into the clock cycle before.
-/

namespace Conquest

open Relax

/-! ## Control flow -/

/-- The first record of a block: none, an assignment, or an arm. An arm has, for
each state variable of its expanded condition, the blocks of the assignments to
it. -/
inductive BlockHead (B : Type) where
  | empty
  | assign
  | branch (stateVars : List (List B))

structure SMTProcess (B : Type) where
  entryBlock : B
  exitBlock : B
  deriving DecidableEq

/-- The blocks, once the conditions of the arms are expanded. -/
structure ControlFlow (B : Type) extends BlockGraph B where
  head : B → BlockHead B

namespace ControlFlow

variable {B : Type} [DecidableEq B]

/-! ## `edge_realignment` -/

/-- The variables of `edge_realignment`, with the number of solver calls so
far. -/
structure Realign (B : Type) where
  predecessors : B → List B
  isEdgeUpdated : B → Bool
  queForUpdateEdge : List B
  calls : Nat

namespace Realign

def mark (b : B) (s : Realign B) : Realign B :=
  { s with isEdgeUpdated := Function.update s.isEdgeUpdated b true }

def push (b : B) (s : Realign B) : Realign B :=
  { s.mark b with queForUpdateEdge := s.queForUpdateEdge ++ [b] }

/-- A block is queued once. -/
def pushNew (b : B) (s : Realign B) : Realign B :=
  if s.isEdgeUpdated b then s else s.push b

/-- One assignment to a state variable; the flag is `only_edge`. -/
def tryAssign (sat : Nat → Bool) (block : B) (s : Realign B × Bool) (assign : B) :
    Realign B × Bool :=
  let s' := { s.1 with calls := s.1.calls + 1 }
  if sat s.1.calls then
    let preds := if s.2 then [] else s'.predecessors block
    (pushNew assign
      { s' with predecessors := Function.update s'.predecessors block (preds.insert assign) }, false)
  else (s', s.2)

end Realign

variable (c : ControlFlow B)

/-- `update_edge` after the expansions, of a block and of the arm that begins
there. -/
def updateEdge (sat : Nat → Bool) (b : B) (s : Realign B) : Realign B :=
  let toIdom (s : Realign B) : Realign B :=
    match c.idom b with
    | none => s
    | some it => s.pushNew it
  match c.head b with
  | .empty => toIdom s
  | .assign => s
  | .branch stateVars =>
      let s := s.mark b
      if stateVars.isEmpty then toIdom s
      else (stateVars.flatten.foldl (Realign.tryAssign sat b) (s, true)).1

def realignLoop (sat : Nat → Bool) : Nat → Realign B → Option (Realign B)
  | 0, _ => none
  | fuel + 1, s =>
      match s.queForUpdateEdge with
      | [] => some s
      | current :: queue =>
          realignLoop sat fuel (c.updateEdge sat current { s with queForUpdateEdge := queue })

/-! ## The other passes -/

/-- `update_all_distances`: the `adjacency_list` of every target. -/
def updateAllDistances (fuel : Nat) (g : BlockGraph B) (targetList : List B) :
    Option (B → Option (B → Nat)) :=
  targetList.foldlM
    (fun adjacencyList it =>
      (g.updateDistance fuel it).map fun distance =>
        Function.update adjacencyList it (some distance))
    fun _ => none

def circle (preds : B → List B) (it : SMTProcess B) : B → List B :=
  if it.entryBlock ≠ it.exitBlock ∧ preds it.entryBlock = [] then
    Function.update preds it.entryBlock [it.exitBlock]
  else preds

/-- `make_circular` of all processes. -/
def makeCircular (processList : List (SMTProcess B)) (g : BlockGraph B) : BlockGraph B :=
  { g with predecessors := processList.foldl circle g.predecessors }

/-! ## Realignment ends -/

section Realignment

variable {c}

variable [Fintype B]

namespace Realign

/-- The blocks that can still be queued. -/
def waiting (s : Realign B) : Finset B :=
  Finset.univ.filter fun b => s.isEdgeUpdated b = false

/-- The queued blocks and those that can still be queued. -/
def size (s : Realign B) : Nat :=
  s.queForUpdateEdge.length + s.waiting.card

omit [DecidableEq B] in
theorem mem_waiting {s : Realign B} {b : B} : b ∈ s.waiting ↔ s.isEdgeUpdated b = false := by
  rw [waiting, Finset.mem_filter, and_iff_right (Finset.mem_univ b)]

theorem waiting_mark (b : B) (s : Realign B) : (s.mark b).waiting = s.waiting.erase b := by
  ext b'
  rw [Finset.mem_erase, mem_waiting, mem_waiting]
  change Function.update s.isEdgeUpdated b true b' = false ↔ _
  by_cases hb : b' = b
  · rw [hb, Function.update_self]
    simp
  · rw [Function.update_of_ne hb, and_iff_right hb]

theorem size_mark_le (b : B) (s : Realign B) : (s.mark b).size ≤ s.size := by
  have hcard := Finset.card_erase_le (s := s.waiting) (a := b)
  rw [← waiting_mark] at hcard
  exact Nat.add_le_add_left hcard _

theorem size_push (b : B) (s : Realign B) : (s.push b).size = (s.mark b).size + 1 := by
  have hlength : (s.push b).queForUpdateEdge.length = s.queForUpdateEdge.length + 1 :=
    List.length_append
  change (s.push b).queForUpdateEdge.length + (s.mark b).waiting.card =
    s.queForUpdateEdge.length + (s.mark b).waiting.card + 1
  omega

theorem size_pushNew_le (b : B) (s : Realign B) : (s.pushNew b).size ≤ s.size := by
  unfold pushNew
  split
  · exact le_rfl
  · rename_i hb
    -- the block leaves the set of those that can be queued
    have hcard := Finset.card_erase_lt_of_mem
      (mem_waiting.mpr (Bool.eq_false_of_not_eq_true hb))
    rw [← waiting_mark] at hcard
    rw [size_push]
    exact Nat.add_lt_add_left hcard _

theorem size_tryAssign_le (sat : Nat → Bool) (block : B) (s : Realign B × Bool) (assign : B) :
    (tryAssign sat block s assign).1.size ≤ s.1.size := by
  unfold tryAssign
  dsimp only
  split
  · exact size_pushNew_le assign _
  · exact le_rfl

end Realign

theorem size_updateEdge_le (sat : Nat → Bool) (b : B) (s : Realign B) :
    (c.updateEdge sat b s).size ≤ s.size := by
  have hidom : ∀ s : Realign B, (match c.idom b with
      | none => s
      | some it => s.pushNew it).size ≤ s.size := by
    intro s
    split
    · exact le_rfl
    · exact s.size_pushNew_le _
  have hfold : ∀ (assigns : List B) (s : Realign B × Bool),
      (assigns.foldl (Realign.tryAssign sat b) s).1.size ≤ s.1.size := by
    intro assigns
    induction assigns with
    | nil => exact fun s => le_rfl
    | cons assign assigns ih =>
        exact fun s => (ih _).trans (Realign.size_tryAssign_le sat b s assign)
  unfold updateEdge
  dsimp only
  split
  · exact hidom s
  · exact le_rfl
  · split
    · exact (hidom _).trans (s.size_mark_le b)
    · exact (hfold _ _).trans (s.size_mark_le b)

theorem realignLoop_isSome {sat : Nat → Bool} {fuel : Nat} {s : Realign B}
    (hfuel : s.size < fuel) : (c.realignLoop sat fuel s).isSome := by
  induction fuel generalizing s with
  | zero => exact absurd hfuel (Nat.not_lt_zero _)
  | succ fuel ih =>
      rw [realignLoop]
      split
      · rfl
      · rename_i current queue hqueue
        refine ih ((size_updateEdge_le sat current _).trans_lt ?_)
        rw [Realign.size, hqueue, List.length_cons] at hfuel
        change queue.length + s.waiting.card < fuel
        omega

end Realignment

/-! ## The edges that `make_circular` adds -/

theorem mem_circle {preds : B → List B} {it : SMTProcess B} {b b' : B} :
    b' ∈ circle preds it b ↔ b' ∈ preds b ∨ (it.entryBlock ≠ it.exitBlock ∧
      preds it.entryBlock = [] ∧ b = it.entryBlock ∧ b' = it.exitBlock) := by
  unfold circle
  split
  · rename_i hadd
    by_cases hb : b = it.entryBlock
    · rw [hb, Function.update_self, hadd.2]
      simp [hadd.1]
    · rw [Function.update_of_ne hb]
      simp [hb]
  · rename_i hkeep
    constructor
    · exact Or.inl
    · rintro (h | ⟨hne, hnil, -⟩)
      · exact h
      · exact absurd ⟨hne, hnil⟩ hkeep

theorem circle_of_ne {preds : B → List B} {it : SMTProcess B} {b : B} (h : b ≠ it.entryBlock) :
    circle preds it b = preds b := by
  unfold circle
  split
  · exact Function.update_of_ne h _ _
  · rfl

/-- The new edge of a process. -/
def Circular (preds : B → List B) (it : SMTProcess B) : Prop :=
  it.entryBlock ≠ it.exitBlock ∧ preds it.entryBlock = []

theorem mem_foldl_circle {processList : List (SMTProcess B)}
    (hnodup : (processList.map SMTProcess.entryBlock).Nodup) {preds : B → List B} {b b' : B} :
    b' ∈ processList.foldl circle preds b ↔ b' ∈ preds b ∨
      ∃ it ∈ processList, Circular preds it ∧ b = it.entryBlock ∧ b' = it.exitBlock := by
  induction processList generalizing preds with
  | nil => simp
  | cons it processList ih =>
      rw [List.map_cons, List.nodup_cons] at hnodup
      -- the processes to come have other entries
      have hcircular : ∀ it' ∈ processList, Circular (circle preds it) it' ↔ Circular preds it' := by
        intro it' hit'
        have hne : it'.entryBlock ≠ it.entryBlock := fun heq =>
          hnodup.1 (heq ▸ List.mem_map_of_mem hit')
        rw [Circular, Circular, circle_of_ne hne]
      rw [List.foldl_cons, ih hnodup.2, mem_circle, or_assoc, List.exists_mem_cons_iff]
      refine or_congr_right (or_congr (and_assoc.symm) (exists_congr fun it' => ?_))
      exact and_congr_right fun hit' => and_congr_left' (hcircular it' hit')

theorem mem_backward_makeCircular {processList : List (SMTProcess B)}
    (hnodup : (processList.map SMTProcess.entryBlock).Nodup) {g : BlockGraph B} {b : B}
    {e : B × Nat} :
    e ∈ (makeCircular processList g).backward b ↔ e ∈ g.backward b ∨
      ∃ it ∈ processList, Circular g.predecessors it ∧ b = it.entryBlock ∧
        e = (it.exitBlock, g.weight b) := by
  obtain ⟨b', w⟩ := e
  rw [BlockGraph.mem_backward, BlockGraph.mem_backward]
  change (b' ∈ processList.foldl circle g.predecessors b ∨ g.idom b = some b') ∧
    w = g.weight b ↔ _
  rw [mem_foldl_circle hnodup]
  simp only [Prod.mk.injEq]
  constructor
  · rintro ⟨(hpred | ⟨it, hit, hcircular, hb, rfl⟩) | hidom, hw⟩
    · exact .inl ⟨.inl hpred, hw⟩
    · exact .inr ⟨it, hit, hcircular, hb, rfl, hw⟩
    · exact .inl ⟨.inr hidom, hw⟩
  · rintro (⟨hpred | hidom, hw⟩ | ⟨it, hit, hcircular, hb, hb', hw⟩)
    · exact ⟨.inl (.inl hpred), hw⟩
    · exact ⟨.inr hidom, hw⟩
    · exact ⟨.inl (.inr ⟨it, hit, hcircular, hb, hb'⟩), hw⟩

/-! ## The rows of the targets -/

section Rows

variable [Fintype B]

/-- The list of a target has its least distances. -/
def IsRow (g : BlockGraph B) (adjacencyList : B → Option (B → Nat)) (t : B) : Prop :=
  ∃ row, adjacencyList t = some row ∧
    ∀ b, (row b : ℕ∞) = min (initialDistance : ℕ∞) (least g.backward t b)

theorem updateAllDistances_fuel (g : BlockGraph B) {fuel : Nat}
    (hfuel : BlockGraph.fuelBound B ≤ fuel) (targetList : List B) :
    updateAllDistances fuel g targetList =
      updateAllDistances (BlockGraph.fuelBound B) g targetList := by
  unfold updateAllDistances
  simp only [fun t => g.updateDistance_fuel t hfuel]

theorem updateAllDistances_isRow (g : BlockGraph B) (targetList : List B) :
    ∃ adjacencyList,
      updateAllDistances (BlockGraph.fuelBound B) g targetList = some adjacencyList ∧
        ∀ t ∈ targetList, IsRow g adjacencyList t := by
  suffices hfold : ∀ (done : List B) (lists : B → Option (B → Nat)),
      (∀ t ∈ done, IsRow g lists t) →
        ∃ adjacencyList, targetList.foldlM (fun adjacencyList it =>
          (g.updateDistance (BlockGraph.fuelBound B) it).map fun distance =>
            Function.update adjacencyList it (some distance)) lists = some adjacencyList ∧
          ∀ t ∈ done ++ targetList, IsRow g adjacencyList t from
    hfold [] _ fun t ht => absurd ht (List.not_mem_nil)
  induction targetList with
  | nil => exact fun done lists h => ⟨lists, rfl, by rwa [List.append_nil]⟩
  | cons it targetList ih =>
      intro done lists h
      obtain ⟨distance, hdistance, hleast⟩ := g.updateDistance_eq it le_rfl
      rw [List.foldlM_cons, hdistance, Option.map_some, Option.bind_eq_bind, Option.bind_some,
        List.append_cons]
      refine ih (done ++ [it]) _ fun t ht => ?_
      by_cases hit : t = it
      · rw [hit]
        exact ⟨distance, Function.update_self _ _ _, hleast⟩
      · obtain ⟨row, hrow, hexact⟩ := h t (by simpa [hit] using ht)
        exact ⟨row, by rw [Function.update_of_ne hit, hrow], hexact⟩

omit [Fintype B] in
/-- The distances of the realigned graph are those of the final one where the way
around a process is no shortcut. -/
theorem isRow_makeCircular_iff {processList : List (SMTProcess B)}
    (hnodup : (processList.map SMTProcess.entryBlock).Nodup) {g : BlockGraph B}
    {adjacencyList : B → Option (B → Nat)} {t : B}
    (hrow : IsRow g adjacencyList t) :
    IsRow (makeCircular processList g) adjacencyList t ↔
      ∀ it ∈ processList, Circular g.predecessors it →
        min (initialDistance : ℕ∞) (least g.backward t it.exitBlock) ≤
          least g.backward t it.entryBlock + g.weight it.entryBlock := by
  obtain ⟨row, hlist, hexact⟩ := hrow
  have hsub : ∀ u, g.backward u ⊆ (makeCircular processList g).backward u := fun u e he =>
    (mem_backward_makeCircular hnodup).mpr (.inl he)
  have hsame : IsRow (makeCircular processList g) adjacencyList t ↔
      ∀ b, min (initialDistance : ℕ∞) (least g.backward t b) =
        min (initialDistance : ℕ∞) (least (makeCircular processList g).backward t b) := by
    constructor
    · rintro ⟨row', hlist', hexact'⟩ b
      cases hlist.symm.trans hlist'
      exact (hexact b).symm.trans (hexact' b)
    · exact fun h => ⟨row, hlist, fun b => (hexact b).trans (h b)⟩
  rw [hsame, min_least_eq_iff hsub]
  constructor
  · intro h it hit hcircular
    exact h it.entryBlock (it.exitBlock, g.weight it.entryBlock)
      ((mem_backward_makeCircular hnodup).mpr (.inr ⟨it, hit, hcircular, rfl, rfl⟩))
  · intro h u e he
    rcases (mem_backward_makeCircular hnodup).mp he with hold | ⟨it, hit, hcircular, rfl, rfl⟩
    · exact (min_le_right _ _).trans (least_step hold)
    · exact h it hit hcircular

end Rows

end ControlFlow

end Conquest
