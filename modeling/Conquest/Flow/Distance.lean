import Conquest.Lib.Relax

/-!
# Distance — distances of the blocks from a target

`update_distance` measures how far a target is from every block, backward along
the edges to the predecessors and to the immediate dominator. Leaving a block
costs its weight. Blocks wait in a queue, again whenever their distance
improves.
-/

namespace Conquest

open Relax

/-! ## Blocks -/

/-- The basic blocks of a design. The emitters give a block the weight 1 when an
arm begins there that is not a default, and 0 otherwise. -/
structure BlockGraph (B : Type) where
  predecessors : B → List B
  idom : B → Option B
  weight : B → Nat
  weight_le : ∀ b, weight b ≤ 1

/-- `initial_distance`. -/
def initialDistance : Nat := 0xFFFFFFF

namespace BlockGraph

variable {B : Type} (g : BlockGraph B)

/-- The edges out of a block, each at the weight of the block. -/
def backward (b : B) : List (B × Nat) :=
  (g.predecessors b ++ (g.idom b).toList).map fun it => (it, g.weight b)

theorem mem_backward {b : B} {e : B × Nat} :
    e ∈ g.backward b ↔ (e.1 ∈ g.predecessors b ∨ g.idom b = some e.1) ∧ e.2 = g.weight b := by
  obtain ⟨it, w⟩ := e
  simp only [backward, List.mem_map, List.mem_append, Option.mem_toList, Prod.mk.injEq]
  constructor
  · rintro ⟨it, hit, rfl, rfl⟩
    exact ⟨hit, rfl⟩
  · rintro ⟨hit, rfl⟩
    exact ⟨it, hit, rfl, rfl⟩

/-! ## `update_distance` -/

variable [DecidableEq B]

/-- The distances, and the blocks in `bb_queue`. -/
abbrev Flags (B : Type) := (B → Nat) × List B

/-- A neighbour gets a smaller distance and is queued. -/
def improve (updated : Nat) (s : Flags B) (it : B) : Flags B :=
  if updated < s.1 it then (Function.update s.1 it updated, s.2 ++ [it]) else s

/-- What is done with the block at the front of the queue. -/
def visit (top : B) (s : Flags B) : Flags B :=
  let currDist := s.1 top
  let updated := (currDist + g.weight top) % 2 ^ 32
  let s := (g.predecessors top).foldl (improve updated) s
  match g.idom top with
  | none => s
  | some it => improve updated s it

def updateLoop : Nat → Flags B → Option (B → Nat)
  | 0, _ => none
  | _ + 1, (distance, []) => some distance
  | fuel + 1, (distance, top :: queue) => updateLoop fuel (g.visit top (distance, queue))

/-- `update_distance` of the block `t`. -/
def updateDistance (fuel : Nat) (t : B) : Option (B → Nat) :=
  g.updateLoop fuel (Function.update (fun _ => initialDistance) t 0, [t])

variable {g}

/-- Distances are far below the range of `uint`. -/
theorem visit_eq {top : B} {s : Flags B} (h : s.1 top ≤ initialDistance) :
    g.visit top s = relax (s.1 top) (g.backward top) s := by
  have hsmall : (s.1 top + g.weight top) % 2 ^ 32 = s.1 top + g.weight top := by
    have hweight := g.weight_le top
    unfold initialDistance at h
    exact Nat.mod_eq_of_lt (by omega)
  have himprove : improve (s.1 top + g.weight top) = fun (s' : Flags B) it =>
      relaxEdge (s.1 top) s' (it, g.weight top) := rfl
  unfold visit relax backward
  dsimp only
  rw [List.foldl_map, List.foldl_append, hsmall, himprove]
  cases g.idom top <;> rfl

/-- The loop is that of relaxing, where its invariant holds. -/
theorem updateLoop_eq {t : B} {s : Flags B} (h : Inv g.backward initialDistance t s)
    (fuel : Nat) : g.updateLoop fuel s = run g.backward fuel s := by
  induction fuel generalizing s with
  | zero => rfl
  | succ fuel ih =>
      obtain ⟨distance, queue⟩ := s
      cases queue with
      | nil => rfl
      | cons top queue =>
          rw [updateLoop, run, visit_eq (s := (distance, queue)) (h.le_cap top)]
          exact ih h.step

/-- Enough fuel for any target. -/
def fuelBound (B : Type) [Fintype B] : Nat := Fintype.card B * initialDistance + 2

theorem updateDistance_eq [Fintype B] (g : BlockGraph B) (t : B) {fuel : Nat}
    (hfuel : fuelBound B ≤ fuel) :
    ∃ distance, g.updateDistance fuel t = some distance ∧
      ∀ b, (distance b : ℕ∞) = min (initialDistance : ℕ∞) (least g.backward t b) := by
  have hpos : 0 < initialDistance := by decide
  have hstart : Inv g.backward initialDistance t (start initialDistance t) := inv_start hpos t
  obtain ⟨distance, hrun, hleast⟩ := hstart.run ((size_start_le initialDistance t).trans_lt hfuel)
  exact ⟨distance, (updateLoop_eq hstart fuel).trans hrun, hleast⟩

/-- Enough fuel gives one result. -/
theorem updateDistance_fuel [Fintype B] (g : BlockGraph B) (t : B) {fuel : Nat}
    (hfuel : fuelBound B ≤ fuel) : g.updateDistance fuel t = g.updateDistance (fuelBound B) t := by
  obtain ⟨distance, hdistance, hleast⟩ := g.updateDistance_eq t le_rfl
  obtain ⟨distance', hdistance', hleast'⟩ := g.updateDistance_eq t hfuel
  rw [hdistance, hdistance', Option.some.injEq]
  funext b
  exact_mod_cast (hleast' b).trans (hleast b).symm

/-- **Least distances.** `update_distance` ends, and leaves in every block the
least total weight of a path from the target, or `initial_distance` where that is
less or there is no path. -/
theorem updateDistance_least [Fintype B] (g : BlockGraph B) (t : B) :
    ∃ distance, (∃ enough, ∀ fuel ≥ enough, g.updateDistance fuel t = some distance) ∧
      ∀ b, (distance b : ℕ∞) = min (initialDistance : ℕ∞) (least g.backward t b) := by
  obtain ⟨distance, hdistance, hleast⟩ := g.updateDistance_eq t le_rfl
  exact ⟨distance, ⟨fuelBound B, fun fuel hfuel =>
    (g.updateDistance_fuel t hfuel).trans hdistance⟩, hleast⟩

end BlockGraph

end Conquest
