import Mathlib.Data.Set.Basic
import Mathlib.Logic.Relation
import Mathlib.Order.Nat

/-!
# Dominance — vertices that no path can avoid

A path is given with its vertices. A vertex dominates another one when it lies on
every path to it, which holds when the other one is in a region that is entered
from it only.
-/

namespace Dominance

variable {V : Type*} {edge edge' : V → V → Prop} {s u v d : V}

/-- A path from `s`, with its vertices. -/
inductive Path (edge : V → V → Prop) (s : V) : V → List V → Prop
  | start : Path edge s s [s]
  | step {u v : V} {p : List V} (h : Path edge s u p) (he : edge u v) :
      Path edge s v (p ++ [v])

/-- Every path from `s` to `v` passes through `d`. -/
def Dominates (edge : V → V → Prop) (s d v : V) : Prop :=
  ∀ p, Path edge s v p → d ∈ p

theorem Path.mem_last {p : List V} (h : Path edge s v p) : v ∈ p := by
  cases h with
  | start => exact List.mem_singleton_self _
  | step _ _ => exact List.mem_append_right _ (List.mem_singleton_self _)

/-- What is reached is reached along a path. -/
theorem exists_path (h : Relation.ReflTransGen edge s v) : ∃ p, Path edge s v p := by
  induction h with
  | refl => exact ⟨[s], .start⟩
  | tail _ he ih =>
      obtain ⟨p, hp⟩ := ih
      exact ⟨_, hp.step he⟩

/-- **Regions.** A region without the start that is entered from `d` only is
dominated by `d`. -/
theorem dominates_of_region {R : Set V} (hs : s ∉ R)
    (hclosed : ∀ v ∈ R, ∀ u, edge u v → u ∈ R ∨ u = d) (hv : v ∈ R) :
    Dominates edge s d v := by
  intro p hp
  induction hp with
  | start => exact absurd hv hs
  | step h he ih =>
      rcases hclosed _ hv _ he with hu | rfl
      · exact List.mem_append_left _ (ih hu)
      · exact List.mem_append_left _ h.mem_last

/-- Steps that go down to `e` and stop there only reach it. -/
theorem reaches_of_lt {parent : ℕ → Option ℕ} {e n : ℕ}
    (h : ∀ b, e < b → b < n → ∃ d, parent b = some d ∧ e ≤ d ∧ d < b) {b : ℕ} (hb : e ≤ b)
    (hn : b < n) : Relation.ReflTransGen (fun b d => parent b = some d) b e := by
  induction b using Nat.strong_induction_on with
  | _ b ih =>
      rcases Nat.eq_or_lt_of_le hb with rfl | hlt
      · exact .refl
      · obtain ⟨d, hd, hed, hdb⟩ := h b hlt hn
        exact .head hd (ih d hdb hed (hdb.trans hn))

end Dominance
