import Mathlib.Algebra.BigOperators.Group.Finset.Basic
import Mathlib.Algebra.Order.BigOperators.Group.Finset

/-!
# Aging — counters that grow when they are served

Every key has a counter. A key with a least counter is served, and its counter
grows by one. As long as another key waits, the others can only be served until
their counters have passed its own.
-/

namespace Aging

variable {K : Type*} [DecidableEq K]

/-- The counters after `k` is served. -/
def raise (count : K → Nat) (k : K) : K → Nat := Function.update count k (count k + 1)

/-- How often keys of `keys` can be served before `b`. -/
def slack (keys : Finset K) (count : K → Nat) (b : K) : Nat :=
  ∑ k ∈ keys, (count b + 1 - count k)

variable {keys : Finset K} {count : K → Nat} {k b : K}

theorem raise_self (count : K → Nat) (k : K) : raise count k k = count k + 1 :=
  Function.update_self k _ count

theorem raise_of_ne (h : b ≠ k) (count : K → Nat) : raise count k b = count b :=
  Function.update_of_ne h _ count

theorem le_raise (count : K → Nat) (k b : K) : count b ≤ raise count k b := by
  by_cases h : b = k
  · rw [h, raise_self]
    exact Nat.le_succ _
  · rw [raise_of_ne h]

/-- A service of another key. -/
theorem slack_raise (hk : k ∈ keys) (hne : b ≠ k) (hle : count k ≤ count b) :
    slack keys (raise count k) b + 1 ≤ slack keys count b := by
  have hwaits := raise_of_ne hne count
  show slack keys (raise count k) b < slack keys count b
  apply Finset.sum_lt_sum
  · intro i _
    have hi := le_raise count k i
    omega
  · refine ⟨k, hk, ?_⟩
    rw [raise_self, hwaits]
    omega

end Aging
