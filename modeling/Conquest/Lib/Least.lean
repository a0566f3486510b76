import Mathlib.Data.List.Induction
import Mathlib.Order.Bounds.Basic

/-!
# Least — the first element with the least key

A scan that keeps an element and its key, and takes another one only when its
key is strictly less. It starts without an element, at a key that serves as the
bound, and ends at the first of the elements with the least key.
-/

namespace Least

variable {α β : Type*} [LinearOrder β] (key : α → β)

/-- What is kept after one more element. -/
def keep (s : Option α × β) (a : α) : Option α × β :=
  if key a < s.2 then (some a, key a) else s

/-- The first element of the list whose key is least. -/
def IsFirst (l : List α) (a : α) : Prop :=
  ∃ before after, l = before ++ a :: after ∧ (∀ b ∈ before, key a < key b) ∧
    ∀ b ∈ after, key a ≤ key b

variable {key}

theorem keep_of_lt {s : Option α × β} {a : α} (h : key a < s.2) :
    keep key s a = (some a, key a) := if_pos h

theorem keep_of_le {s : Option α × β} {a : α} (h : s.2 ≤ key a) : keep key s a = s :=
  if_neg (not_lt.mpr h)

theorem IsFirst.mem {l : List α} {a : α} (h : IsFirst key l a) : a ∈ l := by
  obtain ⟨before, after, rfl, -, -⟩ := h
  exact List.mem_append_right _ List.mem_cons_self

theorem IsFirst.le {l : List α} {a b : α} (h : IsFirst key l a) (hb : b ∈ l) :
    key a ≤ key b := by
  obtain ⟨before, after, rfl, hbefore, hafter⟩ := h
  rcases List.mem_append.mp hb with hb | hb
  · exact (hbefore b hb).le
  · rcases List.mem_cons.mp hb with rfl | hb
    · exact le_rfl
    · exact hafter b hb

/-- One more element that is not less. -/
theorem IsFirst.concat {l : List α} {a b : α} (h : IsFirst key l a) (hb : key a ≤ key b) :
    IsFirst key (l ++ [b]) a := by
  obtain ⟨before, after, rfl, hbefore, hafter⟩ := h
  refine ⟨before, after ++ [b], ?_, hbefore, ?_⟩
  · rw [List.append_assoc, List.cons_append]
  · intro c hc
    rcases List.mem_append.mp hc with hc | hc
    · exact hafter c hc
    · rw [List.mem_singleton.mp hc]
      exact hb

theorem isFirst_concat {l : List α} {a : α} (h : ∀ b ∈ l, key a < key b) :
    IsFirst key (l ++ [a]) a :=
  ⟨l, [], rfl, h, fun _ hb => absurd hb List.not_mem_nil⟩

/-- There is one first element. -/
theorem IsFirst.unique {l : List α} {a b : α} (ha : IsFirst key l a) (hb : IsFirst key l b) :
    a = b := by
  have hle := ha.le hb.mem
  have hle' := hb.le ha.mem
  obtain ⟨before, after, rfl, hbefore, -⟩ := ha
  obtain ⟨before', after', heq, hbefore', -⟩ := hb
  rcases List.append_eq_append_iff.mp heq with ⟨mid, rfl, hmid⟩ | ⟨mid, rfl, hmid⟩
  · cases mid with
    | nil => exact (List.cons.inj hmid).1
    | cons c mid =>
        obtain ⟨rfl, -⟩ := List.cons.inj hmid
        have hlt := hbefore' a (List.mem_append_right _ List.mem_cons_self)
        exact absurd hle (not_le.mpr hlt)
  · cases mid with
    | nil => exact (List.cons.inj hmid).1.symm
    | cons c mid =>
        obtain ⟨rfl, -⟩ := List.cons.inj hmid
        have hlt := hbefore b (List.mem_append_right _ List.mem_cons_self)
        exact absurd hle' (not_le.mpr hlt)

/-- **The scan.** It keeps the first element with the least key below the bound. -/
theorem foldl_keep (key : α → β) (top : β) (l : List α) :
    (∃ a, IsFirst key l a ∧ key a < top ∧ l.foldl (keep key) (none, top) = (some a, key a)) ∨
      (∀ a ∈ l, top ≤ key a) ∧ l.foldl (keep key) (none, top) = (none, top) := by
  induction l using List.reverseRecOn with
  | nil => exact .inr ⟨fun _ ha => absurd ha List.not_mem_nil, rfl⟩
  | append_singleton l b ih =>
      rw [List.foldl_append, List.foldl_cons, List.foldl_nil]
      rcases ih with ⟨a, hfirst, htop, heq⟩ | ⟨hnone, heq⟩
      · rw [heq]
        rcases lt_or_ge (key b) (key a) with hlt | hge
        · refine .inl ⟨b, isFirst_concat fun c hc => ?_, hlt.trans htop, keep_of_lt hlt⟩
          exact hlt.trans_le (hfirst.le hc)
        · exact .inl ⟨a, hfirst.concat hge, htop, keep_of_le hge⟩
      · rw [heq]
        rcases lt_or_ge (key b) top with hlt | hge
        · refine .inl ⟨b, isFirst_concat fun c hc => ?_, hlt, keep_of_lt hlt⟩
          exact hlt.trans_le (hnone c hc)
        · refine .inr ⟨fun a ha => ?_, keep_of_le hge⟩
          rcases List.mem_append.mp ha with ha | ha
          · exact hnone a ha
          · rw [List.mem_singleton.mp ha]
            exact hge

/-- The key that the scan ends at, where one is below the bound. -/
theorem isLeast_foldl_keep {top : β} {l : List α} (h : ∃ a ∈ l, key a < top) :
    IsLeast {k | ∃ a ∈ l, key a = k} (l.foldl (keep key) (none, top)).2 := by
  rcases foldl_keep key top l with ⟨a, hfirst, -, heq⟩ | ⟨hnone, -⟩
  · rw [heq]
    refine ⟨⟨a, hfirst.mem, rfl⟩, ?_⟩
    rintro k ⟨b, hb, rfl⟩
    exact hfirst.le hb
  · obtain ⟨a, ha, hlt⟩ := h
    exact absurd hlt (not_lt.mpr (hnone a ha))

/-- The first element with the least key is the one kept. -/
theorem foldl_keep_eq_some_iff {top : β} {l : List α} {a : α} :
    (l.foldl (keep key) (none, top)).1 = some a ↔ IsFirst key l a ∧ key a < top := by
  rcases foldl_keep key top l with ⟨b, hfirst, htop, heq⟩ | ⟨hnone, heq⟩
  · rw [heq]
    constructor
    · intro h
      obtain rfl := Option.some.inj h
      exact ⟨hfirst, htop⟩
    · rintro ⟨ha, -⟩
      exact congrArg some (hfirst.unique ha)
  · rw [heq]
    constructor
    · intro h
      cases h
    · rintro ⟨ha, hlt⟩
      exact absurd hlt (not_lt.mpr (hnone a ha.mem))

end Least
