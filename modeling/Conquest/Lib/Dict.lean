import Mathlib.Data.List.Nodup
import Mathlib.Data.List.Perm.Basic

/-!
# Dict — dictionaries in insertion order

Python's `dict`: the items in the order in which their keys were first set, with
no key twice. Setting a key that is there replaces its value in place, a new key
goes to the end, so reading a list of items whose keys are distinct gives that
list back, and reading one with a repeated key gives fewer items.
-/

/-- The items of a dictionary, oldest key first. -/
structure Dict (κ ν : Type*) where
  items : List (κ × ν)
  nodup : (items.map Prod.fst).Nodup

namespace Dict

variable {κ ν : Type*} [DecidableEq κ]

/-- `{}`. -/
def empty : Dict κ ν := ⟨[], List.nodup_nil⟩

/-- The items after `d[k] = v`. -/
def setIn (k : κ) (v : ν) : List (κ × ν) → List (κ × ν)
  | [] => [(k, v)]
  | e :: es => if e.1 = k then (k, v) :: es else e :: setIn k v es

theorem setIn_of_not_mem {k : κ} {v : ν} {es : List (κ × ν)}
    (h : k ∉ es.map Prod.fst) : setIn k v es = es ++ [(k, v)] := by
  induction es with
  | nil => rfl
  | cons e es ih =>
      simp only [List.map_cons, List.mem_cons, not_or] at h
      rw [setIn, if_neg (Ne.symm h.1), ih h.2, List.cons_append]

theorem keys_setIn_of_mem {k : κ} {v : ν} {es : List (κ × ν)}
    (h : k ∈ es.map Prod.fst) : (setIn k v es).map Prod.fst = es.map Prod.fst := by
  induction es with
  | nil => simp at h
  | cons e es ih =>
      rw [setIn]
      split
      · rename_i he
        simp [he]
      · rename_i he
        have hk : k ∈ es.map Prod.fst := by
          simpa [Ne.symm he] using h
        rw [List.map_cons, List.map_cons, ih hk]

theorem nodup_setIn {k : κ} {v : ν} {es : List (κ × ν)}
    (h : (es.map Prod.fst).Nodup) : ((setIn k v es).map Prod.fst).Nodup := by
  by_cases hk : k ∈ es.map Prod.fst
  · rw [keys_setIn_of_mem hk]
    exact h
  · rw [setIn_of_not_mem hk, List.map_append, List.nodup_append]
    refine ⟨h, List.nodup_singleton _, ?_⟩
    rintro a ha b hb rfl
    simp only [List.map_cons, List.map_nil, List.mem_singleton] at hb
    exact hk (hb ▸ ha)

/-- `d[k] = v`. -/
def setItem (d : Dict κ ν) (k : κ) (v : ν) : Dict κ ν :=
  ⟨setIn k v d.items, nodup_setIn d.nodup⟩

/-- `d[k]`; `none` is the `KeyError`. -/
def getItem (d : Dict κ ν) (k : κ) : Option ν :=
  (d.items.find? fun e => e.1 = k).map Prod.snd

/-- `dict(items)`, from a dictionary that has some already. -/
def update (d : Dict κ ν) (es : List (κ × ν)) : Dict κ ν :=
  es.foldl (fun d e => d.setItem e.1 e.2) d

/-- `dict(items)`. -/
def ofItems (es : List (κ × ν)) : Dict κ ν := update empty es

/-! ## Reading a list of items -/

theorem items_setItem {d : Dict κ ν} {k : κ} (v : ν) (h : k ∉ d.items.map Prod.fst) :
    (d.setItem k v).items = d.items ++ [(k, v)] := setIn_of_not_mem h

theorem length_setItem {d : Dict κ ν} {k : κ} (v : ν) (h : k ∈ d.items.map Prod.fst) :
    (d.setItem k v).items.length = d.items.length := by
  have hkeys : ((d.setItem k v).items.map Prod.fst).length = (d.items.map Prod.fst).length :=
    congrArg List.length (keys_setIn_of_mem h)
  simpa using hkeys

theorem length_update_le (d : Dict κ ν) (es : List (κ × ν)) :
    (d.update es).items.length ≤ d.items.length + es.length := by
  induction es generalizing d with
  | nil => exact Nat.le_refl _
  | cons e es ih =>
      have hstep : (d.setItem e.1 e.2).items.length ≤ d.items.length + 1 := by
        by_cases hk : e.1 ∈ d.items.map Prod.fst
        · rw [length_setItem e.2 hk]
          omega
        · rw [items_setItem e.2 hk]
          simp
      have hrest := ih (d.setItem e.1 e.2)
      rw [List.length_cons]
      exact Nat.le_trans hrest (by omega)

theorem update_cons_of_not_mem {d : Dict κ ν} {e : κ × ν} {es : List (κ × ν)}
    (h : e.1 ∉ d.items.map Prod.fst)
    (ih : ((d.setItem e.1 e.2).update es).items = (d.setItem e.1 e.2).items ++ es) :
    (d.update (e :: es)).items = d.items ++ e :: es :=
  calc (d.update (e :: es)).items = ((d.setItem e.1 e.2).update es).items := rfl
    _ = d.items ++ [e] ++ es := by rw [ih, items_setItem e.2 h]
    _ = d.items ++ e :: es := by simp

/-- If no item was lost, the items are appended as they stand. -/
theorem update_of_length {d : Dict κ ν} {es : List (κ × ν)}
    (h : (d.update es).items.length = d.items.length + es.length) :
    (d.update es).items = d.items ++ es := by
  induction es generalizing d with
  | nil => simp [update]
  | cons e es ih =>
      have hle := length_update_le (d.setItem e.1 e.2) es
      have hlen : ((d.setItem e.1 e.2).update es).items.length =
          d.items.length + es.length + 1 := h
      have hnew : e.1 ∉ d.items.map Prod.fst := by
        intro hk
        rw [length_setItem e.2 hk] at hle
        omega
      refine update_cons_of_not_mem hnew (ih ?_)
      rw [hlen, items_setItem e.2 hnew, List.length_append, List.length_singleton]
      omega

theorem update_of_nodup {d : Dict κ ν} {es : List (κ × ν)}
    (h : ((d.items ++ es).map Prod.fst).Nodup) : (d.update es).items = d.items ++ es := by
  induction es generalizing d with
  | nil => simp [update]
  | cons e es ih =>
      have hnew : e.1 ∉ d.items.map Prod.fst := by
        rw [List.map_append, List.nodup_append] at h
        exact fun hk => h.2.2 _ hk _ (by simp) rfl
      refine update_cons_of_not_mem hnew (ih ?_)
      rw [items_setItem e.2 hnew]
      simpa using h

theorem items_ofItems {es : List (κ × ν)} (h : (es.map Prod.fst).Nodup) :
    (ofItems es).items = es := update_of_nodup (d := empty) h

theorem items_ofItems_of_length {es : List (κ × ν)}
    (h : (ofItems es).items.length = es.length) : (ofItems es).items = es :=
  update_of_length (d := empty) (by rw [show empty.update es = ofItems es from rfl, h]; simp [empty])

end Dict
