import Mathlib.Data.List.Basic
import Mathlib.Data.List.Infix
import Mathlib.Data.Nat.Digits.Defs
import Mathlib.Data.Nat.ModEq

/-!
# Text — searching and splitting lists

The C library's text primitives over lists of an arbitrary alphabet:
`find` is `std::string::find`, `tokens` is the sequence of pieces `strtok`
returns for a one-character delimiter set, `spaced` is the inverse printing,
every token followed by one delimiter, `scanTo` and `scanBack` are the loops
that move an index to the next or the previous occurrence of a symbol, and
`replaceAt` is `std::string::replace`.
-/

namespace Text

variable {α : Type*}

/-- A property of all symbols of a text is decided along the text, also where the
alphabet is finite. -/
instance (priority := 1100) decidableForallMem (p : α → Prop) [DecidablePred p] (l : List α) :
    Decidable (∀ c ∈ l, p c) := List.decidableBAll p l

variable [DecidableEq α]

/-! ## Substring search -/

/-- `std::string::find`: the least position at which `pat` occurs. -/
def find (pat : List α) : List α → Option Nat
  | [] => if pat = [] then some 0 else none
  | c :: cs => if pat <+: c :: cs then some 0 else (find pat cs).map (· + 1)

theorem find_eq_none_iff {pat l : List α} : find pat l = none ↔ ¬ pat <:+: l := by
  induction l with
  | nil => simp [find]
  | cons c cs ih =>
      rw [find, List.infix_cons_iff]
      split
      · rename_i h
        simp [h]
      · rename_i h
        simp [h, ih]

theorem find_isSome_iff {pat l : List α} : (find pat l).isSome ↔ pat <:+: l := by
  rw [← not_iff_not, Bool.not_eq_true, Option.isSome_eq_false_iff,
    Option.isNone_iff_eq_none, find_eq_none_iff]

/-- Cutting a list around the occurrence that was found. -/
theorem take_append_drop_of_find {pat l : List α} {i : Nat}
    (h : find pat l = some i) : l.take i ++ pat ++ l.drop (i + pat.length) = l := by
  induction l generalizing i with
  | nil =>
      by_cases hp : pat = []
      · subst hp
        simp
      · simp [find, hp] at h
  | cons c cs ih =>
      rw [find] at h
      split at h
      · rename_i hpre
        cases h
        obtain ⟨t, ht⟩ := hpre
        rw [← ht]
        simp
      · obtain ⟨j, hj, rfl⟩ := Option.map_eq_some_iff.mp h
        rw [List.take_succ_cons, show j + 1 + pat.length = (j + pat.length) + 1 by omega,
          List.drop_succ_cons, List.cons_append, List.cons_append, ih hj]

/-! ## Splitting into tokens -/

/-- The successive results of `strtok` for the delimiter `sep`: the maximal
non-empty pieces free of it. -/
def tokens (sep : α) (l : List α) : List (List α) :=
  (l.splitOn sep).filter (fun t => !t.isEmpty)

/-- A list of tokens printed with a delimiter after each of them. -/
def spaced (sep : α) : List (List α) → List α
  | [] => []
  | t :: ts => t ++ sep :: spaced sep ts

theorem not_mem_of_mem_splitOn {sep : α} {l t : List α} (h : t ∈ l.splitOn sep) :
    sep ∉ t := by
  induction l generalizing t with
  | nil =>
      simp only [List.splitOn_nil, List.mem_singleton] at h
      simp [h]
  | cons c cs ih =>
      rw [List.splitOn_cons_eq_if_modifyHead] at h
      by_cases hc : c = sep
      · simp only [hc, beq_self_eq_true, if_true, List.mem_cons] at h
        rcases h with rfl | h
        · simp
        · exact ih h
      · simp only [beq_eq_false_iff_ne.mpr hc, Bool.false_eq_true, if_false] at h
        cases hs : cs.splitOn sep with
        | nil => simp [hs] at h
        | cons t₀ ts =>
            rw [hs, List.modifyHead_cons, List.mem_cons] at h
            rcases h with rfl | h
            · simp [Ne.symm hc, ih (t := t₀) (by simp [hs])]
            · exact ih (by simp [hs, h])

omit [DecidableEq α] in
theorem infix_intercalate {x : α} {ts : List (List α)} {t : List α} (h : t ∈ ts) :
    t <:+: [x].intercalate ts := by
  induction ts with
  | nil => simp at h
  | cons u us ih =>
      cases us with
      | nil =>
          simp only [List.mem_singleton] at h
          simp [h]
      | cons v vs =>
          rw [List.intercalate_cons_cons]
          rcases List.mem_cons.mp h with rfl | h
          · exact (List.prefix_append _ _).isInfix.trans (List.prefix_append _ _).isInfix
          · exact (ih h).trans (List.suffix_append _ _).isInfix

theorem mem_tokens {sep : α} {l t : List α} (h : t ∈ tokens sep l) :
    t ≠ [] ∧ sep ∉ t ∧ t <:+: l := by
  simp only [tokens, List.mem_filter, Bool.not_eq_true', List.isEmpty_eq_false_iff] at h
  refine ⟨h.2, not_mem_of_mem_splitOn h.1, ?_⟩
  have hjoin : [sep].intercalate (l.splitOn sep) = l := List.intercalate_splitOn sep
  exact hjoin ▸ infix_intercalate h.1

theorem tokens_append_cons {sep : α} {t : List α} (hne : t ≠ []) (hsep : sep ∉ t)
    (rest : List α) : tokens sep (t ++ sep :: rest) = t :: tokens sep rest := by
  simp [tokens, List.splitOn_append_cons_self_of_not_mem hsep, hne]

/-- Splitting what `spaced` printed gives the tokens back. -/
theorem tokens_spaced {sep : α} {ts : List (List α)}
    (h : ∀ t ∈ ts, t ≠ [] ∧ sep ∉ t) : tokens sep (spaced sep ts) = ts := by
  induction ts with
  | nil => simp [spaced, tokens]
  | cons t ts ih =>
      obtain ⟨hne, hsep⟩ := h t (by simp)
      rw [spaced, tokens_append_cons hne hsep, ih (fun u hu => h u (by simp [hu]))]

/-! ## Searching between separators -/

section Between

omit [DecidableEq α]

variable {pat l r : List α} {c : α}

/-- A pattern without the separator at the front of a text ends before it. -/
theorem prefix_append_sep (hc : c ∉ pat) (h : pat <+: l ++ c :: r) : pat <+: l := by
  by_cases hlength : pat.length ≤ l.length
  · exact List.prefix_of_prefix_length_le h (List.prefix_append _ _) hlength
  · have hl : l ++ [c] <+: l ++ c :: r := by
      rw [List.prefix_append_right_inj]
      exact List.cons_prefix_cons.mpr ⟨rfl, List.nil_prefix⟩
    have hpat : l ++ [c] <+: pat := by
      refine List.prefix_of_prefix_length_le hl h ?_
      rw [List.length_append, List.length_singleton]
      omega
    exact absurd (hpat.mem (List.mem_append_right l List.mem_cons_self)) hc

/-- A pattern without the separator occurs on one side of it. -/
theorem infix_append_sep (hc : c ∉ pat) (hne : pat ≠ []) :
    pat <:+: l ++ c :: r ↔ pat <:+: l ∨ pat <:+: r := by
  induction l with
  | nil =>
      have hhead : ¬ pat <+: c :: r := by
        intro h
        exact hne (List.prefix_nil.mp (prefix_append_sep (l := []) hc h))
      rw [List.nil_append, List.infix_cons_iff, List.infix_nil]
      simp [hhead, hne]
  | cons x l ih =>
      have hhead : pat <+: x :: (l ++ c :: r) ↔ pat <+: x :: l := by
        constructor
        · intro h
          exact prefix_append_sep (l := x :: l) hc h
        · intro h
          exact h.trans (List.prefix_append (x :: l) (c :: r))
      rw [List.cons_append, List.infix_cons_iff, List.infix_cons_iff, ih, hhead, or_assoc]

theorem infix_intercalate_iff (hc : c ∉ pat) (hne : pat ≠ []) {ts : List (List α)} :
    pat <:+: [c].intercalate ts ↔ ∃ t ∈ ts, pat <:+: t := by
  constructor
  · intro h
    induction ts with
    | nil => exact absurd (List.infix_nil.mp h) hne
    | cons t ts ih =>
        cases ts with
        | nil =>
            rw [List.intercalate_singleton] at h
            exact ⟨t, List.mem_cons_self, h⟩
        | cons u us =>
            rw [List.intercalate_cons_cons, List.append_assoc, List.singleton_append,
              infix_append_sep hc hne] at h
            rcases h with h | h
            · exact ⟨t, List.mem_cons_self, h⟩
            · obtain ⟨v, hv, h⟩ := ih h
              exact ⟨v, List.mem_cons_of_mem _ hv, h⟩
  · rintro ⟨t, ht, h⟩
    exact h.trans (infix_intercalate ht)

end Between

/-! ## Scanning by index -/

/-- `while(l[pos] != c) pos++`; `none` when the loop runs off the list. -/
def scanTo (c : α) (l : List α) (pos : Nat) : Option Nat :=
  ((l.drop pos).findIdx? (fun x => decide (x = c))).map (pos + ·)

/-- `while(l[pos] != c) pos--`; `none` when the loop runs off the list. -/
def scanBack (c : α) (l : List α) : Nat → Option Nat
  | 0 => if l[0]? = some c then some 0 else none
  | pos + 1 => if l[pos + 1]? = some c then some (pos + 1) else scanBack c l pos

/-- The next occurrence of `c` after a stretch `w` free of it. -/
theorem scanTo_append {c : α} {l pre w rest : List α} {pos : Nat}
    (hl : l = pre ++ (w ++ c :: rest)) (hpos : pre.length = pos) (h : c ∉ w) :
    scanTo c l pos = some (pos + w.length) := by
  subst hl hpos
  have hw : w.findIdx? (fun x => decide (x = c)) = none := by
    rw [List.findIdx?_eq_none_iff]
    intro x hx
    exact decide_eq_false fun hxc => h (hxc ▸ hx)
  simp [scanTo, List.findIdx?_append, hw, List.findIdx?_cons]

theorem scanBack_of_getElem? {c : α} {l : List α} {pos : Nat} (h : l[pos]? = some c) :
    scanBack c l pos = some pos := by
  cases pos <;> simp [scanBack, h]

/-- The previous occurrence of `c` from the end of a stretch `w` free of it. -/
theorem scanBack_append {c : α} {l pre w rest : List α} {pos : Nat}
    (hl : l = pre ++ c :: (w ++ rest)) (hpos : pre.length + w.length = pos) (h : c ∉ w) :
    scanBack c l pos = some pre.length := by
  subst hl hpos
  suffices hback : ∀ d ≤ w.length,
      scanBack c (pre ++ c :: (w ++ rest)) (pre.length + d) = some pre.length from
    hback w.length le_rfl
  intro d hd
  induction d with
  | zero => exact scanBack_of_getElem? (by simp)
  | succ d ih =>
      have hget : (pre ++ c :: (w ++ rest))[pre.length + d + 1]? = w[d]? := by
        rw [List.getElem?_append_right (by omega),
          show pre.length + d + 1 - pre.length = d + 1 by omega,
          List.getElem?_cons_succ, List.getElem?_append_left (by omega)]
      have hne : (pre ++ c :: (w ++ rest))[pre.length + d + 1]? ≠ some c := by
        rw [hget]
        exact fun hc => h (List.mem_of_getElem? hc)
      rw [← Nat.add_assoc, scanBack, if_neg hne]
      exact ih (by omega)

/-! ## Replacing a stretch -/

/-- `std::string::replace(pos, n, v)`. -/
def replaceAt (pos n : Nat) (v l : List α) : List α :=
  l.take pos ++ v ++ l.drop (pos + n)

omit [DecidableEq α]

theorem length_replaceAt {pos n : Nat} {v l : List α} (hv : v.length = n)
    (hl : pos + n ≤ l.length) : (replaceAt pos n v l).length = l.length := by
  simp only [replaceAt, List.length_append, List.length_take, List.length_drop]
  omega

/-- Counted from the other end, a replacement is a replacement. -/
theorem reverse_replaceAt {pos n : Nat} (v : List α) {l : List α}
    (hl : pos + n ≤ l.length) :
    (replaceAt pos n v l).reverse =
      replaceAt (l.length - (pos + n)) n v.reverse l.reverse := by
  have hpos : l.length - (pos + n) + n = l.length - pos := by omega
  simp only [replaceAt, List.reverse_append, List.take_reverse, List.drop_reverse, hpos,
    List.append_assoc, Nat.sub_sub_self hl, Nat.sub_sub_self (show pos ≤ l.length by omega)]

theorem getElem?_replaceAt_outside {pos n i : Nat} {v l : List α} (hv : v.length = n)
    (hl : pos + n ≤ l.length) (hi : i < pos ∨ pos + n ≤ i) :
    (replaceAt pos n v l)[i]? = l[i]? := by
  have htake : (l.take pos).length = pos := by
    rw [List.length_take]
    omega
  rw [replaceAt, List.append_assoc]
  rcases hi with hi | hi
  · rw [List.getElem?_append_left (by omega), List.getElem?_take_of_lt hi]
  · rw [List.getElem?_append_right (by omega), List.getElem?_append_right (by omega),
      List.getElem?_drop, htake, hv]
    congr 1
    omega

/-! ## Decimal numerals -/

/-- A line of a text file, as `getline` returns it. -/
abbrev Line := List Char

/-- `std::to_string` of an unsigned value. -/
def toDec (n : Nat) : Line := Nat.toDigits 10 n

@[simp] theorem toDec_ne_nil (n : Nat) : toDec n ≠ [] := Nat.toDigits_ne_nil

theorem isDigit_of_mem_toDec {c : Char} {n : Nat} (h : c ∈ toDec n) : c.isDigit :=
  Nat.isDigit_of_mem_toDigits (by omega) (by omega) h

theorem toDec_free {c : Char} (hc : c.isDigit = false) (n : Nat) : c ∉ toDec n :=
  fun h => by simp [isDigit_of_mem_toDec h] at hc

/-- The loop `k = k*10 + l[pos]-'0'` in 32-bit unsigned arithmetic, up to a NUL
or the end of the line. -/
def parseDec : Line → Nat → Nat
  | [], k => k
  | c :: cs, k =>
      if c = '\x00' then k
      else parseDec cs ((k * 10 + c.toNat + 2 ^ 32 - '0'.toNat) % 2 ^ 32)

theorem parseDec_digits {ds : Line} (h : ∀ c ∈ ds, c.isDigit) (rest : Line) (k : Nat) :
    parseDec (ds ++ '\x00' :: rest) (k % 2 ^ 32) = Nat.ofDigitChars 10 ds k % 2 ^ 32 := by
  induction ds generalizing k with
  | nil => simp [parseDec]
  | cons c ds ih =>
      have hdigit : c.isDigit := h c (by simp)
      have hlow : '0'.toNat ≤ c.toNat := by
        simp only [Char.isDigit, Bool.and_eq_true, decide_eq_true_eq] at hdigit
        exact hdigit.1
      have hne : c ≠ '\x00' := by
        rintro rfl
        exact absurd hdigit (by decide)
      have hstep : (k % 2 ^ 32 * 10 + c.toNat + 2 ^ 32 - '0'.toNat) % 2 ^ 32 =
          (10 * k + (c.toNat - '0'.toNat)) % 2 ^ 32 := by
        omega
      rw [List.cons_append, parseDec, if_neg hne, Nat.ofDigitChars_cons, hstep]
      exact ih (fun d hd => h d (by simp [hd])) _

/-- Reading back what `to_string` printed. -/
theorem parseDec_toDec {k : Nat} (hk : k < 2 ^ 32) (rest : Line) :
    parseDec (toDec k ++ '\x00' :: rest) 0 = k := by
  have h := parseDec_digits (fun c (hc : c ∈ toDec k) => isDigit_of_mem_toDec hc) rest 0
  rw [Nat.zero_mod] at h
  rw [h, toDec, Nat.ofDigitChars_ten_toDigits, Nat.mod_eq_of_lt hk]

end Text
