import Conquest.Lib.Text

/-!
# PyText — how Python reads a text file

The primitives a line reader uses: iterating over an open file, `str.strip`,
`str.split` at one character, and `int`, with `showInt`, the printing of a
signed integer that `int` reads back. `Plain` texts, without blanks and colons,
are the tokens that such a reader sees unchanged.
-/

namespace Text

/-- The ASCII characters of `str.isspace`: tab to carriage return, the four
separators, and the blank. -/
def isSpace (c : Char) : Bool :=
  9 ≤ c.toNat && c.toNat ≤ 13 || 28 ≤ c.toNat && c.toNat ≤ 32

/-- `str.strip()`. -/
def strip (l : Line) : Line := ((l.dropWhile isSpace).reverse.dropWhile isSpace).reverse

/-- The lines `for line in file` yields, less their terminators; a last line
without one counts. -/
def fileLines (text : Line) : List Line :=
  let parts := text.splitOn '\n'
  if parts.getLast? = some [] then parts.dropLast else parts

/-- The digits of a numeral after its sign. -/
def digits? (l : Line) : Option Nat :=
  if l ≠ [] ∧ ∀ c ∈ l, c.isDigit then some (Nat.ofDigitChars 10 l 0) else none

/-- `int(s)` for a decimal numeral with an optional sign; `none` is the
`ValueError`. -/
def int (l : Line) : Option Int :=
  match strip l with
  | '-' :: ds => (digits? ds).map fun n : Nat => -(n : Int)
  | '+' :: ds => (digits? ds).map fun n : Nat => (n : Int)
  | ds => (digits? ds).map fun n : Nat => (n : Int)

/-- A signed integer as `operator<<` prints it. -/
def showInt (i : Int) : Line :=
  if i < 0 then '-' :: toDec i.natAbs else toDec i.natAbs

/-- A text without blanks and colons. -/
def Plain (l : Line) : Prop := ∀ c ∈ l, isSpace c = false ∧ c ≠ ':'

instance (l : Line) : Decidable (Plain l) := decidableForallMem _ l

/-! ## Plain texts -/

theorem plain_nil : Plain [] := by simp [Plain]

theorem Plain.append {l m : Line} (hl : Plain l) (hm : Plain m) : Plain (l ++ m) := by
  intro c hc
  rcases List.mem_append.mp hc with hc | hc
  · exact hl c hc
  · exact hm c hc

theorem Plain.not_mem_colon {l : Line} (h : Plain l) : ':' ∉ l := fun hc => (h _ hc).2 rfl

theorem Plain.not_mem_newline {l : Line} (h : Plain l) : '\n' ∉ l :=
  fun hc => absurd (h _ hc).1 (by decide)

theorem isSpace_of_isDigit {c : Char} (h : c.isDigit) : isSpace c = false ∧ c ≠ ':' := by
  simp only [Char.isDigit, Bool.and_eq_true, decide_eq_true_eq] at h
  have hlow : 48 ≤ c.toNat := h.1
  refine ⟨?_, ?_⟩
  · simp only [isSpace, Bool.or_eq_false_iff, Bool.and_eq_false_iff, decide_eq_false_iff_not]
    omega
  · rintro rfl
    exact absurd h.2 (by decide)

theorem plain_toDec (n : Nat) : Plain (toDec n) := fun _ hc =>
  isSpace_of_isDigit (isDigit_of_mem_toDec hc)

theorem plain_showInt (i : Int) : Plain (showInt i) := by
  unfold showInt
  split
  · intro c hc
    rcases List.mem_cons.mp hc with rfl | hc
    · decide
    · exact plain_toDec _ c hc
  · exact plain_toDec _

/-! ## Stripping -/

theorem dropWhile_of_head {l : Line} (h : ∀ c ∈ l.head?, isSpace c = false) :
    l.dropWhile isSpace = l := by
  cases l with
  | nil => rfl
  | cons c l => simp [h c (by simp)]

/-- A text without a blank at either end. -/
theorem strip_of_ends {l : Line} (hhead : ∀ c ∈ l.head?, isSpace c = false)
    (hlast : ∀ c ∈ l.getLast?, isSpace c = false) : strip l = l := by
  have hrev : ∀ c ∈ l.reverse.head?, isSpace c = false := by
    rwa [List.head?_reverse]
  rw [strip, dropWhile_of_head hhead, dropWhile_of_head hrev, List.reverse_reverse]

theorem Plain.strip {l : Line} (h : Plain l) : strip l = l :=
  strip_of_ends (fun c hc => (h c (List.mem_of_mem_head? hc)).1)
    fun c hc => (h c (List.mem_of_mem_getLast? hc)).1

theorem strip_space_cons {c : Char} (hc : isSpace c) (l : Line) :
    Text.strip (c :: l) = Text.strip l := by
  rw [Text.strip, List.dropWhile_cons, if_pos hc, Text.strip]

/-! ## Lines -/

theorem fileLines_nil : fileLines [] = [] := rfl

theorem fileLines_of_no_newline {l : Line} (hne : l ≠ []) (h : '\n' ∉ l) :
    fileLines l = [l] := by
  simp [fileLines, List.splitOn_eq_singleton h, hne]

theorem fileLines_append {l : Line} (h : '\n' ∉ l) (rest : Line) :
    fileLines (l ++ '\n' :: rest) = l :: fileLines rest := by
  obtain ⟨p, ps, hparts⟩ := List.exists_cons_of_ne_nil (List.splitOn_ne_nil '\n' rest)
  have hsplit : (l ++ '\n' :: rest).splitOn '\n' = l :: p :: ps := by
    rw [List.splitOn_append_cons_self_of_not_mem h, hparts]
  simp only [fileLines, hsplit, hparts, List.getLast?_cons_cons, List.dropLast_cons_cons]
  split <;> rfl

/-! ## Numerals -/

theorem digits?_toDec (n : Nat) : digits? (toDec n) = some n := by
  rw [digits?, if_pos ⟨toDec_ne_nil n, fun c hc => isDigit_of_mem_toDec hc⟩, toDec,
    Nat.ofDigitChars_ten_toDigits]

theorem showInt_ne_nil (i : Int) : showInt i ≠ [] := by
  unfold showInt
  split
  · simp
  · exact toDec_ne_nil _

/-- A numeral without a sign. -/
theorem int_toDec (n : Nat) : int (toDec n) = some (n : Int) := by
  obtain ⟨d, ds, hd⟩ := List.exists_cons_of_ne_nil (toDec_ne_nil n)
  have hdigit : d.isDigit := isDigit_of_mem_toDec (n := n) (by simp [hd])
  have hdigits := digits?_toDec n
  unfold int
  rw [(plain_toDec n).strip]
  rw [hd] at hdigits ⊢
  split
  · simp_all
  · simp_all
  · simp [hdigits]

/-- `int` reads back what was printed. -/
theorem int_showInt (i : Int) : int (showInt i) = some i := by
  by_cases hi : i < 0
  · have hshow : showInt i = '-' :: toDec i.natAbs := if_pos hi
    have hstrip : strip (showInt i) = '-' :: toDec i.natAbs := by
      rw [(plain_showInt i).strip, hshow]
    rw [int, hstrip]
    show (digits? (toDec i.natAbs)).map (fun n : Nat => -(n : Int)) = some i
    rw [digits?_toDec, Option.map_some, Option.some.injEq]
    omega
  · rw [showInt, if_neg hi, int_toDec, Option.some.injEq]
    omega

end Text
