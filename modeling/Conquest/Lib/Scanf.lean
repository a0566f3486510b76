import Mathlib.Data.List.TakeWhile
import Conquest.Lib.Text

/-!
# Scanf — formatted input by `fscanf`

A format is a list of directives, each of which takes characters from the front
of a text. A directive that does not match ends the call and leaves the text
where it stopped: `%u` has then skipped blanks and taken a sign. To a format whose
literal characters follow a blank, a text is a list of words.
-/

namespace Scanf

open Text

/-- `isspace` of the C locale. -/
def isBlank (c : Char) : Bool := c = ' ' || 9 ≤ c.toNat && c.toNat ≤ 13

def isSign (c : Char) : Bool := c = '+' || c = '-'

/-! ## Numbers -/

/-- The text after a sign. -/
def afterSign : Line → Line
  | [] => []
  | c :: s => if isSign c then s else c :: s

/-- The digits that `%u` takes. -/
def digits (s : Line) : Line := (afterSign s).takeWhile Char.isDigit

/-- The text after the sign and the digits. -/
def afterNumber (s : Line) : Line := (afterSign s).dropWhile Char.isDigit

/-- `strtoul`: at most the greatest `unsigned long`, and negated in its arithmetic. -/
def strtoul (s : Line) : Nat :=
  let n := Nat.ofDigitChars 10 (digits s) 0
  if 2 ^ 64 ≤ n then 2 ^ 64 - 1
  else if s.head? = some '-' then (2 ^ 64 - n) % 2 ^ 64
  else n

/-- The `unsigned int` of `%u`; there is none without a digit. -/
def number (s : Line) : Option (BitVec 32) :=
  if digits s = [] then none else some (BitVec.ofNat 32 (strtoul s))

section Number

variable {s : Line}

theorem afterSign_of_not_isSign {c : Char} (hc : isSign c = false) : afterSign (c :: s) = c :: s := by
  simp [afterSign, hc]

theorem isSign_eq_false {c : Char} (hplus : c ≠ '+') (hminus : c ≠ '-') : isSign c = false := by
  simp [isSign, hplus, hminus]

theorem isSign_of_isDigit {c : Char} (h : c.isDigit) : isSign c = false :=
  isSign_eq_false (by rintro rfl; exact absurd h (by decide))
    (by rintro rfl; exact absurd h (by decide))

theorem afterSign_digits (h : ∀ c ∈ s, c.isDigit) : afterSign s = s := by
  cases s with
  | nil => rfl
  | cons c s => exact afterSign_of_not_isSign (isSign_of_isDigit (h c List.mem_cons_self))

theorem digits_digits (h : ∀ c ∈ s, c.isDigit) : digits s = s := by
  rw [digits, afterSign_digits h, List.takeWhile_eq_self_iff.mpr h]

theorem afterNumber_digits (h : ∀ c ∈ s, c.isDigit) : afterNumber s = [] := by
  rw [afterNumber, afterSign_digits h, List.dropWhile_eq_nil_iff.mpr h]

/-- The number of digits alone. -/
theorem number_digits (hne : s ≠ []) (h : ∀ c ∈ s, c.isDigit) :
    number s = some (BitVec.ofNat 32 (min (Nat.ofDigitChars 10 s 0) (2 ^ 64 - 1))) := by
  have hsign : s.head? ≠ some '-' := by
    intro hhead
    exact absurd (h _ (List.mem_of_head? hhead)) (by decide)
  rw [number, if_neg (by rwa [digits_digits h]), strtoul, digits_digits h, if_neg hsign]
  split
  · rename_i hle
    rw [min_eq_right (by omega)]
  · rename_i hlt
    rw [min_eq_left (by omega)]

/-- Reading back what `%u` printed. -/
theorem number_toDec (n : BitVec 32) : number (toDec n.toNat) = some n := by
  rw [number_digits (toDec_ne_nil _) (fun c hc => isDigit_of_mem_toDec hc), toDec,
    Nat.ofDigitChars_ten_toDigits, min_eq_left (by omega), BitVec.ofNat_toNat, BitVec.setWidth_eq]

theorem mem_of_mem_afterNumber {c : Char} (hc : c ∈ afterNumber s) : c ∈ s := by
  have hmem := (List.dropWhile_suffix _).mem hc
  cases s with
  | nil => exact hmem
  | cons d s =>
      rw [afterSign] at hmem
      split at hmem
      · exact List.mem_cons_of_mem d hmem
      · exact hmem

theorem afterNumber_toDec (n : Nat) : afterNumber (toDec n) = [] :=
  afterNumber_digits fun _ hc => isDigit_of_mem_toDec hc

end Number

/-! ## Directives -/

inductive Directive where
  | string
  | unsigned
  | space
  | char (c : Char)
  deriving DecidableEq, Repr

/-- What is stored through one of the pointers. -/
inductive Field where
  | string (word : Line)
  | unsigned (value : BitVec 32)
  deriving DecidableEq, Repr

def skipSpace (s : Line) : Line := s.dropWhile isBlank

/-- `fscanf`: the fields that it stores, and the text it leaves. -/
def scanf : List Directive → Line → List Field × Line
  | [], s => ([], s)
  | .string :: format, s =>
      let word := (skipSpace s).takeWhile fun c => !isBlank c
      if word = [] then ([], skipSpace s)
      else
        let r := scanf format ((skipSpace s).dropWhile fun c => !isBlank c)
        (.string word :: r.1, r.2)
  | .unsigned :: format, s =>
      match number (skipSpace s) with
      | none => ([], afterNumber (skipSpace s))
      | some value =>
          let r := scanf format (afterNumber (skipSpace s))
          (.unsigned value :: r.1, r.2)
  | .space :: format, s => scanf format (skipSpace s)
  | .char c :: format, s =>
      match s with
      | [] => ([], [])
      | d :: s => if d = c then scanf format s else ([], d :: s)

/-! ## Words -/

/-- The words of a text. -/
def words (s : Line) : List Line := (s.splitOnP isBlank).filter fun w => !w.isEmpty

/-- Before the words, a word that may be empty. -/
def pushWord (w : Line) (ws : List Line) : List Line := if w = [] then ws else w :: ws

/-- A text that does not go on with the word before it. -/
def Ends (s : Line) : Prop := ∀ c ∈ s.head?, isBlank c = true

/-- `scanf` of the words of a text. -/
def scanWords : List Directive → List Line → List Field × List Line
  | [], ws => ([], ws)
  | .string :: format, ws =>
      match ws with
      | [] => ([], [])
      | w :: ws =>
          let r := scanWords format ws
          (.string w :: r.1, r.2)
  | .unsigned :: format, ws =>
      match ws with
      | [] => ([], [])
      | w :: ws =>
          match number w with
          | none => ([], pushWord (afterNumber w) ws)
          | some value =>
              let r := scanWords format (pushWord (afterNumber w) ws)
              (.unsigned value :: r.1, r.2)
  | .space :: format, ws => scanWords format ws
  | .char c :: format, ws =>
      match ws with
      | (d :: w) :: ws => if d = c then scanWords format (pushWord w ws) else ([], (d :: w) :: ws)
      | ws => ([], ws)

/-- The literal characters of a format follow a blank. -/
def Spaced : List Directive → Prop
  | .char _ :: _ => False
  | .space :: .char _ :: format => Spaced format
  | _ :: format => Spaced format
  | [] => True

section Words

theorem words_nil : words [] = [] := rfl

theorem words_append_blank {c : Char} (hc : isBlank c = true) (s t : Line) :
    words (s ++ c :: t) = words s ++ words t := by
  rw [words, List.splitOnP_append_cons s t hc, List.filter_append]
  rfl

theorem words_blank {c : Char} (hc : isBlank c = true) (s : Line) : words (c :: s) = words s :=
  words_append_blank hc [] s

theorem words_word {w : Line} (hne : w ≠ []) (hw : ∀ c ∈ w, isBlank c = false) :
    words w = [w] := by
  rw [words, List.splitOnP_eq_singleton hw, List.filter_cons_of_pos]
  · rfl
  · simpa using hne

theorem words_append {w s : Line} (hw : ∀ c ∈ w, isBlank c = false) (hs : Ends s) :
    words (w ++ s) = pushWord w (words s) := by
  by_cases hne : w = []
  · rw [hne, pushWord, if_pos rfl, List.nil_append]
  · rw [pushWord, if_neg hne]
    cases s with
    | nil => rw [List.append_nil, words_word hne hw, words_nil]
    | cons c s =>
        have hc : isBlank c = true := hs c rfl
        rw [words_append_blank hc, words_blank hc, words_word hne hw, List.singleton_append]

/-- A word that a blank ends. -/
theorem words_cons {w : Line} (hne : w ≠ []) (hw : ∀ c ∈ w, isBlank c = false) {c : Char}
    (hc : isBlank c = true) (s : Line) : words (w ++ c :: s) = w :: words s := by
  rw [words_append_blank hc, words_word hne hw, List.singleton_append]

theorem words_blanks (n : Nat) (s : Line) : words (List.replicate n ' ' ++ s) = words s := by
  induction n with
  | zero => rfl
  | succ n ih =>
      rw [List.replicate_succ, List.cons_append, words_blank (by decide)]
      exact ih

theorem words_skipSpace (s : Line) : words (skipSpace s) = words s := by
  induction s with
  | nil => rfl
  | cons c s ih =>
      cases hc : isBlank c with
      | true =>
          rw [words_blank hc, ← ih]
          simp [skipSpace, hc]
      | false => simp [skipSpace, hc]

theorem mem_words {s w : Line} (h : w ∈ words s) : w ≠ [] := by
  have hne := (List.mem_filter.mp h).2
  simpa using hne

/-- A text cut after its first word. -/
theorem exists_word (s : Line) :
    ∃ w t, skipSpace s = w ++ t ∧ (∀ c ∈ w, isBlank c = false) ∧ Ends t ∧
      (skipSpace s).takeWhile (fun c => !isBlank c) = w ∧
      (skipSpace s).dropWhile (fun c => !isBlank c) = t ∧ (w = [] → t = []) := by
  refine ⟨_, _, List.takeWhile_append_dropWhile.symm, ?_, ?_, rfl, rfl, ?_⟩
  · intro c hc
    simpa using List.mem_takeWhile_imp hc
  · intro c hc
    have hnot := List.head?_dropWhile_not (fun c => !isBlank c) (skipSpace s)
    rw [Option.mem_def.mp hc] at hnot
    simpa using hnot
  · intro hnil
    cases hs : skipSpace s with
    | nil => rfl
    | cons c t =>
        have hc := List.head?_dropWhile_not isBlank s
        have hhead : (List.dropWhile isBlank s).head? = some c := by
          rw [← skipSpace, hs]
          rfl
        rw [hhead] at hc
        rw [hs] at hnil
        have hblank : isBlank c = false := by simpa using hc
        simp [hblank] at hnil

end Words

/-! ## A text and its words -/

section ScanWords

theorem isSign_of_isBlank {c : Char} (h : isBlank c = true) : isSign c = false :=
  isSign_eq_false (by rintro rfl; exact absurd h (by decide))
    (by rintro rfl; exact absurd h (by decide))

theorem isDigit_of_isBlank {c : Char} (h : isBlank c = true) : c.isDigit = false := by
  rw [Bool.eq_false_iff]
  intro hdigit
  have hlow : 48 ≤ c.toNat := by
    simp only [Char.isDigit, Bool.and_eq_true, decide_eq_true_eq] at hdigit
    exact hdigit.1
  simp only [isBlank, Bool.or_eq_true, Bool.and_eq_true, decide_eq_true_eq] at h
  rcases h with rfl | h
  · exact absurd hlow (by decide)
  · omega

variable {w s : Line}

theorem afterSign_append (hs : Ends s) : afterSign (w ++ s) = afterSign w ++ s := by
  cases w with
  | nil =>
      cases s with
      | nil => rfl
      | cons c s =>
          have hsign := isSign_of_isBlank (hs c rfl)
          simp [afterSign, hsign]
  | cons c w =>
      simp only [afterSign, List.cons_append]
      split <;> rfl

theorem takeWhile_digit_append (hs : Ends s) :
    (w ++ s).takeWhile Char.isDigit = w.takeWhile Char.isDigit := by
  induction w with
  | nil =>
      cases s with
      | nil => rfl
      | cons c s => simp [isDigit_of_isBlank (hs c rfl)]
  | cons c w ih => simp only [List.cons_append, List.takeWhile_cons, ih]

theorem dropWhile_digit_append (hs : Ends s) :
    (w ++ s).dropWhile Char.isDigit = w.dropWhile Char.isDigit ++ s := by
  induction w with
  | nil =>
      cases s with
      | nil => rfl
      | cons c s => simp [isDigit_of_isBlank (hs c rfl)]
  | cons c w ih =>
      simp only [List.cons_append, List.dropWhile_cons, ih]
      split <;> rfl

theorem afterNumber_append (hs : Ends s) : afterNumber (w ++ s) = afterNumber w ++ s := by
  rw [afterNumber, afterSign_append hs, dropWhile_digit_append hs]
  rfl

theorem number_append (hs : Ends s) : number (w ++ s) = number w := by
  have hdigits : digits (w ++ s) = digits w := by
    rw [digits, afterSign_append hs, takeWhile_digit_append hs]
    rfl
  cases w with
  | nil =>
      have hnone : digits ([] ++ s) = [] := hdigits
      rw [number, if_pos hnone]
      rfl
  | cons c w =>
      rw [number, number, strtoul, strtoul, hdigits, List.cons_append]
      rfl

/-- What is left of a word has no blanks either. -/
theorem isBlank_afterNumber (hw : ∀ c ∈ w, isBlank c = false) :
    ∀ c ∈ afterNumber w, isBlank c = false :=
  fun c hc => hw c (mem_of_mem_afterNumber hc)

/-- A call reads a text as it reads the words. -/
def Agrees (format : List Directive) (s : Line) : Prop :=
  (scanf format s).1 = (scanWords format (words s)).1 ∧
    words (scanf format s).2 = (scanWords format (words s)).2

theorem agrees_string {format : List Directive} (h : ∀ s, Agrees format s) (s : Line) :
    Agrees (.string :: format) s := by
  obtain ⟨w, t, hs, hw, ht, htake, hdrop, hnil⟩ := exists_word s
  have hwords : words s = pushWord w (words t) := by
    rw [← words_skipSpace, hs, words_append hw ht]
  unfold Agrees
  rw [hwords]
  simp only [scanf, htake, hdrop]
  by_cases hne : w = []
  · rw [if_pos hne, pushWord, if_pos hne, words_skipSpace, hwords, pushWord, if_pos hne, hnil hne]
    exact ⟨rfl, rfl⟩
  · rw [if_neg hne, pushWord, if_neg hne]
    obtain ⟨hfields, hrest⟩ := h t
    exact ⟨congrArg _ hfields, hrest⟩

theorem agrees_unsigned {format : List Directive} (h : ∀ s, Agrees format s) (s : Line) :
    Agrees (.unsigned :: format) s := by
  obtain ⟨w, t, hs, hw, ht, -, -, hnil⟩ := exists_word s
  have hwords : words s = pushWord w (words t) := by
    rw [← words_skipSpace, hs, words_append hw ht]
  have hrest : words (afterNumber w ++ t) = pushWord (afterNumber w) (words t) :=
    words_append (isBlank_afterNumber hw) ht
  unfold Agrees
  rw [hwords]
  simp only [scanf, hs, number_append ht, afterNumber_append ht]
  by_cases hne : w = []
  · subst hne
    rw [hnil rfl]
    exact ⟨rfl, rfl⟩
  · rw [pushWord, if_neg hne]
    simp only [scanWords]
    cases number w with
    | none => exact ⟨rfl, hrest⟩
    | some value =>
        obtain ⟨hfields, hleft⟩ := h (afterNumber w ++ t)
        rw [hrest] at hfields hleft
        exact ⟨congrArg _ hfields, hleft⟩

theorem agrees_char {format : List Directive} (h : ∀ s, Agrees format s) (c : Char) (s : Line) :
    Agrees (.char c :: format) (skipSpace s) := by
  obtain ⟨w, t, hs, hw, ht, -, -, hnil⟩ := exists_word s
  unfold Agrees
  rw [hs, words_append hw ht]
  cases w with
  | nil =>
      rw [hnil rfl]
      exact ⟨rfl, rfl⟩
  | cons d w =>
      obtain ⟨hd, hw⟩ := List.forall_mem_cons.mp hw
      have hrest : words (w ++ t) = pushWord w (words t) := words_append hw ht
      rw [pushWord, if_neg (List.cons_ne_nil d w)]
      simp only [scanf, scanWords, List.cons_append]
      split
      · rw [← hrest]
        exact h (w ++ t)
      · refine ⟨rfl, ?_⟩
        have hall : words ((d :: w) ++ t) = pushWord (d :: w) (words t) :=
          words_append (List.forall_mem_cons.mpr ⟨hd, hw⟩) ht
        exact hall

/-- **Texts as words.** With the literal characters after blanks, `fscanf` stores
what it stores of the words, and leaves the words that it leaves. -/
theorem scanf_words {format : List Directive} (h : Spaced format) (s : Line) :
    Agrees format s := by
  suffices hboth : (Spaced format → ∀ s, Agrees format s) ∧
      (Spaced (.space :: format) → ∀ s, Agrees format (skipSpace s)) from hboth.1 h s
  clear h s
  induction format with
  | nil => exact ⟨fun _ _ => ⟨rfl, rfl⟩, fun _ _ => ⟨rfl, rfl⟩⟩
  | cons directive format ih =>
      obtain ⟨hformat, hspace⟩ := ih
      cases directive with
      | string =>
          have hall : Spaced format → ∀ s, Agrees (.string :: format) s :=
            fun h s => agrees_string (hformat h) s
          exact ⟨hall, fun h s => hall h (skipSpace s)⟩
      | unsigned =>
          have hall : Spaced format → ∀ s, Agrees (.unsigned :: format) s :=
            fun h s => agrees_unsigned (hformat h) s
          exact ⟨hall, fun h s => hall h (skipSpace s)⟩
      | space =>
          have hall : Spaced (.space :: format) → ∀ s, Agrees (.space :: format) s := by
            intro h s
            have hskip := hspace h s
            unfold Agrees at hskip ⊢
            rw [words_skipSpace] at hskip
            exact hskip
          exact ⟨hall, fun h s => hall h (skipSpace s)⟩
      | char c => exact ⟨False.elim, fun h s => agrees_char (hformat h) c s⟩

end ScanWords

/-! ## Signed numbers -/

/-- `strtol`: between the least and the greatest `long`. -/
def strtol (s : Line) : Int :=
  let n := Nat.ofDigitChars 10 (digits s) 0
  if s.head? = some '-' then max (-2 ^ 63) (-n) else min (2 ^ 63 - 1) n

/-- The bits of the `int` of `%d`; there is none without a digit. -/
def signed (s : Line) : Option (BitVec 32) :=
  if digits s = [] then none else some (BitVec.ofInt 32 (strtol s))

/-- `while (fscanf(file, "%d", &value) == 1)`, at most `n` times. -/
def signedsUpTo : Nat → Line → List (BitVec 32)
  | 0, _ => []
  | n + 1, s =>
      match signed (skipSpace s) with
      | none => []
      | some v => v :: signedsUpTo n (afterNumber (skipSpace s))

/-- The whole loop: every number takes a character at least. -/
def signeds (s : Line) : List (BitVec 32) := signedsUpTo s.length s

section Signed

variable {w s : Line}

theorem length_afterSign_le (s : Line) : (afterSign s).length ≤ s.length := by
  cases s with
  | nil => exact le_rfl
  | cons c s =>
      rw [afterSign]
      split
      · exact Nat.le_succ s.length
      · exact le_rfl

theorem length_afterNumber_lt (h : digits s ≠ []) : (afterNumber s).length < s.length := by
  have hsplit : digits s ++ afterNumber s = afterSign s := List.takeWhile_append_dropWhile
  have hlen := congrArg List.length hsplit
  have hpos := List.length_pos_iff.mpr h
  have hsign := length_afterSign_le s
  rw [List.length_append] at hlen
  omega

theorem signedsUpTo_eq {n m : Nat} (hn : s.length ≤ n) (hm : s.length ≤ m) :
    signedsUpTo n s = signedsUpTo m s := by
  induction n generalizing m s with
  | zero =>
      obtain rfl := List.length_eq_zero_iff.mp (Nat.le_zero.mp hn)
      cases m with
      | zero => rfl
      | succ m => rfl
  | succ n ih =>
      cases m with
      | zero =>
          obtain rfl := List.length_eq_zero_iff.mp (Nat.le_zero.mp hm)
          rfl
      | succ m =>
          unfold signedsUpTo
          cases hv : signed (skipSpace s) with
          | none => rfl
          | some v =>
              have hdigits : digits (skipSpace s) ≠ [] := by
                intro hnil
                rw [signed, if_pos hnil] at hv
                cases hv
              have hlt := length_afterNumber_lt hdigits
              have hle : (skipSpace s).length ≤ s.length := (List.dropWhile_suffix _).length_le
              have hrest : signedsUpTo n (afterNumber (skipSpace s)) =
                  signedsUpTo m (afterNumber (skipSpace s)) := ih (by omega) (by omega)
              simp only [hrest]

/-- More rounds read nothing more. -/
theorem signedsUpTo_of_le {n : Nat} (h : s.length ≤ n) : signedsUpTo n s = signeds s :=
  signedsUpTo_eq h le_rfl

theorem signeds_blank {c : Char} (hc : isBlank c = true) (s : Line) :
    signeds (c :: s) = signeds s := by
  have hskip : skipSpace (c :: s) = skipSpace s := by simp [skipSpace, hc]
  rw [← signedsUpTo_of_le (Nat.le_succ s.length)]
  show signedsUpTo (s.length + 1) (c :: s) = signedsUpTo (s.length + 1) s
  unfold signedsUpTo
  rw [hskip]

theorem signed_append (hs : Ends s) (hne : w ≠ []) : signed (w ++ s) = signed w := by
  have hdigits : digits (w ++ s) = digits w := by
    rw [digits, afterSign_append hs, takeWhile_digit_append hs]
    rfl
  have hhead : (w ++ s).head? = w.head? := List.head?_append_of_ne_nil _ hne
  rw [signed, signed, strtol, strtol, hdigits, hhead]

theorem signed_toDec {n : Nat} (h : n < 2 ^ 63) :
    signed (toDec n) = some (BitVec.ofNat 32 n) := by
  have hdigits : digits (toDec n) = toDec n := digits_digits fun c hc => isDigit_of_mem_toDec hc
  have hsign : (toDec n).head? ≠ some '-' := by
    intro hhead
    exact absurd (isDigit_of_mem_toDec (List.mem_of_head? hhead)) (by decide)
  have hvalue : Nat.ofDigitChars 10 (toDec n) 0 = n := by
    rw [toDec, Nat.ofDigitChars_ten_toDigits]
  rw [signed, if_neg (by rw [hdigits]; exact toDec_ne_nil n), strtol, hdigits, if_neg hsign, hvalue,
    min_eq_right (by omega), BitVec.ofInt_natCast]

/-- A number that a blank ends. -/
theorem signeds_toDec {n : Nat} (h : n < 2 ^ 63) {c : Char} (hc : isBlank c = true) (s : Line) :
    signeds (toDec n ++ c :: s) = BitVec.ofNat 32 n :: signeds s := by
  have hends : Ends (c :: s) := by simpa [Ends] using hc
  have hskip : skipSpace (toDec n ++ c :: s) = toDec n ++ c :: s := by
    obtain ⟨e, t, ht⟩ := List.exists_cons_of_ne_nil (toDec_ne_nil n)
    have he : e.isDigit := isDigit_of_mem_toDec (ht ▸ List.mem_cons_self)
    have hblank : isBlank e = false := by
      by_contra hblank
      rw [isDigit_of_isBlank (by simpa using hblank)] at he
      cases he
    rw [ht, skipSpace, List.cons_append, List.dropWhile_cons, if_neg (by simp [hblank])]
  have hlen : (c :: s).length < (toDec n ++ c :: s).length := by
    have hpos := List.length_pos_iff.mpr (toDec_ne_nil n)
    rw [List.length_append]
    omega
  rw [← signedsUpTo_of_le (Nat.le_succ (toDec n ++ c :: s).length), signedsUpTo, hskip,
    signed_append hends (toDec_ne_nil n), signed_toDec h]
  simp only [afterNumber_append hends, afterNumber_toDec, List.nil_append]
  rw [signedsUpTo_of_le hlen.le, signeds_blank hc]

/-- One number a line. -/
theorem signeds_lines {ns : List Nat} (h : ∀ n ∈ ns, n < 2 ^ 63) :
    signeds (ns.flatMap fun n => toDec n ++ ['\n']) = ns.map (BitVec.ofNat 32) := by
  induction ns with
  | nil => rfl
  | cons n ns ih =>
      obtain ⟨hn, hns⟩ := List.forall_mem_cons.mp h
      rw [List.flatMap_cons, List.append_assoc, List.singleton_append,
        signeds_toDec hn (by decide), ih hns, List.map_cons]

end Signed

end Scanf
