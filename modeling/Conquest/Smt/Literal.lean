import Conquest.Smt.Compare

/-!
# Literal — the text of a constant

The constructor of `SMTNumber` makes the binary digits, and for a width that is a
multiple of four the hexadecimal ones, in one loop with an offset that counts
down. `emit_verilog_value` prints either; the solver reads the binary ones.
-/

namespace Conquest

open Bv Digits Text

/-! ## The printer -/

/-- The loop that fills `value_hex`, from the index `i` with the sum of the digits since
the last hexadecimal one. -/
def hexLoop (i sum : Nat) : Line → Line
  | [] => []
  | c :: cs =>
      let offset := 3 - (i &&& 3)
      let sum := sum + shiftedBit c offset
      if offset = 0 then hexMap.getD sum ' ' :: hexLoop (i + 1) 0 cs else hexLoop (i + 1) sum cs

/-- The mark between the width and the base. -/
def quote : Char := Char.ofNat 39

/-- `emit_verilog_value`: the text of a number, whose width is that of its digits. -/
def NumberFields.emitVerilogValue (n : NumberFields) : Line :=
  (if n.isSigned then toDec n.valueBin.length ++ [quote, 's']
    else toDec n.valueBin.length ++ [quote]) ++
    if n.valueBin.length &&& 3 ≠ 0 then 'b' :: n.valueBin else 'h' :: hexLoop 0 0 n.valueBin

/-! ## The reader -/

/-- The number of a digit, below the base. -/
def digitValue (base : Nat) (c : Char) : Option Nat :=
  let n :=
    if c.isDigit then c.toNat - '0'.toNat
    else if 'a' ≤ c ∧ c ≤ 'f' then c.toNat - 'a'.toNat + 10
    else if 'A' ≤ c ∧ c ≤ 'F' then c.toNat - 'A'.toNat + 10
    else base
  if n < base then some n else none

/-- The number of digits, the highest first, behind those of `n`. -/
def digitsValue (base n : Nat) (ds : Line) : Option Nat :=
  ds.foldlM (fun n c => (digitValue base c).map (base * n + ·)) n

/-- A constant of Verilog without `x` and `z`. -/
structure VerilogConstant where
  isSigned : Bool
  width : Nat
  value : BitVec width

/-- The digits with their base: the value is cut off or filled with zeros to the width. -/
def readBased (isSigned : Bool) (width : Nat) : Line → Option VerilogConstant
  | 'b' :: ds => (digitsValue 2 0 ds).map fun n => ⟨isSigned, width, BitVec.ofNat width n⟩
  | 'h' :: ds => (digitsValue 16 0 ds).map fun n => ⟨isSigned, width, BitVec.ofNat width n⟩
  | _ => none

/-- A literal with a width. -/
def readLiteral (s : Line) : Option VerilogConstant :=
  let size := s.takeWhile Char.isDigit
  let width := Nat.ofDigitChars 10 size 0
  match s.dropWhile Char.isDigit with
  | q :: 's' :: rest => if size ≠ [] ∧ q = quote then readBased true width rest else none
  | q :: rest => if size ≠ [] ∧ q = quote then readBased false width rest else none
  | [] => none

/-! ## Round trip -/

section RoundTrip

theorem and_three (n : Nat) : n &&& 3 = n % 4 := Nat.and_two_pow_sub_one_eq_mod n 2

/-- From the start of a group the loop takes four digits at a time. -/
theorem hexLoop_eq (s : Line) {i : Nat} (hi : i % 4 = 0) (hs : s.length % 4 = 0) :
    hexLoop i 0 s = valueHex s := by
  match s with
  | [] => rfl
  | [_] | [_, _] | [_, _, _] => simp at hs
  | a :: b :: c :: d :: rest =>
      have hrest : rest.length % 4 = 0 := by
        simp only [List.length_cons] at hs
        omega
      have ih := hexLoop_eq rest (i := i + 1 + 1 + 1 + 1) (by omega) hrest
      have h0 : i &&& 3 = 0 := by rw [and_three]; omega
      have h1 : i + 1 &&& 3 = 1 := by rw [and_three]; omega
      have h2 : i + 1 + 1 &&& 3 = 2 := by rw [and_three]; omega
      have h3 : i + 1 + 1 + 1 &&& 3 = 3 := by rw [and_three]; omega
      simp [hexLoop, valueHex, h0, h1, h2, h3, ih]

/-- The number of bits, the highest first, behind those of `n`. -/
def bitsValue (n : Nat) (bs : List Bool) : Nat := bs.foldl (fun n b => 2 * n + b.toNat) n

theorem bitsValue_reverse (bs : List Bool) :
    bitsValue 0 bs.reverse = toNat (bs.map Digit.ofBit) := by
  rw [bitsValue, List.foldl_reverse, Digits.toNat, List.foldr_map]
  simp only [Digit.fill_ofBit]

theorem digitsValue_bitChar (bs : List Bool) (n : Nat) :
    digitsValue 2 n (bs.map bitChar) = some (bitsValue n bs) := by
  induction bs generalizing n with
  | nil => rfl
  | cons b bs ih =>
      have hb : digitValue 2 (bitChar b) = some b.toNat := by cases b <;> decide
      simp only [digitsValue, List.map_cons, List.foldlM_cons, hb] at ih ⊢
      exact ih (2 * n + b.toNat)

/-- A hexadecimal digit stands for its four bits. -/
theorem digitsValue_valueHex (bs : List Bool) (n : Nat) (hbs : bs.length % 4 = 0) :
    digitsValue 16 n (valueHex (bs.map bitChar)) = some (bitsValue n bs) := by
  match bs with
  | [] => rfl
  | [_] | [_, _] | [_, _, _] => simp at hbs
  | a :: b :: c :: d :: rest =>
      have hrest : rest.length % 4 = 0 := by
        simp only [List.length_cons] at hbs
        omega
      have hdigit : ∀ a b c d : Bool, digitValue 16 (hexMap.getD
          (shiftedBit (bitChar a) 3 + shiftedBit (bitChar b) 2 + shiftedBit (bitChar c) 1 +
            shiftedBit (bitChar d) 0) ' ') =
          some (8 * a.toNat + 4 * b.toNat + 2 * c.toNat + d.toNat) := by decide
      have ih := digitsValue_valueHex rest
        (16 * n + (8 * a.toNat + 4 * b.toNat + 2 * c.toNat + d.toNat)) hrest
      have hbits : bitsValue n (a :: b :: c :: d :: rest) =
          bitsValue (16 * n + (8 * a.toNat + 4 * b.toNat + 2 * c.toNat + d.toNat)) rest := by
        simp only [bitsValue, List.foldl_cons]
        congr 1
        omega
      rw [hbits, ← ih]
      simp only [digitsValue, List.map_cons, valueHex, List.foldlM_cons, hdigit]
      rfl

/-- What follows the mark and the sign is read as digits with their base. -/
theorem readLiteral_toDec (isSigned : Bool) (width : Nat) {c : Char} (hc : c ≠ 's') (rest : Line) :
    readLiteral
        ((if isSigned then toDec width ++ [quote, 's'] else toDec width ++ [quote]) ++ c :: rest) =
      readBased isSigned width (c :: rest) := by
  have hdigits : ∀ c ∈ toDec width, c.isDigit := fun c hc => isDigit_of_mem_toDec hc
  have hquote : quote.isDigit = false := by decide
  have htake (s : Line) : (toDec width ++ quote :: s).takeWhile Char.isDigit = toDec width := by
    rw [List.takeWhile_append_of_pos hdigits]
    simp [hquote]
  have hdrop (s : Line) : (toDec width ++ quote :: s).dropWhile Char.isDigit = quote :: s := by
    rw [List.dropWhile_append_of_pos hdigits]
    simp [hquote]
  have hwidth : Nat.ofDigitChars 10 (toDec width) 0 = width := Nat.ofDigitChars_ten_toDigits
  cases isSigned with
  | false => simp [readLiteral, htake, hdrop, hwidth, hc]
  | true => simp [readLiteral, htake, hdrop, hwidth]

/-- The text of a number is read as the number of its digits. -/
theorem readLiteral_emitVerilogValue {n : NumberFields} {bs : List Bool}
    (hbin : n.valueBin = bs.reverse.map bitChar) :
    readLiteral n.emitVerilogValue =
      some ⟨n.isSigned, bs.length, BitVec.ofNat bs.length (toNat (bs.map Digit.ofBit))⟩ := by
  have hlength : n.valueBin.length = bs.length := by simp [hbin]
  rw [NumberFields.emitVerilogValue, hlength, and_three]
  have hb : 'b' ≠ 's' := by decide
  have hh : 'h' ≠ 's' := by decide
  -- whole groups of four are printed in the base 16
  by_cases hfour : bs.length % 4 = 0
  · have hhex : digitsValue 16 0 (hexLoop 0 0 n.valueBin) = some (toNat (bs.map Digit.ofBit)) := by
      rw [hexLoop_eq _ rfl (by rw [hlength]; exact hfour), hbin,
        digitsValue_valueHex _ _ (by simpa using hfour), bitsValue_reverse]
    rw [if_neg (not_not.mpr hfour), readLiteral_toDec _ _ hh, readBased, hhex]
    rfl
  · have hbinary : digitsValue 2 0 n.valueBin = some (toNat (bs.map Digit.ofBit)) := by
      rw [hbin, digitsValue_bitChar, bitsValue_reverse]
    rw [if_pos hfour, readLiteral_toDec _ _ hb, readBased, hbinary]
    rfl

/-- The constructor reads the lowest digits of a string, with zeros for those that are
no bits. -/
theorem valueBin_take (m : Memory) {bits : List Digit} {width : Nat} (h : width ≤ bits.length)
    (isSigned : Bool) :
    (NumberFields.new m (ivlExprBits bits) width isSigned).valueBin =
      ((bits.take width).map Digit.fill).reverse.map bitChar := by
  have hdigits : (readDigits m (ivlExprBits bits) width).map Digit.fill =
      (bits.take width).map Digit.fill := by
    apply List.ext_getElem
    · simp [readDigits, h]
    · intro i hi hi'
      have hlt : i < width := by simpa [readDigits] using hi
      have hchar : charAt m (ivlExprBits bits) i = digitChar bits[i] := by
        rw [charAt_of_lt (by rw [length_ivlExprBits]; omega)]
        simp [ivlExprBits]
      simp [readDigits, hchar, fill_digitOf_digitChar]
  rw [NumberFields.new_eq, valueBin_new, hdigits]

end RoundTrip

/-- **A literal and its constant.** What is printed for the lowest digits of a string
and the constant of the solver are one number of that width, with zeros for the digits
that are no bits. -/
theorem literal_denotes {S : Type} (decl : S → SigDecl) (st : SigState S) (clk : SMTClkType)
    (ρ : Valuation) (m : Memory) (bits : List Digit) (isSigned : Bool) {width : Nat}
    (hpos : 1 ≤ width) (hwidth : width ≤ bits.length) :
    readLiteral (NumberFields.new m (ivlExprBits bits) width isSigned).emitVerilogValue =
        some ⟨isSigned, width, BitVec.ofNat width (toNat (bits.take width))⟩ ∧
      Denotes ρ
        (SMTLeaf.evalTerm decl st clk
          (.number (NumberFields.new m (ivlExprBits bits) width isSigned).toSMTNumber))
        (BitVec.ofNat width (toNat (bits.take width))) := by
  have hlength : (bits.take width).length = width := by
    rw [List.length_take]
    omega
  have hvalue : toNat (((bits.take width).map Digit.fill).map Digit.ofBit) =
      toNat (bits.take width) := toNat_ofBits _
  have hbin := valueBin_take m hwidth isSigned
  constructor
  · rw [readLiteral_emitVerilogValue hbin, List.length_map, hlength, hvalue]
    rfl
  · -- the solver refuses the empty string of bits
    have hne : (bits.take width).map Digit.fill ≠ [] := by
      apply List.ne_nil_of_length_pos
      rw [List.length_map, hlength]
      exact hpos
    rw [SMTLeaf.evalTerm, hbin, parseBvbin_bitChar _ hne, List.length_map, hlength, hvalue]
    exact denotes_const ρ _

/-- Eight digits, the highest unknown, with the value 21. -/
def eightDigits : List Digit := [.one, .zero, .one, .zero, .one, .zero, .zero, .x]

example : (NumberFields.new (fun _ => terminator) (ivlExprBits eightDigits) 8
    true).emitVerilogValue = ['8', quote, 's', 'h', '1', '5'] := by
  decide

theorem literal_denotes_eight :
    readLiteral (NumberFields.new (fun _ => terminator) (ivlExprBits eightDigits) 8
        true).emitVerilogValue = some ⟨true, 8, 21⟩ ∧
      Denotes Valuation.zero
        (SMTLeaf.evalTerm Empty.elim ⟨Empty.elim, 0⟩ .curr
          (.number (NumberFields.new (fun _ => terminator) (ivlExprBits eightDigits) 8
            true).toSMTNumber))
        (21 : BitVec 8) :=
  literal_denotes Empty.elim ⟨Empty.elim, 0⟩ .curr Valuation.zero (fun _ => terminator) eightDigits
    true (by decide) (by decide)

end Conquest
