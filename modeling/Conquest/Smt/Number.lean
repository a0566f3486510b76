import Conquest.Lib.Digits
import Conquest.Smt.Expr

/-!
# Number — constants

The constructor of `SMTNumber` puts a zero for every digit that is not a bit.
The constant is printed into the instrumented design in binary, or in
hexadecimal when its width is a multiple of four, and becomes a constant of the
solver.
-/

namespace Conquest

open Bv Digits Text

/-! ## Digits -/

/-- A digit as Icarus gives it. -/
def digitChar : Digit → Char
  | .zero => '0'
  | .one => '1'
  | .x => 'x'
  | .z => 'z'

/-- `SMTNumber::SMTNumber`, of bits that start with the lowest. -/
def SMTNumber.new (bits : List Digit) : SMTNumber where
  valueBin := bits.reverse.map fun d =>
    if digitChar d ≠ '0' ∧ digitChar d ≠ '1' then '0' else digitChar d

/-- `has_undef`. -/
def hasUndef (bits : List Digit) : Bool :=
  bits.any fun d => digitChar d ≠ '0' ∧ digitChar d ≠ '1'

def bitChar (b : Bool) : Char := if b then '1' else '0'

/-- The digits of the constant are the filled ones. -/
theorem valueBin_new (bits : List Digit) :
    (SMTNumber.new bits).valueBin = (bits.map Digit.fill).reverse.map bitChar := by
  rw [SMTNumber.new, ← List.map_reverse, List.map_map]
  exact List.map_congr_left fun d _ => by cases d <;> rfl

/-! ## The solver's constant -/

theorem parseBvbin_bitChar (bs : List Bool) (h : bs ≠ []) :
    parseBvbin (bs.reverse.map bitChar) =
      mkConst (BitVec.ofNat bs.length (toNat (bs.map Digit.ofBit))) := by
  have hbits : ∀ c ∈ bs.reverse.map bitChar, c = '0' ∨ c = '1' := by
    intro c hc
    obtain ⟨b, -, rfl⟩ := List.mem_map.mp hc
    cases b
    · exact .inl rfl
    · exact .inr rfl
  have hval : (bs.reverse.map bitChar).foldl (fun n c => 2 * n + if c = '1' then 1 else 0) 0 =
      toNat (bs.map Digit.ofBit) := by
    rw [Digits.toNat, List.foldl_map, List.foldl_reverse, List.foldr_map]
    congr 1
    funext b n
    cases b <;> rfl
  rw [parseBvbin, if_pos ⟨by simpa using h, hbits⟩, hval, List.length_map, List.length_reverse]

/-- The term of a constant has its filled value. -/
theorem parseBvbin_new {bits : List Digit} (h : bits ≠ []) :
    parseBvbin (SMTNumber.new bits).valueBin = mkConst (fill bits) := by
  rw [valueBin_new, parseBvbin_bitChar _ (by simpa using h), toNat_ofBits, List.length_map]
  rfl

theorem parseBvbin_new_nil : parseBvbin (SMTNumber.new []).valueBin = none := rfl

/-! ## The printed constant -/

/-- A based literal of Verilog, most significant digit first. -/
inductive Literal where
  | bin (digits : Line)
  | hex (digits : Line)
  deriving DecidableEq, Repr

/-- `hex_map`. -/
def hexMap : Line :=
  ['0', '1', '2', '3', '4', '5', '6', '7', '8', '9', 'A', 'B', 'C', 'D', 'E', 'F']

/-- `(value_bin[i] - '0') << offset`. -/
def shiftedBit (c : Char) (offset : Nat) : Nat := (c.toNat - '0'.toNat) <<< offset

/-- The loop that fills `value_hex`, four digits at a time. -/
def valueHex : Line → Line
  | a :: b :: c :: d :: rest =>
      let sum := shiftedBit a 3 + shiftedBit b 2 + shiftedBit c 1 + shiftedBit d 0
      hexMap.getD sum ' ' :: valueHex rest
  | _ => []

/-- `emit_verilog_value`. -/
def SMTNumber.emitVerilogValue (n : SMTNumber) : Literal :=
  if n.valueBin.length % 4 ≠ 0 then .bin n.valueBin else .hex (valueHex n.valueBin)

/-- The four bits of a hexadecimal digit. -/
def hexBits (c : Char) : List Bool :=
  let n := hexMap.idxOf c
  [n.testBit 3, n.testBit 2, n.testBit 1, n.testBit 0]

/-- The digits that Verilog reads in a literal of bits, lowest first. -/
def Literal.read : Literal → List Digit
  | .bin ds => (ds.map fun c => Digit.ofBit (c == '1')).reverse
  | .hex ds => ((ds.flatMap hexBits).map Digit.ofBit).reverse

theorem hexBits_valueHex (bs : List Bool) (h : bs.length % 4 = 0) :
    (valueHex (bs.map bitChar)).flatMap hexBits = bs := by
  match bs with
  | [] => rfl
  | [_] | [_, _] | [_, _, _] => simp at h
  | a :: b :: c :: d :: rest =>
      have hrest : rest.length % 4 = 0 := by
        simp only [List.length_cons] at h
        omega
      have hhead : ∀ a b c d : Bool, hexBits (hexMap.getD
          (shiftedBit (bitChar a) 3 + shiftedBit (bitChar b) 2 + shiftedBit (bitChar c) 1 +
            shiftedBit (bitChar d) 0) ' ') = [a, b, c, d] := by decide
      simp only [List.map_cons, valueHex, List.flatMap_cons, hexBits_valueHex rest hrest, hhead,
        List.cons_append, List.nil_append]

/-- What is printed for a constant is read as its filled digits. -/
theorem read_emitVerilogValue (bits : List Digit) :
    (SMTNumber.new bits).emitVerilogValue.read = (bits.map Digit.fill).map Digit.ofBit := by
  unfold SMTNumber.emitVerilogValue
  rw [valueBin_new]
  generalize bits.map Digit.fill = bs
  split
  · simp only [Literal.read, List.map_map, ← List.map_reverse, List.reverse_reverse]
    exact List.map_congr_left fun b _ => by cases b <;> rfl
  · rename_i hlen
    rw [not_not, List.length_map] at hlen
    rw [Literal.read, hexBits_valueHex _ hlen, ← List.map_reverse, List.reverse_reverse]

end Conquest
