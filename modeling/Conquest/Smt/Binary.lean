import Conquest.Lib.Bv

/-!
# Binary — the solver term of a binary operator

`SMTBinary::set_opcode` picks the solver function of an operator and
`SMTBinary::eval_term` applies it to the operands' terms, wraps a comparison
into one bit and inverts `!=`. `emit_expr_binary` prints the operator into the
instrumented design, where Verilog gives it its value. Division, remainder and
`>>>` are always the signed functions of the solver, and a shift needs operands
of equal widths there.
-/

namespace Conquest

open Bv

/-! ## `SMTBinary` -/

/-- The two-argument solver functions that `set_opcode` stores. -/
inductive TermFn2 where
  | op (f : Op2)
  | redcomp
  | atom (r : Rel)
  deriving DecidableEq, Repr

def TermFn2.call : TermFn2 → TermT → TermT → TermT
  | .op f, s, t => mkOp2 f s t
  | .redcomp, s, t => mkComp s t
  | .atom r, s, t => mkRel r s t

/-- The attributes of an `SMTBinary` apart from its operands. -/
structure SMTBinary where
  opcode : String
  func : Option TermFn2
  isSigned : Bool
  isBool : Bool
  isInverted : Bool
  deriving DecidableEq, Repr

namespace SMTBinary

/-- The constructor. -/
def new : SMTBinary where
  opcode := "invalid"
  func := none
  isSigned := false
  isBool := false
  isInverted := false

/-- `set_opcode` on the operator codes of the Icarus target interface. -/
def setOpcode (b : SMTBinary) : Char → SMTBinary
  | '%' => { b with opcode := "bv-rem", func := some (.op .srem) }
  | '/' => { b with opcode := "bv-div", func := some (.op .sdiv) }
  | '+' => { b with opcode := "bv-add", func := some (.op .add) }
  | '-' => { b with opcode := "bv-sub", func := some (.op .sub) }
  | '*' => { b with opcode := "bv-mul", func := some (.op .mul) }
  | 'p' => { b with opcode := "bv-pow" }
  | 'n' => { b with opcode := "bv-comp", func := some .redcomp, isInverted := true }
  | 'e' => { b with opcode := "bv-comp", func := some .redcomp }
  | '<' =>
      if b.isSigned then { b with opcode := "bv-slt", func := some (.atom .slt), isBool := true }
      else { b with opcode := "bv-lt", func := some (.atom .lt), isBool := true }
  | 'L' =>
      if b.isSigned then { b with opcode := "bv-sle", func := some (.atom .sle), isBool := true }
      else { b with opcode := "bv-le", func := some (.atom .le), isBool := true }
  | '>' =>
      if b.isSigned then { b with opcode := "bv-sgt", func := some (.atom .sgt), isBool := true }
      else { b with opcode := "bv-gt", func := some (.atom .gt), isBool := true }
  | 'G' =>
      if b.isSigned then { b with opcode := "bv-sge", func := some (.atom .sge), isBool := true }
      else { b with opcode := "bv-ge", func := some (.atom .ge), isBool := true }
  | '&' => { b with opcode := "bv-and", func := some (.op .and) }
  | '|' => { b with opcode := "bv-or", func := some (.op .or) }
  | '^' => { b with opcode := "bv-xor", func := some (.op .xor) }
  | 'A' => { b with opcode := "bv-nand", func := some (.op .nand) }
  | 'O' => { b with opcode := "bv-nor", func := some (.op .nor) }
  | 'X' => { b with opcode := "bv-xnor", func := some (.op .xnor) }
  | 'a' => { b with opcode := "bv-and", func := some (.op .and) }
  | 'o' => { b with opcode := "bv-or", func := some (.op .or) }
  | 'l' => { b with opcode := "bv-shl", func := some (.op .shl) }
  | 'r' => { b with opcode := "bv-lshr", func := some (.op .lshr) }
  | 'R' => { b with opcode := "bv-ashr", func := some (.op .ashr) }
  | _ => b

/-- `eval_term` from the operands' terms; without a function there is no term. -/
def evalTerm (b : SMTBinary) (s t : TermT) : TermT :=
  match b.func with
  | none => none
  | some f =>
      let term := f.call s t
      let term := if b.isBool then mkOfBool term else term
      if b.isInverted then mkOp1 .not term else term

end SMTBinary

/-- The expression `emit_expr_binary` creates for an operator and the
signedness of its operands. -/
def emitExprBinary (ivlCode : Char) (signed1 signed2 : Bool) : SMTBinary :=
  { SMTBinary.new with isSigned := signed1 && signed2 }.setOpcode ivlCode

/-! ## The operators of the emitted Verilog -/

inductive VArith where
  | add | sub | mul | div | mod | and | or | xor | xnor
  deriving DecidableEq, Repr

inductive VRel where
  | eq | ne | lt | le | gt | ge
  deriving DecidableEq, Repr

inductive VShift where
  | shl | shr | sshr
  deriving DecidableEq, Repr

/-- A binary operator of Verilog; operands of all but the shifts have one
width. -/
inductive VBinop where
  | arith (op : VArith)
  | rel (op : VRel)
  | shift (op : VShift)
  deriving DecidableEq, Repr

def VBinop.isShift : VBinop → Bool
  | .shift _ => true
  | _ => false

/-- The width of the result. -/
abbrev VBinop.width : VBinop → Nat → Nat
  | .rel _, _ => 1
  | _, w => w

/-- Signed division truncates toward zero and the remainder has the sign of the
dividend. -/
def VArith.eval {w : Nat} (op : VArith) (signed : Bool) (a b : BitVec w) : BitVec w :=
  match op with
  | .add => a + b
  | .sub => a - b
  | .mul => a * b
  | .div =>
      if signed then BitVec.ofInt w (a.toInt.tdiv b.toInt) else BitVec.ofNat w (a.toNat / b.toNat)
  | .mod =>
      if signed then BitVec.ofInt w (a.toInt.tmod b.toInt) else BitVec.ofNat w (a.toNat % b.toNat)
  | .and => a &&& b
  | .or => a ||| b
  | .xor => a ^^^ b
  | .xnor => ~~~(a ^^^ b)

def VRel.eval {w : Nat} (op : VRel) (signed : Bool) (a b : BitVec w) : Bool :=
  match op with
  | .eq => a = b
  | .ne => a ≠ b
  | .lt => if signed then a.toInt < b.toInt else a.toNat < b.toNat
  | .le => if signed then a.toInt ≤ b.toInt else a.toNat ≤ b.toNat
  | .gt => if signed then b.toInt < a.toInt else b.toNat < a.toNat
  | .ge => if signed then b.toInt ≤ a.toInt else b.toNat ≤ a.toNat

/-- The amount is unsigned; only the left operand decides whether `>>>` is
arithmetic. -/
def VShift.eval {w v : Nat} (op : VShift) (signed : Bool) (a : BitVec w) (b : BitVec v) :
    BitVec w :=
  match op with
  | .shl => a <<< b.toNat
  | .shr => a >>> b.toNat
  | .sshr => if signed then a.sshiftRight b.toNat else a >>> b.toNat

/-- The value of an operator; where the operands have one width, bringing the
second to the width of the first changes nothing. -/
def VBinop.eval {w v : Nat} (op : VBinop) (signed1 signed2 : Bool) (a : BitVec w) (b : BitVec v) :
    BitVec (op.width w) :=
  match op with
  | .arith op => op.eval (signed1 && signed2) a (b.setWidth w)
  | .rel op => BitVec.ofBool (op.eval (signed1 && signed2) a (b.setWidth w))
  | .shift op => op.eval signed1 a b

/-- What `emit_expr_binary` prints: an operator, or its inversion `~( )`. -/
inductive EmittedOper where
  | plain (op : VBinop)
  | inverted (op : VBinop)
  deriving DecidableEq, Repr

def EmittedOper.op : EmittedOper → VBinop
  | .plain op => op
  | .inverted op => op

def EmittedOper.eval {w v : Nat} (e : EmittedOper) (signed1 signed2 : Bool) (a : BitVec w)
    (b : BitVec v) : BitVec (e.op.width w) :=
  match e with
  | .plain op => op.eval signed1 signed2 a b
  | .inverted op => ~~~(op.eval signed1 signed2 a b)

/-- The arithmetic, comparison, bitwise and shift operators `emit_expr_binary`
prints and `set_opcode` knows. -/
def emittedOper : Char → Option EmittedOper
  | '+' => some (.plain (.arith .add))
  | '-' => some (.plain (.arith .sub))
  | '*' => some (.plain (.arith .mul))
  | '/' => some (.plain (.arith .div))
  | '%' => some (.plain (.arith .mod))
  | 'e' => some (.plain (.rel .eq))
  | 'n' => some (.plain (.rel .ne))
  | '<' => some (.plain (.rel .lt))
  | 'L' => some (.plain (.rel .le))
  | '>' => some (.plain (.rel .gt))
  | 'G' => some (.plain (.rel .ge))
  | '&' => some (.plain (.arith .and))
  | '|' => some (.plain (.arith .or))
  | '^' => some (.plain (.arith .xor))
  | 'A' => some (.inverted (.arith .and))
  | 'O' => some (.inverted (.arith .or))
  | 'X' => some (.plain (.arith .xnor))
  | 'l' => some (.plain (.shift .shl))
  | 'r' => some (.plain (.shift .shr))
  | 'R' => some (.plain (.shift .sshr))
  | _ => none

/-- Division and remainder, whose divisor is not zero. -/
def VBinop.isDivision : VBinop → Bool
  | .arith .div | .arith .mod => true
  | _ => false

/-- When the solver's function is the Verilog operator: division and remainder
need two signed operands (or one bit), `>>>` a signed left operand, and every
shift operands of one width. -/
def OperAgrees (op : VBinop) (signed1 signed2 : Bool) (w v : Nat) : Prop :=
  match op with
  | .arith .div | .arith .mod => (signed1 && signed2) = true ∨ w = 1
  | .shift .sshr => signed1 = true ∧ v = w
  | .shift _ => v = w
  | _ => True

/-! ## Signed division -/

theorem smtSDiv_eq_ofInt {w : Nat} (a : BitVec w) {b : BitVec w} (hb : b ≠ 0#w) :
    a.smtSDiv b = BitVec.ofInt w (a.toInt.tdiv b.toInt) := by
  have hneg : -b ≠ 0#w := fun h => hb (BitVec.neg_eq_zero_iff.mp h)
  have hsdiv : a.smtSDiv b = a.sdiv b := by
    rw [BitVec.smtSDiv_eq, BitVec.sdiv_eq]
    cases a.msb <;> cases b.msb <;> simp [BitVec.smtUDiv_eq, hb, hneg]
  rw [hsdiv]
  refine BitVec.eq_of_toInt_eq ?_
  rw [BitVec.toInt_sdiv, BitVec.toInt_ofInt]

theorem srem_eq_ofInt {w : Nat} (a b : BitVec w) :
    a.srem b = BitVec.ofInt w (a.toInt.tmod b.toInt) := by
  rw [← BitVec.toInt_srem, BitVec.ofInt_toInt]

/-- One bit has only one divisor. -/
theorem smtSDiv_one_bit (a : BitVec 1) {b : BitVec 1} (hb : b ≠ 0) :
    a.smtSDiv b = BitVec.ofNat 1 (a.toNat / b.toNat) := by
  revert a b
  decide

theorem srem_one_bit (a : BitVec 1) {b : BitVec 1} (hb : b ≠ 0) :
    a.srem b = BitVec.ofNat 1 (a.toNat % b.toNat) := by
  revert a b
  decide

/-! ## The term denotes the operator -/

theorem denotes_div {ρ : Valuation} {s t : TermT} {w : Nat} {x y : BitVec w}
    (hs : Denotes ρ s x) (ht : Denotes ρ t y) (hy : y ≠ 0#w) {signed : Bool}
    (h : signed = true ∨ w = 1) : Denotes ρ (mkOp2 .sdiv s t) (VArith.div.eval signed x y) := by
  have hval : VArith.div.eval signed x y = x.smtSDiv y := by
    cases signed with
    | true => exact (smtSDiv_eq_ofInt x hy).symm
    | false =>
        obtain rfl : w = 1 := by simpa using h
        exact (smtSDiv_one_bit x hy).symm
  rw [hval]
  exact hs.op2 .sdiv ht

theorem denotes_mod {ρ : Valuation} {s t : TermT} {w : Nat} {x y : BitVec w}
    (hs : Denotes ρ s x) (ht : Denotes ρ t y) (hy : y ≠ 0#w) {signed : Bool}
    (h : signed = true ∨ w = 1) : Denotes ρ (mkOp2 .srem s t) (VArith.mod.eval signed x y) := by
  have hval : VArith.mod.eval signed x y = x.srem y := by
    cases signed with
    | true => exact (srem_eq_ofInt x y).symm
    | false =>
        obtain rfl : w = 1 := by simpa using h
        exact (srem_one_bit x hy).symm
  rw [hval]
  exact hs.op2 .srem ht

/-- The four ordered comparisons, of either signedness. -/
theorem denotes_rel {ρ : Valuation} {s t : TermT} {w : Nat} {x y : BitVec w}
    (hs : Denotes ρ s x) (ht : Denotes ρ t y) {op : VRel} {signed : Bool} {r : Rel}
    (hval : r.holds x y = op.eval signed x y) :
    Denotes ρ (mkOfBool (mkRel r s t)) (BitVec.ofBool (op.eval signed x y)) :=
  hval ▸ hs.relBit r ht

theorem binary_denotes {c : Char} {e : EmittedOper} (hc : emittedOper c = some e)
    {signed1 signed2 : Bool} {w v : Nat} (heq : e.op.isShift = false → v = w)
    (h : OperAgrees e.op signed1 signed2 w v) {ρ : Valuation} {s t : TermT} {x : BitVec w}
    {y : BitVec v} (hs : Denotes ρ s x) (ht : Denotes ρ t y)
    (hdiv : e.op.isDivision = true → y ≠ 0#v) :
    Denotes ρ ((emitExprBinary c signed1 signed2).evalTerm s t) (e.eval signed1 signed2 x y) := by
  have hvw : v = w := by
    cases hop : e.op with
    | shift op =>
        rw [hop] at h
        cases op <;> simp only [OperAgrees] at h
        · exact h
        · exact h
        · exact h.2
    | arith op => exact heq (by rw [hop]; rfl)
    | rel op => exact heq (by rw [hop]; rfl)
  subst hvw
  unfold emittedOper at hc
  split at hc <;> cases hc
  all_goals
    simp only [EmittedOper.eval, VBinop.eval, EmittedOper.op, BitVec.setWidth_eq,
      OperAgrees] at *
  · exact hs.op2 .add ht
  · exact hs.op2 .sub ht
  · exact hs.op2 .mul ht
  · exact denotes_div hs ht (hdiv rfl) h
  · exact denotes_mod hs ht (hdiv rfl) h
  · exact hs.comp ht
  · have hval : Op1.not.apply (BitVec.ofBool (decide (x = y))) =
        BitVec.ofBool (VRel.ne.eval (signed1 && signed2) x y) := by
      by_cases hxy : x = y <;> simp [Op1.apply, VRel.eval, hxy]
    exact hval ▸ (hs.comp ht).op1 .not
  · cases signed1 <;> cases signed2 <;> exact denotes_rel hs ht rfl
  · cases signed1 <;> cases signed2 <;> exact denotes_rel hs ht rfl
  · cases signed1 <;> cases signed2 <;> exact denotes_rel hs ht rfl
  · cases signed1 <;> cases signed2 <;> exact denotes_rel hs ht rfl
  · exact hs.op2 .and ht
  · exact hs.op2 .or ht
  · exact hs.op2 .xor ht
  · exact hs.op2 .nand ht
  · exact hs.op2 .nor ht
  · exact hs.op2 .xnor ht
  · exact hs.op2 .shl ht
  · exact hs.op2 .lshr ht
  · have hval : VShift.sshr.eval signed1 x y = Op2.ashr.apply x y := by
      simp [VShift.eval, Op2.apply, h.1]
    exact hval ▸ hs.op2 .ashr ht

/-! ## Where it does not -/

/-- All ones exceeds one from two bits on. -/
theorem one_lt_allOnes {w : Nat} (hw : 2 ≤ w) : 1 < (BitVec.allOnes w).toNat := by
  have hpow : 2 ^ 2 ≤ 2 ^ w := Nat.pow_le_pow_right (by omega) hw
  rw [BitVec.toNat_allOnes]
  omega

theorem allOnes_ne_zero {w : Nat} (hw : 1 ≤ w) : BitVec.allOnes w ≠ 0#w := by
  intro h
  have hpow : 2 ^ 1 ≤ 2 ^ w := Nat.pow_le_pow_right (by omega) hw
  have := congrArg BitVec.toNat h
  simp only [BitVec.toNat_allOnes, BitVec.toNat_zero] at this
  omega

theorem toInt_allOnes_of_pos {w : Nat} (hw : 1 ≤ w) : (BitVec.allOnes w).toInt = -1 := by
  rw [BitVec.toInt_allOnes, if_pos (by omega)]

theorem toNat_one {w : Nat} (hw : 1 ≤ w) : (1#w).toNat = 1 := by
  rw [BitVec.toNat_ofNat, Nat.mod_eq_of_lt (Nat.one_lt_two_pow (by omega))]

/-- Over at least two bits `1 / 11…1` is 0 unsigned and `-1` signed. -/
theorem sdiv_ne_udiv {w : Nat} (hw : 2 ≤ w) :
    (1#w).smtSDiv (BitVec.allOnes w) ≠ VArith.div.eval false 1#w (BitVec.allOnes w) := by
  have hsigned : (1#w).smtSDiv (BitVec.allOnes w) = BitVec.allOnes w := by
    rw [smtSDiv_eq_ofInt _ (allOnes_ne_zero (by omega)), BitVec.toInt_one (by omega),
      toInt_allOnes_of_pos (by omega), show (1 : Int).tdiv (-1) = -1 from rfl,
      ← toInt_allOnes_of_pos (show 1 ≤ w by omega), BitVec.ofInt_toInt]
  have hunsigned : VArith.div.eval false 1#w (BitVec.allOnes w) = 0#w := by
    simp only [VArith.eval, Bool.false_eq_true, if_false, toNat_one (show 1 ≤ w by omega)]
    rw [Nat.div_eq_of_lt (one_lt_allOnes hw)]
  rw [hsigned, hunsigned]
  exact allOnes_ne_zero (by omega)

/-- Over at least two bits `1 % 11…1` is 1 unsigned and 0 signed. -/
theorem srem_ne_umod {w : Nat} (hw : 2 ≤ w) :
    (1#w).srem (BitVec.allOnes w) ≠ VArith.mod.eval false 1#w (BitVec.allOnes w) := by
  have hsigned : (1#w).srem (BitVec.allOnes w) = 0#w := by
    rw [srem_eq_ofInt, BitVec.toInt_one (by omega), toInt_allOnes_of_pos (by omega)]
    rfl
  have hunsigned : VArith.mod.eval false 1#w (BitVec.allOnes w) = 1#w := by
    simp only [VArith.eval, Bool.false_eq_true, if_false, toNat_one (show 1 ≤ w by omega)]
    rw [Nat.mod_eq_of_lt (one_lt_allOnes hw)]
  rw [hsigned, hunsigned]
  intro h
  have := congrArg BitVec.toNat h
  rw [toNat_one (by omega), BitVec.toNat_zero] at this
  omega

/-- Shifting all ones right by one keeps the top bit only arithmetically. -/
theorem ashr_ne_lshr {w : Nat} (hw : 1 ≤ w) :
    (BitVec.allOnes w).sshiftRight (1#w).toNat ≠
      VShift.sshr.eval false (BitVec.allOnes w) 1#w := by
  intro h
  have hmsb := congrArg BitVec.msb h
  simp only [VShift.eval, Bool.false_eq_true, if_false, toNat_one hw, BitVec.msb_sshiftRight,
    BitVec.msb_ushiftRight, BitVec.msb_allOnes (show 0 < w by omega)] at hmsb
  simp at hmsb

/-- What the agreement on all operands forces. -/
theorem operAgrees_of_denotes {c : Char} {e : EmittedOper} (hc : emittedOper c = some e)
    {signed1 signed2 : Bool} {w v : Nat} (hw : 1 ≤ w) (heq : e.op.isShift = false → v = w)
    (h : ∀ (ρ : Valuation) (s t : TermT) (x : BitVec w) (y : BitVec v), Denotes ρ s x →
      Denotes ρ t y → (e.op.isDivision = true → y ≠ 0#v) →
      Denotes ρ ((emitExprBinary c signed1 signed2).evalTerm s t)
        (e.eval signed1 signed2 x y)) :
    OperAgrees e.op signed1 signed2 w v := by
  -- the operands that tell the operators apart are constants
  have hconst := fun (x : BitVec w) (y : BitVec v) =>
    h Valuation.zero (mkConst x) (mkConst y) x y rfl rfl
  unfold emittedOper at hc
  split at hc <;> cases hc
  all_goals
    simp only [EmittedOper.op, EmittedOper.eval, VBinop.eval, OperAgrees, VBinop.isDivision,
      VBinop.isShift, forall_const] at *
  case h_4 =>
    subst heq
    by_contra hnot
    obtain ⟨hsig, hone⟩ := not_or.mp hnot
    rw [Bool.not_eq_true] at hsig
    have hwide : 2 ≤ v := by omega
    have hval := hconst 1#v (BitVec.allOnes v) (allOnes_ne_zero hw)
    rw [BitVec.setWidth_eq, hsig] at hval
    exact sdiv_ne_udiv hwide
      (((denotes_const _ _).op2 .sdiv (denotes_const _ _)).inj hval)
  case h_5 =>
    subst heq
    by_contra hnot
    obtain ⟨hsig, hone⟩ := not_or.mp hnot
    rw [Bool.not_eq_true] at hsig
    have hwide : 2 ≤ v := by omega
    have hval := hconst 1#v (BitVec.allOnes v) (allOnes_ne_zero hw)
    rw [BitVec.setWidth_eq, hsig] at hval
    exact srem_ne_umod hwide
      (((denotes_const _ _).op2 .srem (denotes_const _ _)).inj hval)
  case h_18 =>
    exact (denotes_const _ _).op2_width (denotes_const _ _) (hconst 0 0 (by simp))
  case h_19 =>
    exact (denotes_const _ _).op2_width (denotes_const _ _) (hconst 0 0 (by simp))
  case h_20 =>
    have hwidth : v = w :=
      (denotes_const _ _).op2_width (denotes_const _ _) (hconst 0 0 (by simp))
    subst hwidth
    refine ⟨?_, rfl⟩
    by_contra hsig
    rw [Bool.not_eq_true] at hsig
    have hval := hconst (BitVec.allOnes v) 1#v (by simp)
    rw [hsig] at hval
    exact ashr_ne_lshr hw
      (((denotes_const _ _).op2 .ashr (denotes_const _ _)).inj hval)

/-- **Binary operators.** On operands of widths `w` and `v` (equal unless the
operator is a shift) the term `eval_term` builds exists and denotes the value of
the emitted operator, for all operand values with a nonzero divisor, exactly
when `OperAgrees`. -/
theorem binary_denotes_iff {c : Char} {e : EmittedOper} (hc : emittedOper c = some e)
    (signed1 signed2 : Bool) {w v : Nat} (hw : 1 ≤ w) (heq : e.op.isShift = false → v = w) :
    (∀ (ρ : Valuation) (s t : TermT) (x : BitVec w) (y : BitVec v), Denotes ρ s x →
        Denotes ρ t y → (e.op.isDivision = true → y ≠ 0#v) →
        Denotes ρ ((emitExprBinary c signed1 signed2).evalTerm s t)
          (e.eval signed1 signed2 x y)) ↔
      OperAgrees e.op signed1 signed2 w v :=
  ⟨operAgrees_of_denotes hc hw heq, fun h _ _ _ _ _ hs ht hdiv =>
    binary_denotes hc heq h hs ht hdiv⟩

/-- Unsigned 32-bit division is such an operator, and the condition fails. -/
theorem binary_denotes_iff_div :
    (∀ (ρ : Valuation) (s t : TermT) (x y : BitVec 32), Denotes ρ s x → Denotes ρ t y →
        ((VBinop.arith .div).isDivision = true → y ≠ 0#32) →
        Denotes ρ ((emitExprBinary '/' false false).evalTerm s t)
          ((EmittedOper.plain (.arith .div)).eval false false x y)) ↔ False :=
  (binary_denotes_iff (show emittedOper '/' = some (.plain (.arith .div)) from rfl) false false
    (by decide) fun _ => rfl).trans (by simp [OperAgrees, EmittedOper.op])

/-- `32'h80000000 / 2` on unsigned operands: Verilog gives `40000000`, the term
`c0000000`. -/
theorem unsigned_div_differs :
    ∃ (ρ : Valuation) (s t : TermT), Denotes ρ s 0x80000000#32 ∧ Denotes ρ t 2#32 ∧
      Denotes ρ ((emitExprBinary '/' false false).evalTerm s t) 0xc0000000#32 ∧
      (EmittedOper.plain (.arith .div)).eval false false 0x80000000#32 2#32 = 0x40000000#32 ∧
      ¬ Denotes ρ ((emitExprBinary '/' false false).evalTerm s t)
        ((EmittedOper.plain (.arith .div)).eval false false 0x80000000#32 2#32) := by
  have hterm : Denotes Valuation.zero
      ((emitExprBinary '/' false false).evalTerm (mkConst 0x80000000#32) (mkConst 2#32))
      0xc0000000#32 := by
    have hval : Op2.sdiv.apply 0x80000000#32 2#32 = 0xc0000000#32 := by decide
    exact hval ▸ (denotes_const _ _).op2 .sdiv (denotes_const _ _)
  have hverilog :
      (EmittedOper.plain (.arith .div)).eval false false 0x80000000#32 2#32 =
        0x40000000#32 :=
    rfl
  refine ⟨Valuation.zero, mkConst 0x80000000#32, mkConst 2#32, rfl, rfl, hterm, hverilog, ?_⟩
  rw [hverilog]
  intro h
  exact absurd (hterm.inj h) (by decide)

end Conquest
