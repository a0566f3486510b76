import Conquest.Smt.EmitExpr

/-!
# ExprMeaning — what the terms of expressions are

Verilog pads the operands of an expression to one width, which the terms do not
have. The lowest bits of sums and of bitwise operations are those of the padded
operands, while comparisons and shifts to the right need all bits. A checker
finds the width of the term of an expression and whether the bits above it are
zero, and refuses what does not come out right.
-/

namespace Conquest

open Bv Digits Text

variable {S : Type} {decl : S → SigDecl}

/-! ## Values -/

/-- The contents of the signals; those of an array by the number of the element. -/
structure Contents (decl : S → SigDecl) where
  vec : ∀ s, BitVec (decl s).width
  elem : ∀ s, Nat → BitVec (decl s).width

/-- The current versions have the contents. -/
structure Contents.Carried (σ : Contents decl) (ρ : Valuation) (st : SigState S) : Prop where
  vec : ∀ s, (decl s).isArray = false → Denotes ρ (sigTerm decl st s .curr) (σ.vec s)
  elem : ∀ s, (decl s).isArray = true → ∃ f : BitVec (decl s).indexWidth → BitVec (decl s).width,
    denote ρ (sigTerm decl st s .curr) = some ⟨.fn (decl s).indexWidth (decl s).width, f⟩ ∧
      ∀ i < 2 ^ (decl s).indexWidth, f (BitVec.ofNat _ i) = σ.elem s i

/-- A value of `v` bits at `w` bits. -/
def resize (signed : Bool) (v w n : Nat) : Nat :=
  if signed then ((BitVec.ofNat v n).signExtend w).toNat else n % 2 ^ w

section Value

variable (σ : Contents decl)

/-- The value of an offset. -/
def SelExpr.value : SelExpr S → Option Int
  | .number value => some value
  | .signal s => some (σ.vec s).toNat
  | .other => none

/-- The value of a select from `n`, of `v` bits. Bits outside are unknown. -/
def selectValue (selExpr : Option (SelExpr S)) (signed : Bool) (v w n : Nat) : Option Nat :=
  match selExpr with
  | none => some (resize signed v w n)
  | some e => do
      let offset ← e.value σ
      if InVector v offset w then some ((n >>> offset.toNat) % 2 ^ w) else none

/-- The value of an index. -/
def IndexExpr.value : IndexExpr S → Option Int
  | .number bits isSigned => int64FromNumber bits isSigned
  | .select expr1 selExpr width =>
      (selectValue σ selExpr false (decl expr1).width width (σ.vec expr1).toNat).map Int.ofNat
  | .binary _ _ _ _ _ => none

/-- The value of an operator with one operand. -/
def unaryValue (opcode : Char) {w : Nat} (a : BitVec w) : Option Nat :=
  match opcode with
  | '-' => some (-a).toNat
  | '~' => some (~~~a).toNat
  | '&' => some (Red.and.apply a).toNat
  | 'A' => some (~~~Red.and.apply a).toNat
  | '|' => some (Red.or.apply a).toNat
  | 'N' | '!' => some (~~~Red.or.apply a).toNat
  | _ => none

/-- The value of an operator with two operands; a division by zero has none. -/
def binaryValue (opcode : Char) (signed1 signed2 : Bool) {w v : Nat} (a : BitVec w)
    (b : BitVec v) : Option Nat :=
  match opcode with
  | 'a' => some (if a ≠ 0 ∧ b ≠ 0 then 1 else 0)
  | 'o' => some (if a ≠ 0 ∨ b ≠ 0 then 1 else 0)
  | _ => do
      let e ← emittedOper opcode
      if e.op.isDivision ∧ b = 0 then none else some (e.eval signed1 signed2 a b).toNat

/-- The width of the result. -/
def binaryWidth (opcode : Char) (w : Nat) : Nat :=
  match opcode with
  | 'a' | 'o' => 1
  | _ => ((emittedOper opcode).map fun e => e.op.width w).getD w

variable (decl) in
mutual

/-- The width that Verilog gives the expression. -/
def IvlExpr.width : IvlExpr S → Nat
  | .number bits _ => bits.length
  | .string _ => 0
  | .signal s _ | .element s _ _ => (decl s).width
  | .select _ _ width _ => width
  | .unary opcode e _ => if opcode = '-' ∨ opcode = '~' then e.width else 1
  | .binary opcode e _ _ => binaryWidth opcode e.width
  | .ternary _ e e' _ => max e.width e'.width
  | .concat rep es => IvlExpr.parmsWidth es * rep

def IvlExpr.parmsWidth : List (IvlExpr S) → Nat
  | [] => 0
  | e :: es => e.width + IvlExpr.parmsWidth es

end

mutual

/-- The value that Verilog gives the expression, if none of it is unknown. -/
def IvlExpr.value : IvlExpr S → Option Nat
  | .number bits _ => if Known bits then some (Digits.toNat bits) else none
  | .string _ => none
  | .signal s _ => some (σ.vec s).toNat
  | .element s index _ => do
      let i ← index.value σ
      if 0 ≤ i ∧ i < (decl s).indexCount then some (σ.elem s i.toNat).toNat else none
  | .select e selExpr width isSigned => do
      selectValue σ selExpr isSigned (e.width decl) width (← e.value)
  | .unary opcode e _ => do unaryValue opcode (BitVec.ofNat (e.width decl) (← e.value))
  | .binary opcode e e' _ => do
      let a ← e.value
      let b ← e'.value
      binaryValue opcode e.signed e'.signed (BitVec.ofNat (e.width decl) a)
        (BitVec.ofNat (e'.width decl) b)
  | .ternary c e e' _ => do
      let i ← c.value
      let a ← e.value
      let b ← e'.value
      some (if i ≠ 0 then a else b)
  | .concat rep es => do
      some ((BitVec.ofNat (IvlExpr.parmsWidth decl es) (← IvlExpr.parmsValue es)).replicate
        rep).toNat

/-- The first of the parameters is the highest. -/
def IvlExpr.parmsValue : List (IvlExpr S) → Option Nat
  | [] => some 0
  | e :: es => do
      let a ← e.value
      let b ← IvlExpr.parmsValue es
      some (a * 2 ^ IvlExpr.parmsWidth decl es + b)

end

end Value

/-! ## Shapes -/

/-- What is known of the term of an expression: its width, and whether the value
has no bits above it. -/
structure Shape where
  width : Nat
  exact : Bool
  deriving DecidableEq, Repr

/-- The term of an operator, from those of operands whose own widths are `w₁` and
`w₂`. -/
def binaryShape (opcode : Char) (signed1 signed2 : Bool) (w₁ w₂ : Nat) (a b : Shape) :
    Option Shape :=
  match opcode with
  | '+' | '-' | '*' | 'X' | 'A' | 'O' =>
      if a.width = b.width then some ⟨a.width, a.width = w₁⟩ else none
  | '&' | '|' | '^' =>
      if a.width = b.width then some ⟨a.width, a.width = w₁ || (a.exact && b.exact)⟩ else none
  | '/' | '%' =>
      if a.width = w₁ ∧ b.width = w₁ ∧ w₂ = w₁ ∧ ((signed1 && signed2) = true ∨ w₁ = 1) then
        some ⟨a.width, true⟩
      else none
  | 'e' | 'n' => if a.width = b.width ∧ a.exact ∧ b.exact then some ⟨1, true⟩ else none
  | '<' | 'L' | '>' | 'G' =>
      if a.width = b.width ∧ a.exact ∧ b.exact ∧
        ((signed1 && signed2) = true → a.width = w₁ ∧ w₂ = w₁) then some ⟨1, true⟩
      else none
  | 'a' | 'o' => if a = ⟨1, true⟩ ∧ b = ⟨1, true⟩ then some ⟨1, true⟩ else none
  | 'l' => if a.width = b.width ∧ b.exact then some ⟨a.width, a.width = w₁⟩ else none
  | 'r' => if a.width = b.width ∧ a.exact ∧ b.exact then some ⟨a.width, true⟩ else none
  | 'R' =>
      if a.width = b.width ∧ b.exact ∧ signed1 ∧ a.width = w₁ then some ⟨a.width, true⟩ else none
  | _ => none

/-- The term of an operator with one operand, whose own width is `w`. -/
def unaryShape (opcode : Char) (w : Nat) (a : Shape) : Option Shape :=
  match opcode with
  | '-' | '~' => some ⟨a.width, a.width = w⟩
  | '&' | 'A' => if a.width = w then some ⟨1, true⟩ else none
  | '|' | 'N' | '!' => if a.exact then some ⟨1, true⟩ else none
  | _ => none

section Shape

variable (decl) (ranges : ∀ s, SigRange (decl s).width) (bases : S → Int)

/-- The signal whose `SMTSignal` stands for the expression. -/
def signalOf : IvlExpr S → Option S
  | .signal s _ => some s
  | .select (.element _ _ _) _ _ _ => none
  | .select e _ _ _ => signalOf e
  | _ => none

/-- Reads of the array take the element of a constant index. -/
def elementShape (s : S) (index : IndexExpr S) : Option Shape :=
  let d := decl s
  if d.isArray ∧ d.indexCount ≤ 2 ^ d.indexWidth ∧ d.indexCount < 2 ^ 31 then
    match index with
    | .number _ _ => if (2 ^ d.indexWidth : Int) ∣ bases s then some ⟨d.width, true⟩ else none
    | .select i none width =>
        if (decl i).isArray = false ∧ (decl i).width = d.indexWidth ∧ d.indexWidth ≤ width then
          some ⟨d.width, true⟩
        else none
    | _ => none
  else none

/-- A select of a vector, at bit zero of the declaration or of all of it. -/
def selectShape (s : S) (selExpr : Option (SelExpr S)) (width : Nat) (isSigned : Bool) :
    Option Shape :=
  let w := (decl s).width
  let range := ranges s
  if (decl s).isArray = false ∧ 0 < width ∧ range.lsb ≤ range.msb then
    match selExpr with
    | none =>
        if width < w then (if range.lsb = 0 then some ⟨width, true⟩ else none)
        else some ⟨w, !isSigned || width = w⟩
    | some (.number _) => if range.lsb = 0 ∨ width = w then some ⟨width, true⟩ else none
    | some (.signal i) =>
        if w = 1 ∧ width = 1 ∧ (decl i).isArray = false then some ⟨1, true⟩ else none
    | some .other => none
  else none

/-- A constant as the second operand. -/
def oper2Shape (opcode : Char) (oper1 oper2 : IvlExpr S) (b : Option Shape) : Option Shape :=
  match narrowOper2 opcode, signalOf oper1, oper2 with
  | some (some _), some s, .number bits _ =>
      let w := (decl s).width
      if bits.length ≤ w then b
      else if 2 * w ≤ bits.length then some ⟨w, Digits.toNat bits < 2 ^ w⟩
      else none
  | _, _, _ => b

mutual

/-- The shape of the term; none is for what is not emitted, or not right. -/
def IvlExpr.shape : IvlExpr S → Option Shape
  | .number bits _ => if bits = [] then none else some ⟨bits.length, true⟩
  | .string _ => none
  | .signal s _ =>
      if (decl s).isArray = false ∧ (ranges s).lsb ≤ (ranges s).msb then
        some ⟨(decl s).width, true⟩
      else none
  | .element s index _ => elementShape decl bases s index
  | .select (.signal s _) selExpr width isSigned => selectShape decl ranges s selExpr width isSigned
  | .select (.element _ _ _) _ _ _ => none
  | .select e selExpr width isSigned => do
      let a ← e.shape
      if selExpr.isNone ∧ a.width ≤ width then
        some ⟨a.width, a.exact && (!isSigned || width ≤ e.width decl)⟩
      else none
  | .unary opcode e _ => do unaryShape opcode (e.width decl) (← e.shape)
  | .binary opcode e e' _ => do
      let a ← e.shape
      let b ← oper2Shape decl opcode e e' e'.shape
      binaryShape opcode e.signed e'.signed (e.width decl) (e'.width decl) a b
  | .ternary c e e' _ => do
      let i ← c.shape
      let a ← e.shape
      let b ← e'.shape
      if i = ⟨1, true⟩ ∧ a.width = b.width then some ⟨a.width, a.exact && b.exact⟩ else none
  | .concat rep es =>
      if es ≠ [] ∧ 0 < rep ∧ IvlExpr.parmsFull es then
        some ⟨IvlExpr.parmsWidth decl es * rep, true⟩
      else none

/-- The terms of the parameters have all of their bits. -/
def IvlExpr.parmsFull : List (IvlExpr S) → Bool
  | [] => true
  | e :: es => e.shape.map Shape.width == some (e.width decl) && IvlExpr.parmsFull es

end

end Shape

end Conquest
