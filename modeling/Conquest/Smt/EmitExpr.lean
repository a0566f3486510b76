import Conquest.Smt.ArrayIndex
import Conquest.Smt.Compare

/-!
# EmitExpr — expressions of the source

`emit_expr` takes an elaborated expression of Icarus apart and builds an
`SMTExpr`. The padding and the truncation of a subexpression, which Icarus
writes as a select without an offset, are dropped wherever they are not of a
signal, and a constant next to a signal is cut to the signal's width.
-/

namespace Conquest

open Bv Digits Text

/-- `ivl_expr_t`, of the types that `emit_expr` takes. The offset of a select is
there if it is not just padding or truncation. -/
inductive IvlExpr (S : Type) where
  | number (bits : List Digit) (isSigned : Bool)
  | string (str : String)
  | signal (sig : S) (isSigned : Bool)
  /-- A signal with dimensions, at an index. -/
  | element (sig : S) (index : IndexExpr S) (isSigned : Bool)
  | select (oper1 : IvlExpr S) (selExpr : Option (SelExpr S)) (width : Nat) (isSigned : Bool)
  | unary (opcode : Char) (oper1 : IvlExpr S) (isSigned : Bool)
  | binary (opcode : Char) (oper1 oper2 : IvlExpr S) (isSigned : Bool)
  | ternary (oper1 oper2 oper3 : IvlExpr S) (isSigned : Bool)
  | concat (rep : Nat) (parms : List (IvlExpr S))

namespace IvlExpr

variable {S : Type}

/-- `ivl_expr_signed`. -/
def signed : IvlExpr S → Bool
  | number _ isSigned | signal _ isSigned | element _ _ isSigned | select _ _ _ isSigned
  | unary _ _ isSigned | binary _ _ _ isSigned | ternary _ _ _ isSigned => isSigned
  | string _ | concat _ _ => false

/-- Induction over an expression, with the hypothesis for all parameters. -/
theorem induct {motive : IvlExpr S → Prop} (number : ∀ bits sg, motive (.number bits sg))
    (string : ∀ str, motive (.string str)) (signal : ∀ s sg, motive (.signal s sg))
    (element : ∀ s index sg, motive (.element s index sg))
    (select : ∀ e sel w sg, motive e → motive (.select e sel w sg))
    (unary : ∀ c e sg, motive e → motive (.unary c e sg))
    (binary : ∀ c e₁ e₂ sg, motive e₁ → motive e₂ → motive (.binary c e₁ e₂ sg))
    (ternary : ∀ e₁ e₂ e₃ sg, motive e₁ → motive e₂ → motive e₃ → motive (.ternary e₁ e₂ e₃ sg))
    (concat : ∀ rep es, (∀ e ∈ es, motive e) → motive (.concat rep es)) (e : IvlExpr S) :
    motive e :=
  @IvlExpr.rec S motive (fun es => ∀ e ∈ es, motive e) number string signal element select unary
    binary ternary concat (by simp) (fun _ _ he hes => List.forall_mem_cons.mpr ⟨he, hes⟩) e

end IvlExpr

/-! ## The emitters -/

/-- How `emit_expr_binary` narrows a constant that is the second operand of an
operator next to a signal; it has no case for the operators that it does not
know, which end in `error`. -/
def narrowOper2 (opcode : Char) :
    Option (Option (Memory → Line → Nat → Bool → Bool → NumberFields)) :=
  if opcode ∈ ['%', '+', '-', '*', '/'] then some (some emitArithmetic)
  else if opcode ∈ ['&', '|', '^', 'X'] then some none
  else if opcode ∈ ['E', 'e', 'N', 'n', '<', 'L', '>', 'G', 'a', 'o'] then
    some (some emitComparison)
  else if opcode ∈ ['R', 'l', 'r', 'A', 'O'] then some none
  else if opcode = 'p' then some (some emitPower)
  else none

section Emit

variable {S : Type} (decl : S → SigDecl) (ranges : ∀ s, SigRange (decl s).width) (bases : S → Int)
  (m : Memory) (unset : Unset S)

/-- The second operand of `emit_expr_binary`. -/
def emitOper2 (opcode : Char) (expr1 : SMTExpr S) (oper1 oper2 : IvlExpr S)
    (expr2 : Option (SMTExpr S)) : Option (SMTExpr S) :=
  match narrowOper2 opcode, expr1, oper2 with
  | none, _, _ => none
  | some (some narrow), .leaf (.signal sig), .number bits isSigned =>
      let width := (decl sig.parent).width
      let number := narrow m (ivlExprBits bits) width oper1.signed isSigned
      some (.leaf (.number number.toSMTNumber))
  | some _, _, _ => expr2

mutual

/-- `emit_expr`; `none` is an `error` or a failed assertion. -/
def emitExpr : IvlExpr S → Option (SMTExpr S)
  | .number bits _ => some (.leaf (.number (SMTNumber.new bits)))
  | .string str => some (.leaf (.string str))
  | .signal s _ => some (.leaf (.signal (SMTSignal.new (ranges s) s)))
  | .element s index _ =>
      (emitReadIndex decl ranges s (bases s) unset index).map fun (array, _) => .leaf (.array array)
  | .select (.signal s _) selExpr width _ =>
      (emitExprSelect (ranges s) s selExpr width).map fun sig => .leaf (.signal sig)
  | .select (.element _ _ _) _ _ _ => none
  | .select oper1 _ _ _ => emitExpr oper1
  | .unary opcode oper1 _ =>
      if opcode ∈ ['-', '~', '&', '|', '^', 'A', 'N', 'X', '!'] then do
        let u ← SMTUnary.new.setOpcode opcode
        some (.node (.unary u) [← emitExpr oper1])
      else none
  | .binary opcode oper1 oper2 _ =>
      let binary := emitExprBinary opcode oper1.signed oper2.signed
      -- `set_opcode_from_expr` ends in `error`, for `===` and `!==` too
      if binary.opcode = "invalid" then none
      else do
        let expr1 ← emitExpr oper1
        let expr2 ← emitOper2 decl m opcode expr1 oper1 oper2 (emitExpr oper2)
        some (.node (.binary binary) [expr1, expr2])
  | .ternary oper1 oper2 oper3 _ => do
      some (.node .ternary [← emitExpr oper1, ← emitExpr oper2, ← emitExpr oper3])
  | .concat rep parms => do some (.node (.concat rep) (← emitParms parms))

def emitParms : List (IvlExpr S) → Option (List (SMTExpr S))
  | [] => some []
  | e :: es => do some ((← emitExpr e) :: (← emitParms es))

end

end Emit

end Conquest
