import Conquest.Lib.Text
import Conquest.Smt.Binary
import Conquest.Smt.SigCore

/-!
# Expr — expressions and their solver terms

`SMTExpr` with its classes: leaves (strings, numbers, signals, array elements)
and nodes, whose class decides how the terms of `expr_list` are combined.
`eval_term` builds the term for the current or the next versions of the signals.
Here a term is always built afresh; the terms that the objects remember under
`is_term_eval_needed` are the subject of `Cache`.
-/

namespace Conquest

open Bv Text

/-! ## Operators of the nodes -/

/-- The one-argument solver functions that `SMTUnary::set_opcode` stores. -/
inductive TermFn1 where
  | op (f : Op1)
  | red (f : Red)
  deriving DecidableEq, Repr

def TermFn1.call : TermFn1 → TermT → TermT
  | .op f, t => mkOp1 f t
  | .red f, t => mkRed f t

/-- The attributes of an `SMTUnary`. -/
structure SMTUnary where
  opcode : String
  func : Option TermFn1
  isInverted : Bool
  deriving DecidableEq, Repr

namespace SMTUnary

/-- The constructor. -/
def new : SMTUnary where
  opcode := "invalid"
  func := none
  isInverted := false

/-- `set_opcode`; `^` and `X` end the program in `error`. -/
def setOpcode (u : SMTUnary) : Char → Option SMTUnary
  | '-' => some { u with opcode := "bv-neg", func := some (.op .neg) }
  | '~' => some { u with opcode := "bv-not", func := some (.op .not) }
  | '&' => some { u with opcode := "bv-redand", func := some (.red .and) }
  | '|' => some { u with opcode := "bv-redor", func := some (.red .or) }
  | '^' => none
  | 'A' => some { u with opcode := "bv-redand", func := some (.red .and), isInverted := true }
  | '!' => some { u with opcode := "bv-redor", func := some (.red .or), isInverted := true }
  | 'N' => some { u with opcode := "bv-redor", func := some (.red .or), isInverted := true }
  | 'X' => none
  | _ => some u

def evalTerm (u : SMTUnary) (t : TermT) : TermT :=
  match u.func with
  | none => none
  | some f => if u.isInverted then mkOp1 .not (f.call t) else f.call t

end SMTUnary

/-- The attributes of an `SMTLogic`; `get_opcode`, which printing calls, sets
`func` from the other two. -/
structure SMTLogic where
  opcode : Char
  isInverted : Bool
  func : Option Op2
  deriving DecidableEq, Repr

namespace SMTLogic

/-- `set_opcode` followed by `get_opcode`; `none` is its `error`. -/
def ofOpcode (ivlCode : Char) (isInverted : Bool) : Option SMTLogic :=
  match ivlCode with
  | '&' => some ⟨'&', isInverted, some (if isInverted then .nand else .and)⟩
  | '|' => some ⟨'|', isInverted, some (if isInverted then .nor else .or)⟩
  | '^' => some ⟨'^', isInverted, some (if isInverted then .xnor else .xor)⟩
  | _ => none

def evalTerm (l : SMTLogic) (s t : TermT) : TermT :=
  match l.func with
  | none => none
  | some f => mkOp2 f s t

end SMTLogic

/-- The operands an `SMTCust` is created with: `and`, `/=` and `true`. -/
inductive CustOperand where
  | and | ne | true
  deriving DecidableEq, Repr

/-- The class of a node with the attributes that decide its term. -/
inductive SMTClass where
  | concat (rep : Nat)
  | custom (operand : CustOperand)
  | unary (u : SMTUnary)
  | binary (b : SMTBinary)
  | logic (l : SMTLogic)
  | ternary
  deriving DecidableEq, Repr

/-- `eval_term` of a node from the terms of its `expr_list`; there is no term
when operands are missing. -/
def SMTClass.evalTerm : SMTClass → List TermT → TermT
  | .concat rep, ts => if rep ≠ 1 then mkRep rep (mkConcat ts) else mkConcat ts
  | .custom .and, ts => mkAnd ts
  | .custom .ne, a :: b :: _ => mkNeq a b
  | .custom .true, _ => mkBool true
  | .unary u, a :: _ => u.evalTerm a
  | .binary b, a :: c :: _ => b.evalTerm a c
  | .logic l, a :: c :: _ => l.evalTerm a c
  | .ternary, c :: a :: b :: _ => mkIte (mkEq c (mkConst 1#1)) a b
  | _, _ => none

/-! ## Expressions -/

/-- `SMTNumber`: its digits, most significant first. -/
structure SMTNumber where
  valueBin : Line
  deriving DecidableEq, Repr

/-- `yices_parse_bvbin`. -/
def parseBvbin (bits : Line) : TermT :=
  if bits ≠ [] ∧ ∀ c ∈ bits, c = '0' ∨ c = '1' then
    mkConst (BitVec.ofNat bits.length (bits.foldl (fun n c => 2 * n + if c = '1' then 1 else 0) 0))
  else none

/-- `SMTSignal`: a signal, or the bits `msb` to `lsb` of it. -/
structure SMTSignal (S : Type) where
  parent : S
  msb : Int
  lsb : Int
  isIndexTerm : Bool
  deriving DecidableEq, Repr

/-- `SMTArray`: an element of an array, at a constant index or at the value of
a signal. -/
structure SMTArray (S : Type) where
  parent : S
  isIndexTerm : Bool
  indexTerm : S
  arrayIndex : Nat
  deriving DecidableEq, Repr

inductive SMTLeaf (S : Type) where
  | string (str : String)
  | unspecified
  | number (n : SMTNumber)
  | signal (sig : SMTSignal S)
  | array (arr : SMTArray S)
  deriving DecidableEq, Repr

/-- `SMTExpr`: the operands of a node are its `expr_list`. -/
inductive SMTExpr (S : Type) where
  | leaf (l : SMTLeaf S)
  | node (cls : SMTClass) (exprList : List (SMTExpr S))

namespace SMTExpr

variable {S : Type}

/-- Induction over an expression, with the hypothesis for all operands. -/
theorem induct {motive : SMTExpr S → Prop} (hleaf : ∀ l, motive (.leaf l))
    (hnode : ∀ cls es, (∀ e ∈ es, motive e) → motive (.node cls es)) (e : SMTExpr S) :
    motive e :=
  @SMTExpr.rec S motive (fun es => ∀ e ∈ es, motive e) hleaf hnode
    (fun _ h => absurd h List.not_mem_nil)
    (fun _ _ he hes => List.forall_mem_cons.mpr ⟨he, hes⟩) e

end SMTExpr

/-! ## Terms of expressions -/

section EvalTerm

variable {S : Type} (decl : S → SigDecl) (st : SigState S)

/-- The term of a version of a signal. -/
def sigTerm (s : S) (clk : SMTClkType) : TermT :=
  match (st.core s).getTerm clk with
  | none => none
  | some id => mkVar (decl s).bvType id

/-- `yices_bvextract(t, lo, hi)` with the indices as the source passes them. -/
def bvextract (lo hi : Int) (t : TermT) : TermT :=
  if 0 ≤ lo ∧ lo ≤ hi then mkExtract lo.toNat hi.toNat t else none

/-- The signal is used as a whole: its bounds span the width. -/
def SMTSignal.isWhole (sig : SMTSignal S) : Prop :=
  sig.msb - sig.lsb = (decl sig.parent).width - 1

instance (sig : SMTSignal S) : Decidable (sig.isWhole decl) :=
  inferInstanceAs (Decidable (_ = _))

def SMTSignal.evalTerm (sig : SMTSignal S) (clk : SMTClkType) : TermT :=
  if ¬ sig.isWhole decl ∧ sig.isIndexTerm = false then
    bvextract sig.lsb sig.msb (sigTerm decl st sig.parent clk)
  else sigTerm decl st sig.parent clk

def SMTArray.evalTerm (arr : SMTArray S) (clk : SMTClkType) : TermT :=
  if arr.isIndexTerm then
    mkApp (sigTerm decl st arr.parent clk) (sigTerm decl st arr.indexTerm .curr)
  else
    mkApp (sigTerm decl st arr.parent clk)
      (mkConst (BitVec.ofNat (decl arr.parent).indexWidth arr.arrayIndex))

def SMTLeaf.evalTerm (clk : SMTClkType) : SMTLeaf S → TermT
  | .string _ => none
  | .unspecified => none
  | .number n => parseBvbin n.valueBin
  | .signal sig => sig.evalTerm decl st clk
  | .array arr => arr.evalTerm decl st clk

mutual

def SMTExpr.evalTerm (clk : SMTClkType) : SMTExpr S → TermT
  | .leaf l => l.evalTerm decl st clk
  | .node cls es => cls.evalTerm (SMTExpr.evalTerms clk es)

def SMTExpr.evalTerms (clk : SMTClkType) : List (SMTExpr S) → List TermT
  | [] => []
  | e :: es => e.evalTerm clk :: SMTExpr.evalTerms clk es

end

theorem SMTExpr.evalTerms_eq_map (clk : SMTClkType) (es : List (SMTExpr S)) :
    SMTExpr.evalTerms decl st clk es = es.map (SMTExpr.evalTerm decl st clk) := by
  induction es with
  | nil => rfl
  | cons e es ih => rw [SMTExpr.evalTerms, ih, List.map_cons]

theorem SMTExpr.evalTerm_node (clk : SMTClkType) (cls : SMTClass) (es : List (SMTExpr S)) :
    (SMTExpr.node cls es).evalTerm decl st clk =
      cls.evalTerm (es.map (SMTExpr.evalTerm decl st clk)) := by
  rw [SMTExpr.evalTerm, SMTExpr.evalTerms_eq_map]

/-- The term of an expression is made of the current terms of the signals. -/
theorem SMTExpr.evalTerm_of_sigTerm {st st' : SigState S}
    (h : ∀ s, sigTerm decl st' s .curr = sigTerm decl st s .curr) (e : SMTExpr S) :
    e.evalTerm decl st' .curr = e.evalTerm decl st .curr := by
  induction e using SMTExpr.induct with
  | hleaf l =>
      cases l with
      | string str => rfl
      | unspecified => rfl
      | number n => rfl
      | signal sig => simp only [SMTExpr.evalTerm, SMTLeaf.evalTerm, SMTSignal.evalTerm, h]
      | array arr => simp only [SMTExpr.evalTerm, SMTLeaf.evalTerm, SMTArray.evalTerm, h]
  | hnode cls es ih =>
      rw [SMTExpr.evalTerm_node, SMTExpr.evalTerm_node, List.map_congr_left ih]

end EvalTerm

end Conquest
