import Mathlib.Data.Nat.Log
import Conquest.Smt.Expr

/-!
# Assign — the constraint of a record

`SMTAssign::update_term` makes the next version of the assigned signal and
returns the constraint that ties it to the right-hand side, read in the current
versions; a blocking assignment commits at once. A bit written through an index
uses a mask, and an equation for its term goes into the context on the side. The
term of a branch compares its condition with the value of the arm.
-/

namespace Conquest

open Bv Text

inductive SMTAssignType where
  | blocking | nonBlocking | branch
  deriving DecidableEq, Repr

/-- The left-hand side of an assignment; `index` is the expression that selects
the bit or the element written. -/
inductive SMTLval (S : Type) where
  | signal (sig : SMTSignal S) (index : Option (SMTExpr S))
  | array (arr : SMTArray S) (index : SMTExpr S)

/-- `get_lval_sig_core`. -/
def SMTLval.parent {S : Type} : SMTLval S → S
  | .signal sig _ => sig.parent
  | .array arr _ => arr.parent

/-- What a record stands for: an assignment, or the arm of a branch with its
condition. -/
inductive SMTTarget (S : Type) where
  | assign (isCommit : Bool) (lval : SMTLval S)
  | branch (lval : SMTExpr S)

/-- An `SMTAssign`. -/
structure SMTAssign (S : Type) where
  id : Nat
  target : SMTTarget S
  rval : SMTExpr S
  /-- The process and the block it was created in. -/
  process : Nat
  block : Nat

namespace SMTAssign

variable {S : Type}

/-- `assign_type`: only a blocking assignment has `is_commit`. -/
def assignType (a : SMTAssign S) : SMTAssignType :=
  match a.target with
  | .assign true _ => .blocking
  | .assign false _ => .nonBlocking
  | .branch _ => .branch

def isBranch (a : SMTAssign S) : Bool :=
  match a.target with
  | .branch _ => true
  | .assign _ _ => false

end SMTAssign

/-- The outcome of `update_term`: the versions, the returned term, the term of
the version that was written, and what was asserted on the side. -/
structure Update (S : Type) where
  st : SigState S
  term : TermT
  written : Option Nat
  side : List TermT

section UpdateTerm

variable {S : Type} [DecidableEq S] (decl : S → SigDecl)

/-- `mask`: a new term, shifted by the index. -/
def bitMask (sig : SMTSignal S) (index : Option (SMTExpr S)) (st : SigState S) : TermT :=
  let width := (decl sig.parent).width
  let tmpIndex :=
    match index with
    | none => none
    | some e => e.evalTerm decl st .curr
  mkOp2 .shl (mkVar (.bv width) st.fresh) (mkZeroExtend (width - Nat.clog 2 width) tmpIndex)

/-- The bit write `lval[index] = n`. On the side the term that the mask shifts is
compared with the width as a number of one bit, which the solver refuses where the
signal is wider. -/
def bitWrite (sig : SMTSignal S) (index : Option (SMTExpr S)) (n : SMTNumber)
    (st : SigState S) : Update S :=
  let width := (decl sig.parent).width
  let mask := bitMask decl sig index st
  let lvalTerm := sig.evalTerm decl st .next
  { st := { st with fresh := st.fresh + 1 }
    term :=
      if n.valueBin = ['0'] then mkOp2 .and lvalTerm (mkOp1 .not mask)
      else if n.valueBin = ['1'] then mkOp2 .or lvalTerm mask
      else none
    written := (st.core sig.parent).getTerm .next
    side := [mkEq (mkVar (.bv width) st.fresh) (mkConst (BitVec.ofNat 1 width))] }

/-- The equality of an assignment to a signal, whose next version `st` has. -/
def signalWrite (sig : SMTSignal S) (rval : SMTExpr S) (st : SigState S) : Update S where
  st := st
  term := mkEq (sig.evalTerm decl st .next) (rval.evalTerm decl st .curr)
  written := (st.core sig.parent).getTerm .next
  side := []

/-- The constraint on the next version of a signal. -/
def constrain (sig : SMTSignal S) (index : Option (SMTExpr S)) (rval : SMTExpr S)
    (st : SigState S) : Update S :=
  match rval, sig.isIndexTerm with
  | .leaf (.number n), true => bitWrite decl sig index n st
  | _, _ => signalWrite decl sig rval st

omit [DecidableEq S] in
theorem constrain_of_whole {sig : SMTSignal S} (h : sig.isIndexTerm = false)
    (index : Option (SMTExpr S)) (rval : SMTExpr S) (st : SigState S) :
    constrain decl sig index rval st = signalWrite decl sig rval st := by
  unfold constrain
  split
  · rename_i hindex
    rw [h] at hindex
    cases hindex
  · rfl

/-- `update_term` of an assignment to an array: a new function that differs from
the current one in one element. -/
def arrayWrite (arr : SMTArray S) (index rval : SMTExpr S) (st : SigState S) : Update S :=
  let r := st.arrayUpdateTerm arr.parent
  { st := r.1.commit arr.parent
    term :=
      mkEq (mkVar (decl arr.parent).bvType r.2)
        (mkUpdate (sigTerm decl r.1 arr.parent .curr) (index.evalTerm decl r.1 .curr)
          (rval.evalTerm decl r.1 .curr))
    written := some r.2
    side := [] }

/-- `SMTAssign::update_term` and `SMTBranch::update_term`. -/
def SMTAssign.updateTerm (a : SMTAssign S) (st : SigState S) : Update S :=
  match a.target with
  | .assign isCommit (.signal sig index) =>
      let u := constrain decl sig index a.rval (st.updateNextVersion sig.parent)
      if isCommit then { u with st := u.st.commit sig.parent } else u
  | .assign _ (.array arr index) => arrayWrite decl arr index a.rval st
  | .branch lval =>
      { st := st
        term := mkEq (lval.evalTerm decl st .curr) (a.rval.evalTerm decl st .curr)
        written := none
        side := [] }

end UpdateTerm

end Conquest
