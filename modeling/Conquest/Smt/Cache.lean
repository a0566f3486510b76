import Conquest.Smt.Assign

/-!
# Cache — expression objects that remember their term

Every `SMTExpr` object keeps the `yices_term` of its last evaluation, with the
flag `is_term_eval_needed`. A node is evaluated while its flag is up, and takes
over the flags of its operands; the flag of a signal never goes down. So a term
is remembered only where it is the same in all versions, and `eval_term` returns
what building the term afresh would.
-/

namespace Conquest

open Bv

variable {S : Type}

/-! ## The objects -/

/-- An expression with the addresses of its objects. -/
inductive ExprObj (S : Type) where
  | leaf (addr : Nat) (l : SMTLeaf S)
  | node (addr : Nat) (cls : SMTClass) (exprList : List (ExprObj S))

namespace ExprObj

def addr : ExprObj S → Nat
  | leaf addr _ => addr
  | node addr _ _ => addr

mutual

/-- The expression without its addresses. -/
def expr : ExprObj S → SMTExpr S
  | leaf _ l => .leaf l
  | node _ cls es => .node cls (exprs es)

def exprs : List (ExprObj S) → List (SMTExpr S)
  | [] => []
  | e :: es => e.expr :: exprs es

end

theorem exprs_eq_map (es : List (ExprObj S)) : exprs es = es.map expr := by
  induction es with
  | nil => rfl
  | cons e es ih => rw [exprs, ih, List.map_cons]

/-- Induction over an object, with the hypothesis for all operands. -/
theorem induct {motive : ExprObj S → Prop} (hleaf : ∀ addr l, motive (.leaf addr l))
    (hnode : ∀ addr cls es, (∀ e ∈ es, motive e) → motive (.node addr cls es)) (o : ExprObj S) :
    motive o :=
  @ExprObj.rec S motive (fun es => ∀ e ∈ es, motive e) hleaf hnode
    (fun _ h => absurd h List.not_mem_nil)
    (fun _ _ he hes => List.forall_mem_cons.mpr ⟨he, hes⟩) o

/-- The objects are those of the heap, which holds one expression at an address;
several expressions may share an operand. -/
inductive Fits (heap : Nat → SMTExpr S) : ExprObj S → Prop
  | leaf {addr : Nat} {l : SMTLeaf S} (h : heap addr = .leaf l) : Fits heap (.leaf addr l)
  | node {addr : Nat} {cls : SMTClass} {es : List (ExprObj S)}
      (h : heap addr = .node cls (es.map expr)) (hes : ∀ e ∈ es, Fits heap e) :
      Fits heap (.node addr cls es)

theorem Fits.heap_eq {heap : Nat → SMTExpr S} {o : ExprObj S} (h : o.Fits heap) :
    heap o.addr = o.expr := by
  cases h with
  | leaf h => exact h
  | node h hes =>
      rw [expr, exprs_eq_map]
      exact h

end ExprObj

/-! ## Evaluation -/

/-- What an object keeps. -/
structure Cell where
  isTermEvalNeeded : Bool
  yicesTerm : TermT

/-- The fields of the objects, by address. -/
abbrev Cells := Nat → Cell

/-- Objects as their constructor leaves them. -/
def Cells.new : Cells := fun _ => { isTermEvalNeeded := true, yicesTerm := none }

/-- How many operands of `size` the class evaluates. -/
def SMTClass.operandCount (size : Nat) : SMTClass → Nat
  | .concat _ => size
  | .custom .and => size
  | .custom .ne => 2
  | .custom .true => 0
  | .unary _ => 1
  | .binary _ => 2
  | .logic _ => 2
  | .ternary => 3

theorem SMTClass.evalTerm_take (cls : SMTClass) (ts : List TermT) :
    cls.evalTerm (ts.take (cls.operandCount ts.length)) = cls.evalTerm ts := by
  cases cls with
  | concat rep => simp [operandCount]
  | custom operand =>
      cases operand with
      | and => simp [operandCount]
      | ne => rcases ts with _ | ⟨a, _ | ⟨b, ts⟩⟩ <;> rfl
      | true => rfl
  | unary u => rcases ts with _ | ⟨a, ts⟩ <;> rfl
  | binary b => rcases ts with _ | ⟨a, _ | ⟨c, ts⟩⟩ <;> rfl
  | logic l => rcases ts with _ | ⟨a, _ | ⟨c, ts⟩⟩ <;> rfl
  | ternary => rcases ts with _ | ⟨c, _ | ⟨a, _ | ⟨b, ts⟩⟩⟩ <;> rfl

/-- The flag of a loop over the operands is read after each of them, that of a
fixed number of operands after all. -/
def SMTClass.isLoop : SMTClass → Bool
  | .concat _ => true
  | .custom .and => true
  | _ => false

section Eval

variable (decl : S → SigDecl) (st : SigState S) (clk : SMTClkType)

/-- `eval_term` of a leaf. -/
def SMTLeaf.evalCell (l : SMTLeaf S) (c : Cell) : TermT × Cell :=
  match l with
  | .string _ => (none, { isTermEvalNeeded := false, yicesTerm := none })
  | .unspecified => (none, { isTermEvalNeeded := false, yicesTerm := none })
  | .number n =>
      if c.isTermEvalNeeded then
        (parseBvbin n.valueBin, { isTermEvalNeeded := false, yicesTerm := parseBvbin n.valueBin })
      else (c.yicesTerm, c)
  | .signal sig => (sig.evalTerm decl st clk, { c with yicesTerm := sig.evalTerm decl st clk })
  | .array arr => (arr.evalTerm decl st clk, { c with yicesTerm := sigTerm decl st arr.parent clk })

/-- The terms of the operands, the flags read after each of them, and the
objects afterwards. -/
structure Operands where
  terms : List TermT
  needed : Bool
  cells : Cells

mutual

/-- `eval_term`. -/
def ExprObj.evalTerm : ExprObj S → Cells → TermT × Cells
  | .leaf addr l, cells =>
      let r := l.evalCell decl st clk (cells addr)
      (r.1, Function.update cells addr r.2)
  | .node addr cls es, cells =>
      if (cells addr).isTermEvalNeeded then
        let count := cls.operandCount es.length
        let r := ExprObj.evalTerms count es cells
        let needed :=
          if cls.isLoop then r.needed
          else (es.take count).any fun e => (r.cells e.addr).isTermEvalNeeded
        let term := cls.evalTerm r.terms
        (term, Function.update r.cells addr { isTermEvalNeeded := needed, yicesTerm := term })
      else ((cells addr).yicesTerm, cells)

def ExprObj.evalTerms : Nat → List (ExprObj S) → Cells → Operands
  | 0, _, cells => { terms := [], needed := false, cells := cells }
  | _ + 1, [], cells => { terms := [], needed := false, cells := cells }
  | n + 1, e :: es, cells =>
      let r := e.evalTerm cells
      let rest := ExprObj.evalTerms n es r.2
      { terms := r.1 :: rest.terms
        needed := (r.2 e.addr).isTermEvalNeeded || rest.needed
        cells := rest.cells }

end

end Eval

/-! ## A remembered term -/

/-- The term of the expression is the same in all versions. -/
def SMTExpr.Constant (decl : S → SigDecl) (e : SMTExpr S) : Prop :=
  ∀ (st st' : SigState S) (clk clk' : SMTClkType),
    e.evalTerm decl st clk = e.evalTerm decl st' clk'

/-- The expression is a signal or an element of an array. -/
def SMTExpr.isAccess : SMTExpr S → Bool
  | .leaf (.signal _) => true
  | .leaf (.array _) => true
  | _ => false

/-- A lowered flag stands for a term that is still right. -/
structure Cell.Sound (decl : S → SigDecl) (e : SMTExpr S) (c : Cell) : Prop where
  access : e.isAccess = true → c.isTermEvalNeeded = true
  term : c.isTermEvalNeeded = false →
    ∀ (st : SigState S) clk, e.evalTerm decl st clk = c.yicesTerm

def Cells.Sound (decl : S → SigDecl) (heap : Nat → SMTExpr S) (cells : Cells) : Prop :=
  ∀ addr, (cells addr).Sound decl (heap addr)

variable {decl : S → SigDecl} {heap : Nat → SMTExpr S} {cells : Cells}

theorem Cells.sound_new (decl : S → SigDecl) (heap : Nat → SMTExpr S) :
    Cells.new.Sound decl heap := by
  intro addr
  exact ⟨fun _ => rfl, fun h => by cases h⟩

theorem Cell.Sound.constant {e : SMTExpr S} {c : Cell} (h : c.Sound decl e)
    (hneeded : c.isTermEvalNeeded = false) : e.Constant decl := by
  intro st st' clk clk'
  rw [h.term hneeded st clk, h.term hneeded st' clk']

theorem Cells.Sound.update (h : cells.Sound decl heap) {addr : Nat} {c : Cell}
    (hc : c.Sound decl (heap addr)) : Cells.Sound decl heap (Function.update cells addr c) := by
  intro addr'
  by_cases heq : addr' = addr
  · subst heq
    simpa using hc
  · simpa [heq] using h addr'

/-- A leaf returns its term, and only constants lower their flag. -/
theorem SMTLeaf.evalCell_spec (st : SigState S) (clk : SMTClkType) (l : SMTLeaf S) {c : Cell}
    (h : c.Sound decl (.leaf l)) :
    (l.evalCell decl st clk c).1 = l.evalTerm decl st clk ∧
      (l.evalCell decl st clk c).2.Sound decl (.leaf l) := by
  cases l with
  | string str => exact ⟨rfl, fun h => absurd h Bool.false_ne_true, fun _ _ _ => rfl⟩
  | unspecified => exact ⟨rfl, fun h => absurd h Bool.false_ne_true, fun _ _ _ => rfl⟩
  | number n =>
      unfold SMTLeaf.evalCell
      dsimp only
      split
      · exact ⟨rfl, fun h => absurd h Bool.false_ne_true, fun _ _ _ => rfl⟩
      · rename_i hneeded
        exact ⟨(h.term (by simpa using hneeded) st clk).symm, h⟩
  | signal sig =>
      have hneeded : c.isTermEvalNeeded = true := h.access rfl
      refine ⟨rfl, fun _ => hneeded, fun hfalse => ?_⟩
      rw [show c.isTermEvalNeeded = false from hfalse] at hneeded
      cases hneeded
  | array arr =>
      have hneeded : c.isTermEvalNeeded = true := h.access rfl
      refine ⟨rfl, fun _ => hneeded, fun hfalse => ?_⟩
      rw [show c.isTermEvalNeeded = false from hfalse] at hneeded
      cases hneeded

/-- The term of a node is that of the operands its class evaluates. -/
theorem SMTExpr.evalTerm_operands (decl : S → SigDecl) (st : SigState S) (clk : SMTClkType)
    (cls : SMTClass) (es : List (ExprObj S)) :
    (SMTExpr.node cls (es.map ExprObj.expr)).evalTerm decl st clk =
      cls.evalTerm ((es.take (cls.operandCount es.length)).map fun e =>
        e.expr.evalTerm decl st clk) := by
  rw [SMTExpr.evalTerm_node, List.map_map, ← SMTClass.evalTerm_take, List.length_map,
    ← List.map_take]
  rfl

theorem SMTExpr.constant_node {cls : SMTClass} {es : List (ExprObj S)}
    (h : ∀ e ∈ es.take (cls.operandCount es.length), e.expr.Constant decl) :
    (SMTExpr.node cls (es.map ExprObj.expr)).Constant decl := by
  intro st st' clk clk'
  rw [evalTerm_operands, evalTerm_operands,
    List.map_congr_left fun e he => h e he st st' clk clk']

section Spec

variable (st : SigState S) (clk : SMTClkType)

/-- What an evaluation guarantees. -/
def ExprObj.Evaluates (decl : S → SigDecl) (heap : Nat → SMTExpr S) (st : SigState S)
    (clk : SMTClkType) (o : ExprObj S) : Prop :=
  ∀ cells : Cells, cells.Sound decl heap →
    (o.evalTerm decl st clk cells).1 = o.expr.evalTerm decl st clk ∧
      (o.evalTerm decl st clk cells).2.Sound decl heap

/-- The operands, one after the other. -/
theorem ExprObj.evalTerms_spec {es : List (ExprObj S)} (hfits : ∀ e ∈ es, e.Fits heap)
    (heval : ∀ e ∈ es, e.Evaluates decl heap st clk) (n : Nat) {cells : Cells}
    (h : cells.Sound decl heap) :
    let r := ExprObj.evalTerms decl st clk n es cells
    r.terms = (es.take n).map (fun e => e.expr.evalTerm decl st clk) ∧
      r.cells.Sound decl heap ∧
      (r.needed = false → ∀ e ∈ es.take n, e.expr.Constant decl) := by
  induction es generalizing n cells with
  | nil =>
      cases n <;> exact ⟨rfl, h, fun _ _ he => absurd he List.not_mem_nil⟩
  | cons e es ih =>
      cases n with
      | zero => exact ⟨rfl, h, fun _ _ he => absurd he List.not_mem_nil⟩
      | succ n =>
          obtain ⟨hfit, hfits⟩ := List.forall_mem_cons.mp hfits
          obtain ⟨hev, heval⟩ := List.forall_mem_cons.mp heval
          obtain ⟨hterm, hsound⟩ := hev cells h
          obtain ⟨hterms, hsound', hconstant⟩ := ih hfits heval n hsound
          refine ⟨?_, hsound', fun hneeded => ?_⟩
          · rw [ExprObj.evalTerms, List.take_succ_cons, List.map_cons, ← hterm, ← hterms]
          · obtain ⟨hflag, hrest⟩ := Bool.or_eq_false_iff.mp hneeded
            rw [List.take_succ_cons, List.forall_mem_cons]
            refine ⟨?_, hconstant hrest⟩
            rw [← hfit.heap_eq]
            exact (hsound e.addr).constant hflag

/-- **Evaluation through the cache.** An object returns the term that its
expression has in the versions at hand, and leaves sound objects behind. -/
theorem ExprObj.evaluates {o : ExprObj S} (hfits : o.Fits heap) :
    o.Evaluates decl heap st clk := by
  induction o using ExprObj.induct with
  | hleaf addr l =>
      intro cells h
      have hheap : heap addr = .leaf l := hfits.heap_eq
      have hcell := h addr
      rw [hheap] at hcell
      obtain ⟨hterm, hsound⟩ := SMTLeaf.evalCell_spec st clk l hcell
      refine ⟨hterm, h.update ?_⟩
      rw [hheap]
      exact hsound
  | hnode addr cls es ih =>
      intro cells h
      have hheap : heap addr = .node cls (es.map ExprObj.expr) := by
        cases hfits with
        | node hheap _ => exact hheap
      have hes : ∀ e ∈ es, e.Fits heap := by
        cases hfits with
        | node _ hes => exact hes
      have hexpr : (ExprObj.node addr cls es).expr = .node cls (es.map ExprObj.expr) := by
        rw [ExprObj.expr, ExprObj.exprs_eq_map]
      rw [hexpr, ExprObj.evalTerm]
      split
      · rename_i hneeded
        obtain ⟨hterms, hsound, hconstant⟩ := ExprObj.evalTerms_spec st clk hes
          (fun e he => ih e he (hes e he)) (cls.operandCount es.length) h
        have hterm : cls.evalTerm (ExprObj.evalTerms decl st clk (cls.operandCount es.length) es
            cells).terms = (SMTExpr.node cls (es.map ExprObj.expr)).evalTerm decl st clk := by
          rw [hterms, SMTExpr.evalTerm_operands]
        refine ⟨hterm, hsound.update ?_⟩
        rw [hheap]
        refine ⟨fun haccess => absurd haccess Bool.false_ne_true, fun hflag st' clk' => ?_⟩
        -- a lowered flag means that no evaluated operand has its flag up
        have hall : ∀ e ∈ es.take (cls.operandCount es.length), e.expr.Constant decl := by
          dsimp only at hflag
          split at hflag
          · exact hconstant hflag
          · intro e he
            rw [← (hes e (List.mem_of_mem_take he)).heap_eq]
            refine (hsound e.addr).constant ?_
            simpa using List.any_eq_false.mp hflag e he
        dsimp only
        rw [hterm]
        exact SMTExpr.constant_node hall st' st clk' clk
      · rename_i hneeded
        -- the flag is down: the term that is kept is that of any version
        have hcell := h addr
        rw [hheap] at hcell
        exact ⟨(hcell.term (by simpa using hneeded) st clk).symm, h⟩

end Spec

/-! ## Interleavings -/

/-- An object of the heap. -/
structure HeapObj (heap : Nat → SMTExpr S) where
  obj : ExprObj S
  fits : obj.Fits heap

/-- What happens between the evaluations: the versions of the signals become others,
or an object is evaluated. -/
inductive EvalEvent (heap : Nat → SMTExpr S) where
  | versions (st : SigState S)
  | evalTerm (clk : SMTClkType) (o : HeapObj heap)

section Interleave

variable (decl : S → SigDecl) {heap : Nat → SMTExpr S}

/-- The terms that the objects return. -/
def cachedTerms (cells : Cells) (st : SigState S) : List (EvalEvent heap) → List TermT
  | [] => []
  | .versions st' :: events => cachedTerms cells st' events
  | .evalTerm clk o :: events =>
      let r := o.obj.evalTerm decl st clk cells
      r.1 :: cachedTerms r.2 st events

/-- The terms built afresh. -/
def freshTerms (st : SigState S) : List (EvalEvent heap) → List TermT
  | [] => []
  | .versions st' :: events => freshTerms st' events
  | .evalTerm clk o :: events => o.obj.expr.evalTerm decl st clk :: freshTerms st events

variable {decl}

theorem cachedTerms_of_sound {cells : Cells} (h : cells.Sound decl heap) (st : SigState S)
    (events : List (EvalEvent heap)) :
    cachedTerms decl cells st events = freshTerms decl st events := by
  induction events generalizing cells st with
  | nil => rfl
  | cons event events ih =>
      cases event with
      | versions st' => exact ih h st'
      | evalTerm clk o =>
          obtain ⟨hterm, hsound⟩ := ExprObj.evaluates st clk o.fits cells h
          rw [cachedTerms, freshTerms, hterm, ih hsound st]

/-- **Any interleaving.** However changes of the versions and evaluations at the two
clocks alternate, the objects of a heap return the terms of their expressions. -/
theorem cachedTerms_eq_freshTerms (decl : S → SigDecl) (heap : Nat → SMTExpr S) (st : SigState S)
    (events : List (EvalEvent heap)) :
    cachedTerms decl Cells.new st events = freshTerms decl st events :=
  cachedTerms_of_sound (Cells.sound_new decl heap) st events

end Interleave

/-! ## Records -/

/-- The expressions of a record, by their objects. -/
inductive TargetObj (S : Type) where
  | signal (isCommit : Bool) (sig : SMTSignal S) (index : Option (ExprObj S))
  | array (isCommit : Bool) (arr : SMTArray S) (index : ExprObj S)
  | branch (lval : ExprObj S)

/-- The object of an `SMTAssign`. -/
structure AssignObj (S : Type) where
  id : Nat
  target : TargetObj S
  rval : ExprObj S
  process : Nat
  block : Nat

def TargetObj.target : TargetObj S → SMTTarget S
  | signal isCommit sig index => .assign isCommit (.signal sig (index.map ExprObj.expr))
  | array isCommit arr index => .assign isCommit (.array arr index.expr)
  | branch lval => .branch lval.expr

namespace AssignObj

/-- The record without its addresses. -/
def assign (o : AssignObj S) : SMTAssign S where
  id := o.id
  target := o.target.target
  rval := o.rval.expr
  process := o.process
  block := o.block

/-- All expressions of the record are on the heap. -/
structure Fits (heap : Nat → SMTExpr S) (o : AssignObj S) : Prop where
  target : match o.target with
    | .signal _ _ index => ∀ e ∈ index, e.Fits heap
    | .array _ _ index => index.Fits heap
    | .branch lval => lval.Fits heap
  rval : o.rval.Fits heap

section UpdateTerm

variable (decl : S → SigDecl)

/-- The index of a bit write; there is none for a constant select. -/
def evalIndex (st : SigState S) (index : Option (ExprObj S)) (cells : Cells) : TermT × Cells :=
  match index with
  | none => (none, cells)
  | some e => e.evalTerm decl st .curr cells

/-- `update_term` of an assignment to a signal, after `update_next_version`. -/
def constrain (sig : SMTSignal S) (index : Option (ExprObj S)) (rval : ExprObj S)
    (st : SigState S) (cells : Cells) : Update S × Cells :=
  match rval, sig.isIndexTerm with
  | .leaf _ (.number n), true =>
      let width := (decl sig.parent).width
      let i := evalIndex decl st index cells
      let mask :=
        mkOp2 .shl (mkVar (.bv width) st.fresh) (mkZeroExtend (width - Nat.clog 2 width) i.1)
      let lvalTerm := sig.evalTerm decl st .next
      ({ st := { st with fresh := st.fresh + 1 }
         term :=
          if n.valueBin = ['0'] then mkOp2 .and lvalTerm (mkOp1 .not mask)
          else if n.valueBin = ['1'] then mkOp2 .or lvalTerm mask
          else none
         written := (st.core sig.parent).getTerm .next
         side := [mkEq (mkVar (.bv width) st.fresh) (mkConst (BitVec.ofNat 1 width))] }, i.2)
  | _, _ =>
      let r := rval.evalTerm decl st .curr cells
      ({ st := st
         term := mkEq (sig.evalTerm decl st .next) r.1
         written := (st.core sig.parent).getTerm .next
         side := [] }, r.2)

variable [DecidableEq S]

/-- `update_term`, with the objects it evaluates. -/
def updateTerm (o : AssignObj S) (st : SigState S) (cells : Cells) : Update S × Cells :=
  match o.target with
  | .signal isCommit sig index =>
      let r := constrain decl sig index o.rval (st.updateNextVersion sig.parent) cells
      if isCommit then ({ r.1 with st := r.1.st.commit sig.parent }, r.2) else r
  | .array _ arr index =>
      let new := st.arrayUpdateTerm arr.parent
      let i := index.evalTerm decl new.1 .curr cells
      let r := o.rval.evalTerm decl new.1 .curr i.2
      ({ st := new.1.commit arr.parent
         term :=
          mkEq (mkVar (decl arr.parent).bvType new.2)
            (mkUpdate (sigTerm decl new.1 arr.parent .curr) i.1 r.1)
         written := some new.2
         side := [] }, r.2)
  | .branch lval =>
      let l := lval.evalTerm decl st .curr cells
      let r := o.rval.evalTerm decl st .curr l.2
      ({ st := st
         term := mkEq l.1 r.1
         written := none
         side := [] }, r.2)

end UpdateTerm

/-- The constraint of a signal, through the cache and without. -/
theorem constrain_spec (decl : S → SigDecl) (sig : SMTSignal S) {index : Option (ExprObj S)}
    {rval : ExprObj S} {heap : Nat → SMTExpr S} {cells : Cells}
    (hindex : ∀ e ∈ index, e.Fits heap) (hrval : rval.Fits heap) (st : SigState S)
    (h : cells.Sound decl heap) :
    (constrain decl sig index rval st cells).1 =
        Conquest.constrain decl sig (index.map ExprObj.expr) rval.expr st ∧
      (constrain decl sig index rval st cells).2.Sound decl heap := by
  obtain ⟨hterm, hsound⟩ := ExprObj.evaluates st .curr hrval cells h
  by_cases hbit : sig.isIndexTerm = true ∧ ∃ addr n, rval = .leaf addr (.number n)
  · -- a constant on one bit is masked, and its object is not evaluated
    obtain ⟨hsig, addr, n, rfl⟩ := hbit
    simp only [constrain, Conquest.constrain, ExprObj.expr, hsig, bitWrite, bitMask]
    cases index with
    | none => exact ⟨rfl, h⟩
    | some e =>
        obtain ⟨hi, hs⟩ := ExprObj.evaluates st .curr (hindex e rfl) cells h
        simp only [evalIndex, Option.map_some]
        rw [hi]
        exact ⟨rfl, hs⟩
  · have hwhole : (constrain decl sig index rval st cells) =
        ({ st := st
           term := mkEq (sig.evalTerm decl st .next) (rval.evalTerm decl st .curr cells).1
           written := (st.core sig.parent).getTerm .next
           side := [] }, (rval.evalTerm decl st .curr cells).2) := by
      unfold constrain
      split
      · rename_i hsig
        exact absurd ⟨hsig, _, _, rfl⟩ hbit
      · rfl
    have hwhole' : Conquest.constrain decl sig (index.map ExprObj.expr) rval.expr st =
        signalWrite decl sig rval.expr st := by
      unfold Conquest.constrain
      split
      · rename_i n hnumber hsig
        cases rval with
        | node addr cls es => cases hnumber
        | leaf addr l =>
            cases hnumber
            exact absurd ⟨hsig, _, _, rfl⟩ hbit
      · rfl
    rw [hwhole, hwhole', signalWrite, ← hterm]
    exact ⟨rfl, hsound⟩

/-- **`update_term` through the cache.** -/
theorem updateTerm_spec [DecidableEq S] {o : AssignObj S} (hfits : o.Fits heap) (st : SigState S)
    (h : cells.Sound decl heap) :
    (o.updateTerm decl st cells).1 = o.assign.updateTerm decl st ∧
      (o.updateTerm decl st cells).2.Sound decl heap := by
  have htargetFits := hfits.target
  cases htarget : o.target with
  | signal isCommit sig index =>
      rw [htarget] at htargetFits
      obtain ⟨hterm, hsound⟩ := constrain_spec decl sig htargetFits hfits.rval
        (st.updateNextVersion sig.parent) h
      simp only [updateTerm, SMTAssign.updateTerm, assign, htarget, TargetObj.target]
      rw [← hterm]
      cases isCommit
      · exact ⟨rfl, hsound⟩
      · exact ⟨rfl, hsound⟩
  | array isCommit arr index =>
      rw [htarget] at htargetFits
      obtain ⟨hindex, hsound⟩ :=
        ExprObj.evaluates (st.arrayUpdateTerm arr.parent).1 .curr htargetFits cells h
      obtain ⟨hrval, hsound'⟩ :=
        ExprObj.evaluates (st.arrayUpdateTerm arr.parent).1 .curr hfits.rval _ hsound
      simp only [updateTerm, SMTAssign.updateTerm, assign, htarget, TargetObj.target, arrayWrite]
      rw [hindex, hrval]
      exact ⟨rfl, hsound'⟩
  | branch lval =>
      rw [htarget] at htargetFits
      obtain ⟨hlval, hsound⟩ := ExprObj.evaluates st .curr htargetFits cells h
      obtain ⟨hrval, hsound'⟩ := ExprObj.evaluates st .curr hfits.rval _ hsound
      simp only [updateTerm, SMTAssign.updateTerm, assign, htarget, TargetObj.target]
      rw [hlval, hrval]
      exact ⟨rfl, hsound'⟩

end AssignObj

end Conquest
