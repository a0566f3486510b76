import Conquest.Smt.Assign
import Conquest.Smt.Number
import Conquest.Smt.Value

/-!
# Branch — the constraints of arms

`emit_stmt_condit` and `emit_stmt_case` make one `SMTBranch` for every arm: its
constraint compares the condition with the arm's value. Verilog takes the first
item that matches. The constraint of an item leaves the earlier items out, and
an item's constant has lost its `x` and `z` digits.
-/

namespace Conquest

open Bv Digits

variable {S : Type}

/-! ## Branch nodes -/

/-- `SMTBranch`. -/
structure SMTBranch (S : Type) where
  lval : SMTExpr S
  rval : SMTExpr S

/-- `SMTBranchNode`. -/
structure SMTBranchNode (S : Type) where
  cond : SMTExpr S
  condWidth : Nat
  branchList : List (SMTBranch S)

/-- The record of an arm. -/
def SMTBranch.assign (br : SMTBranch S) (id process block : Nat) : SMTAssign S where
  id := id
  target := .branch br.lval
  rval := br.rval
  process := process
  block := block

/-- `SMTBranch::update_term`. -/
def SMTBranch.updateTerm (decl : S → SigDecl) (st : SigState S) (br : SMTBranch S) : TermT :=
  mkEq (br.lval.evalTerm decl st .curr) (br.rval.evalTerm decl st .curr)

/-- `SMTUnary` with the opcode `|`. -/
def orUnary : SMTUnary := { SMTUnary.new with opcode := "bv-redor", func := some (.red .or) }

namespace SMTBranchNode

def new (cond : SMTExpr S) (condWidth : Nat) : SMTBranchNode S where
  cond := cond
  condWidth := condWidth
  branchList := []

/-- The constructor of `SMTBranch`. -/
def add (parent : SMTBranchNode S) (lval rval : SMTExpr S) : SMTBranchNode S :=
  { parent with branchList := parent.branchList ++ [⟨lval, rval⟩] }

def createCaseBranch (parent : SMTBranchNode S) (caseExpr : SMTExpr S) : SMTBranchNode S :=
  parent.add parent.cond caseExpr

/-- `_create_condit_branch`: a wide condition is reduced to one bit first. -/
def createConditBranch (parent : SMTBranchNode S) (numExpr : List Digit) : SMTBranchNode S :=
  let parent :=
    if parent.condWidth > 1 then
      { parent with cond := .node (.unary orUnary) [parent.cond], condWidth := 1 }
    else parent
  parent.add parent.cond (.leaf (.number (.new numExpr)))

def createTrueBranch (parent : SMTBranchNode S) : SMTBranchNode S :=
  parent.createConditBranch [.one]

def createFalseBranch (parent : SMTBranchNode S) : SMTBranchNode S :=
  parent.createConditBranch [.zero]

/-- The default differs from the values of all arms so far. -/
def createDefaultBranch (parent : SMTBranchNode S) : SMTBranchNode S :=
  let smtAnd := .node (.custom .and)
    (parent.branchList.map fun br => .node (.custom .ne) [parent.cond, br.rval])
  parent.add smtAnd (.node (.custom .true) [])

end SMTBranchNode

/-! ## Statements -/

/-- An item as Icarus gives it: a constant, or another expression, with what
`emit_expr` makes of it. -/
inductive CaseItem (S : Type) where
  | number (bits : List Digit)
  | expr (e : SMTExpr S)

/-- `emit_expr` of an item. -/
def CaseItem.emitExpr : CaseItem S → SMTExpr S
  | number bits => .leaf (.number (.new bits))
  | expr e => e

/-- A case statement; the arm without an item is the default. -/
structure CaseStmt (S : Type) where
  kind : CaseKind
  cond : SMTExpr S
  condWidth : Nat
  arms : List (Option (CaseItem S))

namespace CaseStmt

/-- The items, in the order of the source. -/
def items (s : CaseStmt S) : List (CaseItem S) := s.arms.filterMap id

def hasDefault (s : CaseStmt S) : Bool := s.arms.any Option.isNone

/-- `emit_stmt_case`: the default comes last. -/
def emitStmtCase (s : CaseStmt S) : SMTBranchNode S :=
  let node := s.arms.foldl
    (fun node arm =>
      match arm with
      | none => node
      | some item => node.createCaseBranch item.emitExpr)
    (SMTBranchNode.new s.cond s.condWidth)
  if s.hasDefault then node.createDefaultBranch else node

end CaseStmt

/-- An `if` or a case statement. -/
inductive BranchStmt (S : Type) where
  | condit (cond : SMTExpr S) (condWidth : Nat)
  | case (s : CaseStmt S)

/-- The arms in the order of their records. -/
def BranchStmt.branchList : BranchStmt S → List (SMTBranch S)
  | condit cond condWidth =>
      (SMTBranchNode.new cond condWidth).createTrueBranch.createFalseBranch.branchList
  | case s => s.emitStmtCase.branchList

/-! ## The arm that Verilog takes -/

/-- The constant or the value of the expression matches the value `v` of the
condition. -/
def CaseItem.isMatch (kind : CaseKind) (value : SMTExpr S → Value) (v : Value) :
    CaseItem S → Bool
  | number ds =>
      match v with
      | some ⟨.bv _, x⟩ => accepts kind ds (bits x)
      | _ => false
  | expr e => value e = v

/-- The first item that matches, else the default. -/
def CaseStmt.executed (value : SMTExpr S → Value) (s : CaseStmt S) : Option Nat :=
  match s.items.findIdx? (CaseItem.isMatch s.kind value (value s.cond)) with
  | some i => some i
  | none => if s.hasDefault then some s.items.length else none

def isNonzero : Value → Bool
  | some ⟨.bv _, x⟩ => x ≠ 0
  | _ => false

/-- The arm that is executed when expressions have the values `value`. -/
def BranchStmt.executed (value : SMTExpr S → Value) : BranchStmt S → Option Nat
  | condit cond _ => if isNonzero (value cond) then some 0 else some 1
  | case s => s.executed value

/-! ## The branch list -/

theorem emitArms_eq (arms : List (Option (CaseItem S))) (node : SMTBranchNode S) :
    arms.foldl
      (fun node arm =>
        match arm with
        | none => node
        | some item => node.createCaseBranch item.emitExpr) node =
      { node with
        branchList := node.branchList ++
          (arms.filterMap id).map fun item => ⟨node.cond, item.emitExpr⟩ } := by
  induction arms generalizing node with
  | nil => simp
  | cons arm arms ih =>
      rw [List.foldl_cons, ih]
      cases arm with
      | none => rfl
      | some item =>
          simp [SMTBranchNode.createCaseBranch, SMTBranchNode.add]

/-- The branch of the default. -/
def CaseStmt.defaultBranch (s : CaseStmt S) : SMTBranch S where
  lval := .node (.custom .and)
    (s.items.map fun item => .node (.custom .ne) [s.cond, item.emitExpr])
  rval := .node (.custom .true) []

theorem CaseStmt.branchList_eq (s : CaseStmt S) :
    s.emitStmtCase.branchList =
      (s.items.map fun item => ⟨s.cond, item.emitExpr⟩) ++
        if s.hasDefault then [s.defaultBranch] else [] := by
  rw [emitStmtCase, emitArms_eq]
  split
  · simp [SMTBranchNode.createDefaultBranch, SMTBranchNode.add, SMTBranchNode.new, defaultBranch,
      items, List.map_map, Function.comp_def]
  · simp [SMTBranchNode.new, items]

/-! ## The constraints of items -/

section Constraints

variable (decl : S → SigDecl) (st : SigState S) (ρ : Valuation)

/-- The value of an expression in the current versions. -/
def currValue (e : SMTExpr S) : Value := denote ρ (e.evalTerm decl st .curr)

/-- Every arm has a term, or `create_constraint` would end in `error`. -/
def BranchStmt.Accepted (s : BranchStmt S) : Prop :=
  ∀ br ∈ s.branchList, (br.updateTerm decl st).isSome

/-- The constraint of every arm holds just when Verilog executes the arm. -/
def BranchStmt.Exact (s : BranchStmt S) : Prop :=
  ∀ i br, s.branchList[i]? = some br →
    (Holds ρ (br.updateTerm decl st) ↔ s.executed (currValue decl st ρ) = some i)

/-- The value of the item is `v`, with zeros for the digits that are not bits. -/
def CaseItem.IsValue (item : CaseItem S) (v : Value) : Prop :=
  currValue decl st ρ item.emitExpr = v

/-- No `x` or `z` digit of a constant stands over a one of `v`. -/
def CaseItem.Clear (v : Value) : CaseItem S → Prop
  | number ds =>
      match v with
      | some ⟨.bv _, x⟩ => Digits.Clear ds (bits x)
      | _ => True
  | expr _ => True

/-- A constant has no `x` or `z` digits. -/
def CaseItem.Known : CaseItem S → Prop
  | number ds => Digits.Known ds
  | expr _ => True

/-- The item as Verilog reads it in the instrumented design. -/
def CaseItem.emitted : CaseItem S → CaseItem S
  | number bits => number (SMTNumber.new bits).emitVerilogValue.read
  | expr e => expr e

variable {decl st ρ}

theorem fill_eq_iff {w : Nat} (ds : List Digit) (x : BitVec w) :
    (some ⟨.bv ds.length, fill ds⟩ : Value) = some ⟨.bv w, x⟩ ↔ ds.map Digit.fill = bits x := by
  rw [← bits_fill]
  constructor
  · intro h
    cases h
    rfl
  · intro h
    have hw : ds.length = w := by simpa [bits] using congrArg List.length h
    subst hw
    rw [bits_inj h]

/-- An item that can be compared with the condition. -/
theorem CaseItem.value_number {cond : SMTExpr S} {ds : List Digit}
    (h : (mkEq (cond.evalTerm decl st .curr)
      ((number ds : CaseItem S).emitExpr.evalTerm decl st .curr)).isSome) :
    currValue decl st ρ (number ds : CaseItem S).emitExpr = some ⟨.bv ds.length, fill ds⟩ ∧
      ∃ x : BitVec ds.length, currValue decl st ρ cond = some ⟨.bv ds.length, x⟩ := by
  obtain ⟨τ, a, b, ha, hb⟩ := mkEq_isSome_iff.mp h
  have hterm : (number ds : CaseItem S).emitExpr.evalTerm decl st .curr =
      parseBvbin (SMTNumber.new ds).valueBin := rfl
  have hds : ds ≠ [] := by
    rintro rfl
    rw [hterm, parseBvbin_new_nil] at hb
    cases hb
  rw [hterm, parseBvbin_new hds] at hb
  cases hb
  refine ⟨?_, a.eval ρ, ?_⟩
  · rw [currValue, hterm, parseBvbin_new hds]
    rfl
  · rw [currValue, ha]
    rfl

section Item

variable {cond : SMTExpr S} {item : CaseItem S} {kind : CaseKind}
  (h : (mkEq (cond.evalTerm decl st .curr) (item.emitExpr.evalTerm decl st .curr)).isSome)

include h

/-- Without wildcards an item matches its value, unless it has `x` or `z` digits. -/
theorem CaseItem.isMatch_plain_iff :
    item.isMatch .plain (currValue decl st ρ) (currValue decl st ρ cond) ↔
      item.Known ∧ item.IsValue decl st ρ (currValue decl st ρ cond) := by
  cases item with
  | expr e => simp [isMatch, Known, IsValue, emitExpr]
  | number ds =>
      obtain ⟨hvalue, x, hcond⟩ := value_number (ρ := ρ) h
      rw [IsValue, hvalue, hcond, fill_eq_iff, Known]
      constructor
      · intro hmatch
        have hknown := known_of_accepts hmatch
        exact ⟨hknown, (accepts_iff_fill_eq hknown).mp hmatch⟩
      · rintro ⟨hknown, hfill⟩
        exact (accepts_iff_fill_eq hknown).mpr hfill

/-- An item that matches has the value where its wildcards stand over zeros. -/
theorem CaseItem.isValue_iff_clear
    (hmatch : item.isMatch kind (currValue decl st ρ) (currValue decl st ρ cond)) :
    item.IsValue decl st ρ (currValue decl st ρ cond) ↔ item.Clear (currValue decl st ρ cond) := by
  cases item with
  | expr e => exact iff_of_true (by simpa [isMatch, IsValue, emitExpr] using hmatch) trivial
  | number ds =>
      obtain ⟨hvalue, x, hcond⟩ := value_number (ρ := ρ) h
      rw [hcond] at hmatch
      rw [IsValue, hvalue, hcond, fill_eq_iff]
      exact fill_eq_iff_clear hmatch

/-- In the instrumented design an item matches its value. -/
theorem CaseItem.isMatch_emitted_iff :
    item.emitted.isMatch kind (currValue decl st ρ) (currValue decl st ρ cond) ↔
      item.IsValue decl st ρ (currValue decl st ρ cond) := by
  cases item with
  | expr e => simp [emitted, isMatch, IsValue, emitExpr]
  | number ds =>
      obtain ⟨hvalue, x, hcond⟩ := value_number (ρ := ρ) h
      rw [IsValue, hvalue, hcond, fill_eq_iff, emitted, read_emitVerilogValue, isMatch,
        accepts_iff_fill_eq (known_map_ofBit _)]
      simp [List.map_map, Function.comp_def]

end Item

/-! ## Case statements -/

namespace CaseStmt

variable {s : CaseStmt S}

/-- The index of the first item that matches. -/
def firstMatch (value : SMTExpr S → Value) (s : CaseStmt S) : Option Nat :=
  s.items.findIdx? (CaseItem.isMatch s.kind value (value s.cond))

theorem executed_eq_some_iff {value : SMTExpr S → Value} {i : Nat} (hi : i < s.items.length) :
    s.executed value = some i ↔ s.firstMatch value = some i := by
  rw [executed, ← firstMatch]
  cases hfirst : s.firstMatch value with
  | some j => rfl
  | none =>
      simp only [reduceCtorEq, iff_false]
      split
      · simp only [Option.some.injEq]
        omega
      · exact nofun

theorem executed_default_iff {value : SMTExpr S → Value} (h : s.hasDefault = true) :
    s.executed value = some s.items.length ↔ s.firstMatch value = none := by
  rw [executed, ← firstMatch]
  cases hfirst : s.firstMatch value with
  | none => simp [h]
  | some j =>
      have hj : j < s.items.length := (List.findIdx?_eq_some_iff_getElem.mp hfirst).1
      simp only [Option.some.injEq, reduceCtorEq, iff_false]
      omega

theorem accepted_item (h : (BranchStmt.case s).Accepted decl st) {item : CaseItem S}
    (hitem : item ∈ s.items) :
    (mkEq (s.cond.evalTerm decl st .curr) (item.emitExpr.evalTerm decl st .curr)).isSome := by
  refine h ⟨s.cond, item.emitExpr⟩ ?_
  rw [BranchStmt.branchList, branchList_eq]
  exact List.mem_append_left _ (List.mem_map_of_mem hitem)

/-- The constraint of the default: no item has the value of the condition. -/
theorem holds_defaultBranch_iff (h : (BranchStmt.case s).Accepted decl st) :
    Holds ρ (s.defaultBranch.updateTerm decl st) ↔
      ∀ item ∈ s.items, ¬ item.IsValue decl st ρ (currValue decl st ρ s.cond) := by
  have hterm : s.defaultBranch.updateTerm decl st =
      mkEq (mkAnd (s.items.map fun item =>
        mkNeq (s.cond.evalTerm decl st .curr) (item.emitExpr.evalTerm decl st .curr)))
        (mkBool true) := by
    simp only [SMTBranch.updateTerm, defaultBranch, SMTExpr.evalTerm_node, List.map_map,
      List.map_nil, SMTClass.evalTerm, Function.comp_def, List.map_cons]
  rw [hterm, holds_mkEq_true_iff, holds_mkAnd_iff, List.forall_mem_map]
  refine forall₂_congr fun item hitem => ?_
  rw [holds_mkNeq_of_isSome (accepted_item h hitem)]
  rfl

/-- The constraints are exact if those of the items are: the value of the
condition is that of the first item that matches, and of no other. -/
theorem exact_iff (h : (BranchStmt.case s).Accepted decl st) :
    (BranchStmt.case s).Exact decl st ρ ↔
      ∀ i item, s.items[i]? = some item →
        (item.IsValue decl st ρ (currValue decl st ρ s.cond) ↔
          s.firstMatch (currValue decl st ρ) = some i) := by
  unfold BranchStmt.Exact
  simp only [BranchStmt.branchList, branchList_eq, BranchStmt.executed]
  have hholds : ∀ item ∈ s.items,
      (Holds ρ (SMTBranch.updateTerm decl st ⟨s.cond, item.emitExpr⟩) ↔
        item.IsValue decl st ρ (currValue decl st ρ s.cond)) :=
    fun item hitem => holds_mkEq_of_isSome (accepted_item h hitem)
  constructor
  · intro hexact i item hitem
    have hi : i < s.items.length := (List.getElem?_eq_some_iff.mp hitem).1
    rw [← executed_eq_some_iff hi, ← hholds item (List.mem_of_getElem? hitem)]
    refine hexact i _ ?_
    rw [List.getElem?_append_left (by simpa using hi), List.getElem?_map, hitem]
    rfl
  · intro hitems i br hbr
    rcases Nat.lt_or_ge i s.items.length with hi | hi
    · rw [List.getElem?_append_left (by simpa using hi), List.getElem?_map,
        List.getElem?_eq_getElem hi] at hbr
      obtain rfl := Option.some.inj hbr
      rw [executed_eq_some_iff hi, hholds _ (List.getElem_mem hi)]
      exact hitems i _ (List.getElem?_eq_getElem hi)
    · -- the branch of the default, behind those of the items
      rw [List.getElem?_append_right (by simpa using hi), List.length_map] at hbr
      split at hbr
      · rename_i hdefault
        obtain ⟨hlen, rfl⟩ : i - s.items.length = 0 ∧ s.defaultBranch = br := by
          simpa [List.getElem?_singleton] using hbr
        obtain rfl : i = s.items.length := by omega
        rw [executed_default_iff hdefault, holds_defaultBranch_iff h]
        constructor
        · intro hnone
          cases hfirst : s.firstMatch (currValue decl st ρ) with
          | none => rfl
          | some j =>
              have hj : j < s.items.length := (List.findIdx?_eq_some_iff_getElem.mp hfirst).1
              have hvalue := (hitems j _ (List.getElem?_eq_getElem hj)).mpr hfirst
              exact absurd hvalue (hnone _ (List.getElem_mem hj))
        · intro hnone item hitem hvalue
          obtain ⟨j, hj⟩ := List.getElem?_of_mem hitem
          rw [(hitems j item hj).mp hvalue] at hnone
          cases hnone
      · cases hbr

variable (decl st ρ)

/-- The item that Verilog takes has no wildcard over a one, and no other item
has the value of the condition once its `x` and `z` digits are zeros. -/
def ZeroFilled (s : CaseStmt S) : Prop :=
  ∀ i item, s.items[i]? = some item →
    if s.firstMatch (currValue decl st ρ) = some i then item.Clear (currValue decl st ρ s.cond)
    else ¬ item.IsValue decl st ρ (currValue decl st ρ s.cond)

/-- The statement as Verilog reads it in the instrumented design. -/
def emitted (s : CaseStmt S) : CaseStmt S :=
  { s with
    arms := (s.items.map fun item => some item.emitted) ++ if s.hasDefault then [none] else [] }

variable {decl st ρ}

theorem items_emitted (s : CaseStmt S) : s.emitted.items = s.items.map CaseItem.emitted := by
  rw [items, emitted, List.filterMap_append, List.filterMap_map]
  split <;> simp

theorem hasDefault_emitted (s : CaseStmt S) : s.emitted.hasDefault = s.hasDefault := by
  rw [hasDefault, emitted, List.any_append, List.any_map]
  cases s.hasDefault <;> simp

theorem firstMatch_emitted_iff (h : (BranchStmt.case s).Accepted decl st) {i : Nat} :
    s.emitted.firstMatch (currValue decl st ρ) = some i ↔
      ∃ hi : i < s.items.length,
        s.items[i].IsValue decl st ρ (currValue decl st ρ s.cond) ∧
          ∀ j (hj : j < i),
            ¬ (s.items.get ⟨j, hj.trans hi⟩).IsValue decl st ρ
              (currValue decl st ρ s.cond) := by
  have hmatch : ∀ item ∈ s.items,
      (item.emitted.isMatch s.kind (currValue decl st ρ) (currValue decl st ρ s.cond) ↔
        item.IsValue decl st ρ (currValue decl st ρ s.cond)) :=
    fun item hitem => CaseItem.isMatch_emitted_iff (accepted_item h hitem)
  rw [firstMatch, items_emitted, List.findIdx?_map, List.findIdx?_eq_some_iff_getElem]
  refine exists_congr fun hi => and_congr (hmatch _ (List.getElem_mem hi)) ?_
  exact forall₂_congr fun j hj => not_congr (hmatch _ (List.getElem_mem (hj.trans hi)))

/-- Exact constraints leave the instrumented design no other choice. -/
theorem executed_emitted (h : (BranchStmt.case s).Accepted decl st)
    (hexact : (BranchStmt.case s).Exact decl st ρ) :
    s.emitted.executed (currValue decl st ρ) = s.executed (currValue decl st ρ) := by
  rw [exact_iff h] at hexact
  have hfirst : s.emitted.firstMatch (currValue decl st ρ) =
      s.firstMatch (currValue decl st ρ) := by
    refine Option.ext fun i => ?_
    rw [firstMatch_emitted_iff h]
    constructor
    · rintro ⟨hi, hvalue, -⟩
      exact (hexact i _ (List.getElem?_eq_getElem hi)).mp hvalue
    · intro hfirst
      have hi : i < s.items.length := (List.findIdx?_eq_some_iff_getElem.mp hfirst).1
      refine ⟨hi, (hexact i _ (List.getElem?_eq_getElem hi)).mpr hfirst, fun j hj hvalue => ?_⟩
      have heq := (hexact j _ (List.getElem?_eq_getElem (hj.trans hi))).mp hvalue
      rw [hfirst, Option.some.injEq] at heq
      omega
  rw [executed, executed, ← firstMatch, ← firstMatch, hfirst, hasDefault_emitted, items_emitted,
    List.length_map]

theorem exact_iff_zeroFilled (h : (BranchStmt.case s).Accepted decl st) :
    (BranchStmt.case s).Exact decl st ρ ↔ s.ZeroFilled decl st ρ := by
  rw [exact_iff h]
  refine forall_congr' fun i => forall₂_congr fun item hitem => ?_
  split
  · rename_i hfirst
    obtain ⟨hi, hmatch, -⟩ := List.findIdx?_eq_some_iff_getElem.mp hfirst
    obtain rfl : s.items[i] = item := by
      rw [List.getElem?_eq_getElem hi] at hitem
      exact Option.some.inj hitem
    rw [← CaseItem.isValue_iff_clear (accepted_item h (List.getElem_mem hi)) hmatch]
    exact iff_true_right hfirst
  · rename_i hfirst
    exact iff_false_right hfirst

end CaseStmt

/-! ## Conditions -/

theorem isNonzero_bit : ∀ x : BitVec 1, isNonzero (some ⟨.bv 1, x⟩) ↔ x = 1 := by decide

theorem bit_eq_zero_iff : ∀ x : BitVec 1, x = 0 ↔ x ≠ 1 := by decide

/-- The condition of both arms of an `if` is one bit: whether it is nonzero. -/
theorem condit_cond {cond : SMTExpr S} {condWidth : Nat}
    (h : (BranchStmt.condit cond condWidth).Accepted decl st) :
    ∃ (cond' : SMTExpr S) (a : Term (.bv 1)),
      (BranchStmt.condit cond condWidth).branchList =
          [⟨cond', .leaf (.number (.new [.one]))⟩, ⟨cond', .leaf (.number (.new [.zero]))⟩] ∧
        cond'.evalTerm decl st .curr = some ⟨.bv 1, a⟩ ∧
        (isNonzero (currValue decl st ρ cond) ↔ a.eval ρ = 1) := by
  by_cases hwidth : condWidth > 1
  · -- a wider condition is reduced to a bit by `|`
    have hlist : (BranchStmt.condit cond condWidth).branchList =
        [⟨.node (.unary orUnary) [cond], .leaf (.number (.new [.one]))⟩,
          ⟨.node (.unary orUnary) [cond], .leaf (.number (.new [.zero]))⟩] := by
      simp [BranchStmt.branchList, SMTBranchNode.createTrueBranch,
        SMTBranchNode.createFalseBranch, SMTBranchNode.createConditBranch, SMTBranchNode.add,
        SMTBranchNode.new, hwidth]
    rw [BranchStmt.Accepted, hlist] at h
    obtain ⟨τ, a, b, ha, hb⟩ := mkEq_isSome_iff.mp (h _ List.mem_cons_self)
    have hred : (SMTExpr.node (.unary orUnary) [cond]).evalTerm decl st .curr =
        mkRed .or (cond.evalTerm decl st .curr) := SMTExpr.evalTerm_node ..
    rw [hred] at ha
    rcases hcond : cond.evalTerm decl st .curr with _ | ⟨υ, c⟩
    · rw [hcond] at ha
      cases ha
    · rw [hcond] at ha
      cases υ with
      | bool => cases ha
      | fn d c => cases ha
      | bv w =>
          refine ⟨_, .red .or c, hlist, hred.trans (by rw [hcond]; rfl), ?_⟩
          simp only [currValue, hcond, denote_some, isNonzero, Term.eval, Red.apply]
          by_cases hzero : c.eval ρ = 0#w <;> simp [hzero]
  · have hlist : (BranchStmt.condit cond condWidth).branchList =
        [⟨cond, .leaf (.number (.new [.one]))⟩, ⟨cond, .leaf (.number (.new [.zero]))⟩] := by
      simp [BranchStmt.branchList, SMTBranchNode.createTrueBranch,
        SMTBranchNode.createFalseBranch, SMTBranchNode.createConditBranch, SMTBranchNode.add,
        SMTBranchNode.new, hwidth]
    rw [BranchStmt.Accepted, hlist] at h
    obtain ⟨τ, a, b, ha, hb⟩ := mkEq_isSome_iff.mp (h _ List.mem_cons_self)
    cases hb
    refine ⟨cond, a, hlist, ha, ?_⟩
    rw [currValue, ha]
    exact isNonzero_bit (a.eval ρ)

/-- The constraints of an `if` are exact. -/
theorem condit_exact {cond : SMTExpr S} {condWidth : Nat}
    (h : (BranchStmt.condit cond condWidth).Accepted decl st) :
    (BranchStmt.condit cond condWidth).Exact decl st ρ := by
  obtain ⟨cond', a, hlist, ha, hnonzero⟩ := condit_cond (ρ := ρ) h
  have hholds : ∀ digit : Digit,
      Holds ρ (SMTBranch.updateTerm decl st ⟨cond', .leaf (.number (.new [digit]))⟩) ↔
        a.eval ρ = fill [digit] := by
    intro digit
    have hterm : (SMTExpr.leaf (.number (.new [digit])) : SMTExpr S).evalTerm decl st .curr =
        some ⟨.bv 1, .const (fill [digit])⟩ := parseBvbin_new (List.cons_ne_nil _ _)
    rw [SMTBranch.updateTerm, ha, hterm]
    simp only [Holds, mkEq, denote_some, Term.eval, dif_pos, Option.some.injEq, Sigma.mk.injEq,
      heq_eq_eq, true_and]
    exact decide_eq_true_iff
  intro i br hbr
  rw [hlist] at hbr
  rw [BranchStmt.executed]
  rcases i with _ | _ | i
  · obtain rfl := Option.some.inj hbr
    rw [hholds, show fill [.one] = 1 from rfl, ← hnonzero]
    split <;> simp_all
  · obtain rfl := Option.some.inj hbr
    rw [hholds, show fill [.zero] = 0 from rfl, bit_eq_zero_iff, ne_eq, ← hnonzero]
    split <;> simp_all
  · cases hbr

/-! ## If and plain case statements -/

variable (decl st ρ)

/-- At most one item has the value of the condition, and that item has no `x` or
`z` digits. -/
def BranchStmt.Apart : BranchStmt S → Prop
  | condit _ _ => True
  | case s =>
      let v := currValue decl st ρ s.cond
      (∀ item ∈ s.items, item.IsValue decl st ρ v → item.Known) ∧
        s.items.Pairwise fun a b => ¬ (a.IsValue decl st ρ v ∧ b.IsValue decl st ρ v)

/-- An `if`, or a case statement without wildcards. -/
def BranchStmt.isPlain : BranchStmt S → Bool
  | condit _ _ => true
  | case s => s.kind = .plain

variable {decl st ρ}

/-- **Arms of plain statements.** The constraints of the arms hold just when
Verilog executes them if and only if no two items of a case statement have the
value of the condition; those of an `if` always do. -/
theorem arm_constraint_exact (s : BranchStmt S) (hplain : s.isPlain) (h : s.Accepted decl st) :
    s.Exact decl st ρ ↔ s.Apart decl st ρ := by
  cases s with
  | condit cond condWidth => exact iff_of_true (condit_exact h) trivial
  | case s =>
      have hkind : s.kind = .plain := by simpa [BranchStmt.isPlain] using hplain
      have hmatch : ∀ item ∈ s.items,
          (item.isMatch s.kind (currValue decl st ρ) (currValue decl st ρ s.cond) ↔
            item.Known ∧ item.IsValue decl st ρ (currValue decl st ρ s.cond)) := by
        rw [hkind]
        exact fun item hitem => CaseItem.isMatch_plain_iff (CaseStmt.accepted_item h hitem)
      rw [CaseStmt.exact_iff h, BranchStmt.Apart]
      constructor
      · intro hfirst
        constructor
        · intro item hitem hvalue
          obtain ⟨i, hi⟩ := List.getElem?_of_mem hitem
          obtain ⟨hlt, hmem, -⟩ :=
            List.findIdx?_eq_some_iff_getElem.mp ((hfirst i item hi).mp hvalue)
          obtain rfl : s.items[i] = item := by
            rw [List.getElem?_eq_getElem hlt] at hi
            exact Option.some.inj hi
          exact ((hmatch _ hitem).mp hmem).1
        · -- both would be the first item that matches
          rw [List.pairwise_iff_getElem]
          rintro i j hi hj hij ⟨hvaluei, hvaluej⟩
          have heqi := (hfirst i _ (List.getElem?_eq_getElem hi)).mp hvaluei
          have heqj := (hfirst j _ (List.getElem?_eq_getElem hj)).mp hvaluej
          rw [heqi, Option.some.injEq] at heqj
          omega
      · rintro ⟨hknown, hpairwise⟩ i item hitem
        obtain ⟨hi, rfl⟩ := List.getElem?_eq_some_iff.mp hitem
        rw [CaseStmt.firstMatch, List.findIdx?_eq_some_iff_getElem]
        constructor
        · intro hvalue
          have hmem := List.getElem_mem hi
          refine ⟨hi, (hmatch _ hmem).mpr ⟨hknown _ hmem hvalue, hvalue⟩, fun j hj hmatchj => ?_⟩
          have hvaluej := ((hmatch _ (List.getElem_mem (hj.trans hi))).mp hmatchj).2
          exact List.pairwise_iff_getElem.mp hpairwise j i (hj.trans hi) hi hj ⟨hvaluej, hvalue⟩
        · rintro ⟨hlt, hmem, -⟩
          exact ((hmatch _ (List.getElem_mem hlt)).mp hmem).2

/-! ## Case statements with wildcards -/

/-- **Arms of statements with wildcards.** The instrumented statement selects the
arm of the source and the constraints of the arms hold just when they are
selected, if and only if zeros may stand for the `x` and `z` digits. -/
theorem wildcard_arm_exact (s : CaseStmt S) (h : (BranchStmt.case s).Accepted decl st) :
    (s.emitted.executed (currValue decl st ρ) = s.executed (currValue decl st ρ) ∧
        (BranchStmt.case s).Exact decl st ρ) ↔ s.ZeroFilled decl st ρ := by
  rw [← CaseStmt.exact_iff_zeroFilled h]
  exact and_iff_right_of_imp (CaseStmt.executed_emitted h)

end Constraints

/-- Two one-bit signals. -/
def pairDecl (_ : Bool) : SigDecl where
  width := 1
  isInput := true
  indexCount := 1

/-- Every signal has one version. -/
def pairState : SigState Bool where
  core := fun s =>
    { termStack := [s.toNat]
      currVersion := 0
      nextVersion := 0
      versionAtClock := fun _ => 0 }
  fresh := 2

/-- The variables below `n` are one. -/
def onesBelow (n : Nat) : Valuation
  | .bool, _ => false
  | .bv w, id => if id < n then BitVec.ofNat w 1 else 0
  | .fn _ _, _ => fun _ => 0

def pairSignal (s : Bool) : SMTExpr Bool := .leaf (.signal ⟨s, 0, 0, false⟩)

/-- `case (1'b1) a: ...; b: ...; endcase`. -/
def idiom : CaseStmt Bool where
  kind := .plain
  cond := .leaf (.number (.new [.one]))
  condWidth := 1
  arms := [some (.expr (pairSignal false)), some (.expr (pairSignal true))]

theorem idiom_accepted : (BranchStmt.case idiom).Accepted pairDecl pairState := by
  unfold BranchStmt.Accepted
  decide

/-- One of the signals is one. -/
theorem idiom_exact : (BranchStmt.case idiom).Exact pairDecl pairState (onesBelow 1) := by
  refine (arm_constraint_exact _ rfl idiom_accepted).mpr ⟨fun item hitem _ => ?_, ?_⟩
  · rcases List.mem_pair.mp hitem with rfl | rfl <;> trivial
  · unfold CaseItem.IsValue
    decide

/-- Both signals are one: Verilog takes the first arm, and the constraint of the
second holds as well. -/
theorem idiom_overlap :
    (BranchStmt.case idiom).isPlain ∧ (BranchStmt.case idiom).Accepted pairDecl pairState ∧
      (BranchStmt.case idiom).executed (currValue pairDecl pairState (onesBelow 2)) = some 0 ∧
      ¬ (BranchStmt.case idiom).Exact pairDecl pairState (onesBelow 2) := by
  refine ⟨rfl, idiom_accepted, by decide, fun hexact => ?_⟩
  have hiff := hexact 1 ⟨idiom.cond, pairSignal true⟩ rfl
  revert hiff
  unfold Holds
  decide

/-- `casez ({a, b}) 2'b1?: ...; default: ...; endcase`. -/
def wildcard : CaseStmt Bool where
  kind := .casez
  cond := .node (.concat 1) [pairSignal false, pairSignal true]
  condWidth := 2
  arms := [some (.number [.z, .one]), none]

theorem wildcard_accepted : (BranchStmt.case wildcard).Accepted pairDecl pairState := by
  unfold BranchStmt.Accepted
  decide

/-- The selector is `2'b10`. -/
theorem wildcard_zero :
    wildcard.emitted.executed (currValue pairDecl pairState (onesBelow 1)) =
        wildcard.executed (currValue pairDecl pairState (onesBelow 1)) ∧
      (BranchStmt.case wildcard).Exact pairDecl pairState (onesBelow 1) := by
  refine (wildcard_arm_exact _ wildcard_accepted).mpr fun i item hitem => ?_
  match i with
  | 0 =>
      obtain rfl := Option.some.inj hitem
      have hcond : currValue pairDecl pairState (onesBelow 1) wildcard.cond = some ⟨.bv 2, 2⟩ := by
        decide
      rw [if_pos (by decide), hcond, CaseItem.Clear]
      decide
  | _ + 1 => cases hitem

/-- The selector is `2'b11`: Verilog takes the first arm, the instrumented design
takes the default, and so say the constraints. -/
theorem wildcard_one :
    (BranchStmt.case wildcard).Accepted pairDecl pairState ∧
      wildcard.executed (currValue pairDecl pairState (onesBelow 2)) = some 0 ∧
      wildcard.emitted.executed (currValue pairDecl pairState (onesBelow 2)) = some 1 ∧
      ¬ (BranchStmt.case wildcard).Exact pairDecl pairState (onesBelow 2) := by
  refine ⟨wildcard_accepted, by decide, by decide, fun hexact => ?_⟩
  have hiff := hexact 0 ⟨wildcard.cond, .leaf (.number (.new [.z, .one]))⟩ rfl
  revert hiff
  unfold Holds
  decide

end Conquest
