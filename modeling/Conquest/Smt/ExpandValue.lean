import Conquest.Smt.Expand
import Conquest.Smt.Value

/-!
# ExpandValue — the value of an expanded expression

Under a valuation that satisfies the single assignments, an expanded expression
has the value of its original as long as no inversion or bool wrapping is lost
on the way and every substituted signal is read at the bits that its assignment
writes.
-/

namespace Conquest

open Bv Relation

variable {S : Type} (decl : S → SigDecl) (st : SigState S)

/-! ## Copied nodes -/

/-- The copy of the node has the same attributes where they matter. -/
def SMTClass.Kept : SMTClass → Prop
  | .unary u => u.isInverted = false
  | .binary b => b.isBool = false ∧ b.isInverted = false
  | _ => True

theorem SMTClass.evalTerm_expanded {cls : SMTClass} (h : cls.Kept) (ts : List TermT) :
    cls.expanded.evalTerm ts = cls.evalTerm ts := by
  cases cls with
  | concat rep => rfl
  | custom operand => rfl
  | ternary => rfl
  | logic l => rcases ts with _ | ⟨s, _ | ⟨t, ts⟩⟩ <;> rfl
  | unary u =>
      rcases ts with _ | ⟨t, ts⟩
      · rfl
      · simp only [SMTClass.Kept] at h
        simp [SMTClass.expanded, SMTClass.evalTerm, SMTUnary.evalTerm, SMTUnary.new, h]
  | binary b =>
      rcases ts with _ | ⟨s, _ | ⟨t, ts⟩⟩
      · rfl
      · rfl
      · simp only [SMTClass.Kept] at h
        simp [SMTClass.expanded, SMTClass.evalTerm, SMTBinary.evalTerm, SMTBinary.new, h]

/-! ## Clean expressions -/

/-- The bits a signal is read or written at; none for the whole signal. -/
def SMTSignal.selection (sig : SMTSignal S) : Option (Int × Int) :=
  if ¬ sig.isWhole decl ∧ sig.isIndexTerm = false then some (sig.lsb, sig.msb) else none

theorem SMTSignal.evalTerm_of_selection {sig sig' : SMTSignal S}
    (hparent : sig.parent = sig'.parent) (hsel : sig.selection decl = sig'.selection decl)
    (clk : SMTClkType) : sig.evalTerm decl st clk = sig'.evalTerm decl st clk := by
  unfold SMTSignal.selection at hsel
  unfold SMTSignal.evalTerm
  rw [← hparent]
  split at hsel <;> split at hsel
  · rename_i h h'
    obtain ⟨hlsb, hmsb⟩ := Prod.mk.inj (Option.some.inj hsel)
    rw [if_pos h, if_pos h', hlsb, hmsb]
  · cases hsel
  · cases hsel
  · rename_i h h'
    rw [if_neg h, if_neg h']

/-- The assignment writes its signal without an index. -/
def PlainWrite (a : SMTAssign S) (lsig : SMTSignal S) : Prop :=
  lsig.isIndexTerm = false ∧ ∃ isCommit index, a.target = .assign isCommit (.signal lsig index)

variable (assignments : S → List (SMTAssign S))

/-- The valuation satisfies every single assignment in the current versions. -/
def SatisfiesSingles (ρ : Valuation) : Prop :=
  ∀ s a lsig, assignments s = [a] → PlainWrite a lsig →
    Holds ρ (mkEq (lsig.evalTerm decl st .curr) (a.rval.evalTerm decl st .curr))

/-- No copy loses an attribute, and every substituted signal is read at the bits
that its single assignment writes; the same of all right-hand sides. -/
inductive Clean : SMTExpr S → Prop
  | leaf {l : SMTLeaf S}
      (h : ∀ sig a, l = .signal sig → assignments sig.parent ≠ [a]) : Clean (.leaf l)
  | signal {sig lsig : SMTSignal S} {a : SMTAssign S} (ha : assignments sig.parent = [a])
      (hwrite : PlainWrite a lsig) (hparent : lsig.parent = sig.parent)
      (hbits : lsig.selection decl = sig.selection decl) (hrval : Clean a.rval) :
      Clean (.leaf (.signal sig))
  | node {cls : SMTClass} {es : List (SMTExpr S)} (hkept : cls.Kept)
      (h : ∀ e ∈ es, Clean e) : Clean (.node cls es)

variable {decl st assignments}

/-- Clean expressions read grounded signals: the inductive definition leaves no
room for a cycle. -/
theorem Clean.grounded {e : SMTExpr S} (h : Clean decl assignments e) :
    ∀ s, ReadsSignal s e → Grounded assignments s := by
  induction h with
  | leaf hnot =>
      intro s hs
      cases hs with
      | leaf hparent =>
          refine Acc.intro s fun t ht => ?_
          obtain ⟨a, ha, -⟩ := ht
          exact absurd (hparent ▸ ha) (hnot _ a rfl)
  | signal ha _ _ _ _ ih =>
      intro s hs
      cases hs with
      | leaf hparent =>
          subst hparent
          refine Acc.intro _ fun t ht => ?_
          obtain ⟨a', ha', ht⟩ := ht
          rw [ha] at ha'
          cases ha'
          exact ih t ht
  | node _ _ ih => exact forall_reads_node.mpr ih

theorem clean_node_iff {cls : SMTClass} {es : List (SMTExpr S)} :
    Clean decl assignments (.node cls es) ↔
      cls.Kept ∧ ∀ e ∈ es, Clean decl assignments e := by
  constructor
  · rintro (_ | _ | ⟨hkept, h⟩)
    exact ⟨hkept, h⟩
  · rintro ⟨hkept, h⟩
    exact .node hkept h

/-- A right-hand side has the value of the bits that its assignment writes. -/
theorem SatisfiesSingles.denote_eq {ρ : Valuation}
    (hsat : SatisfiesSingles decl st assignments ρ) {s : S} {a : SMTAssign S}
    {lsig : SMTSignal S} (ha : assignments s = [a]) (hwrite : PlainWrite a lsig) :
    denote ρ (a.rval.evalTerm decl st .curr) = denote ρ (lsig.evalTerm decl st .curr) :=
  (holds_mkEq_iff.mp (hsat s a lsig ha hwrite)).1.symm

/-- The expansion of an expression, if that was clean, has its value. -/
def SameValue (decl : S → SigDecl) (st : SigState S) (assignments : S → List (SMTAssign S))
    (e e' : SMTExpr S) : Prop :=
  Clean decl assignments e → ∀ ρ, SatisfiesSingles decl st assignments ρ →
    denote ρ (e'.evalTerm decl st .curr) = denote ρ (e.evalTerm decl st .curr)

/-- The operands of a copied node, if they were clean, have the old values. -/
theorem operands_sameValue {es es' : List (SMTExpr S)} {ρ : Valuation}
    (hsat : SatisfiesSingles decl st assignments ρ)
    (h : List.Forall₂ (SameValue decl st assignments) es es')
    (hclean : ∀ e ∈ es, Clean decl assignments e) :
    List.Forall₂ (fun t t' => denote ρ t = denote ρ t')
      (es'.map (SMTExpr.evalTerm decl st .curr)) (es.map (SMTExpr.evalTerm decl st .curr)) := by
  induction h with
  | nil => exact .nil
  | cons hhead _ ih =>
      obtain ⟨hc, hcs⟩ := List.forall_mem_cons.mp hclean
      exact .cons (hhead hc ρ hsat) (ih hcs)

variable [DecidableEq S]

theorem getExpanded_sameValue {fuel : Nat} {e e' : SMTExpr S} {memo memo' : Memo S}
    (hm : MemoSound assignments (SameValue decl st assignments) memo)
    (h : getExpanded assignments fuel e memo = some (e', memo')) :
    SameValue decl st assignments e e' ∧
      MemoSound assignments (SameValue decl st assignments) memo' := by
  refine getExpanded_rel ?_ ?_ ?_ hm h
  · intro l _ _ ρ _
    rfl
  · intro sig a e ha hrval hclean ρ hsat
    cases hclean with
    | leaf hnot => exact absurd ha (hnot sig a rfl)
    | signal ha' hwrite hparent hbits hclean =>
        rw [ha] at ha'
        cases ha'
        rw [hrval hclean ρ hsat, hsat.denote_eq ha hwrite]
        exact congrArg (denote ρ) (SMTSignal.evalTerm_of_selection decl st hparent hbits .curr)
  · intro cls es es' hes hclean ρ hsat
    obtain ⟨hkept, hcleans⟩ := clean_node_iff.mp hclean
    rw [SMTExpr.evalTerm_node, SMTExpr.evalTerm_node, SMTClass.evalTerm_expanded hkept]
    exact cls.evalTerm_congr (operands_sameValue hsat hes hcleans)

theorem memoSound_sameValue {memo : Memo S} (h : MemoReached assignments memo) :
    MemoSound assignments (SameValue decl st assignments) memo := by
  induction h with
  | empty => exact memoSound_empty _
  | call _ hcall ih => exact (getExpanded_sameValue ih hcall).2

/-! ## A lost attribute always shows -/

theorem not_ne_self {w : Nat} (hw : 1 ≤ w) (x : BitVec w) : ~~~x ≠ x := by
  intro h
  have hmsb := congrArg BitVec.msb h
  rw [BitVec.msb_not] at hmsb
  cases hx : x.msb <;> simp [hx] at hmsb
  omega

/-- A handle that denotes a bit-vector, and its complement. -/
theorem denote_mkOp1_not_ne {ρ : Valuation} {t : TermT} {w : Nat} (hw : 1 ≤ w) {x : BitVec w}
    (h : Denotes ρ (mkOp1 .not t) x) : denote ρ t ≠ denote ρ (mkOp1 .not t) := by
  intro heq
  have ht : Denotes ρ t x := heq.trans h
  exact not_ne_self hw x ((ht.op1 .not).inj h)

/-- A handle with a bit-vector value cannot be wrapped into one bit. -/
theorem mkOfBool_of_denotes {ρ : Valuation} {t : TermT} {w : Nat} {x : BitVec w}
    (h : Denotes ρ t x) : mkOfBool t = none := by
  obtain ⟨a, rfl, -⟩ := h.exists_term
  rfl

theorem denote_mkOfBool_ne {ρ : Valuation} {t : TermT} {w : Nat} {x : BitVec w}
    (h : Denotes ρ (mkOfBool t) x) : denote ρ t ≠ denote ρ (mkOfBool t) := by
  intro heq
  rw [mkOfBool_of_denotes (show Denotes ρ t x from heq.trans h)] at h
  exact not_denotes_none x h

theorem denote_not_mkOfBool_ne {ρ : Valuation} {t : TermT} {w : Nat} {x : BitVec w}
    (h : Denotes ρ (mkOp1 .not (mkOfBool t)) x) :
    denote ρ t ≠ denote ρ (mkOp1 .not (mkOfBool t)) := by
  intro heq
  rw [mkOfBool_of_denotes (show Denotes ρ t x from heq.trans h)] at h
  exact not_denotes_none x h

/-- Without its attribute, a node with a bit-vector value changes it. -/
theorem SMTClass.evalTerm_expanded_ne {cls : SMTClass} (h : ¬ cls.Kept) {ts : List TermT}
    {ρ : Valuation} {w : Nat} (hw : 1 ≤ w) {x : BitVec w} (hx : Denotes ρ (cls.evalTerm ts) x) :
    denote ρ (cls.expanded.evalTerm ts) ≠ denote ρ (cls.evalTerm ts) := by
  cases cls with
  | concat rep => exact absurd trivial h
  | custom operand => exact absurd trivial h
  | logic l => exact absurd trivial h
  | ternary => exact absurd trivial h
  | unary u =>
      rcases ts with _ | ⟨t, ts⟩
      · exact absurd hx (not_denotes_none x)
      · have hinv : u.isInverted = true := by simpa [SMTClass.Kept] using h
        simp only [SMTClass.expanded, SMTClass.evalTerm, SMTUnary.evalTerm, SMTUnary.new,
          hinv] at hx ⊢
        cases hf : u.func with
        | none =>
            rw [hf] at hx
            exact absurd hx (not_denotes_none x)
        | some f =>
            rw [hf] at hx
            exact denote_mkOp1_not_ne hw hx
  | binary b =>
      rcases ts with _ | ⟨s, _ | ⟨t, ts⟩⟩
      · exact absurd hx (not_denotes_none x)
      · exact absurd hx (not_denotes_none x)
      · simp only [SMTClass.expanded, SMTClass.evalTerm, SMTBinary.evalTerm, SMTBinary.new] at hx ⊢
        cases hf : b.func with
        | none =>
            rw [hf] at hx
            exact absurd hx (not_denotes_none x)
        | some f =>
            simp only [hf, Bool.false_eq_true, if_false] at hx ⊢
            -- each attribute wraps the term, and the copy lacks the wrapping
            cases hbool : b.isBool <;> cases hinv : b.isInverted <;> rw [hbool, hinv] at hx
            · exact absurd ⟨hbool, hinv⟩ h
            · exact denote_mkOp1_not_ne hw hx
            · exact denote_mkOfBool_ne hx
            · exact denote_not_mkOfBool_ne hx

/-- A node whose operands are clean is copied with its value exactly when its
copy keeps the attributes. -/
theorem node_sameValue_iff {memo : Memo S} (hmemo : MemoReached assignments memo) {fuel : Nat}
    {cls : SMTClass} {es : List (SMTExpr S)} {e' : SMTExpr S} {memo' : Memo S}
    (h : getExpanded assignments fuel (.node cls es) memo = some (e', memo'))
    (hclean : ∀ e ∈ es, Clean decl assignments e) {ρ : Valuation}
    (hsat : SatisfiesSingles decl st assignments ρ) {w : Nat} (hw : 1 ≤ w) {x : BitVec w}
    (hx : Denotes ρ ((SMTExpr.node cls es).evalTerm decl st .curr) x) :
    denote ρ (e'.evalTerm decl st .curr) =
      denote ρ ((SMTExpr.node cls es).evalTerm decl st .curr) ↔ cls.Kept := by
  cases fuel with
  | zero => cases h
  | succ fuel =>
      rw [getExpanded, Option.map_eq_some_iff] at h
      obtain ⟨⟨es', memo₁⟩, hes, hret⟩ := h
      cases hret
      have hstep : ∀ e memo e' memo', MemoSound assignments (SameValue decl st assignments) memo →
          getExpanded assignments fuel e memo = some (e', memo') →
          SameValue decl st assignments e e' ∧
            MemoSound assignments (SameValue decl st assignments) memo' :=
        fun _ _ _ _ hm h => getExpanded_sameValue hm h
      obtain ⟨hsame, -⟩ := expandList_rel hstep (memoSound_sameValue hmemo) hes
      have hops := operands_sameValue hsat hsame hclean
      rw [SMTExpr.evalTerm_node] at hx ⊢
      rw [SMTExpr.evalTerm_node, cls.expanded.evalTerm_congr hops]
      constructor
      · intro heq
        by_contra hkept
        exact SMTClass.evalTerm_expanded_ne hkept hw hx heq
      · intro hkept
        rw [SMTClass.evalTerm_expanded hkept]

/-- A signal with a clean right-hand side is replaced by its value exactly when
the bits its assignment writes have the value of the bits it is read at. -/
theorem signal_sameValue_iff {memo : Memo S} (hmemo : MemoReached assignments memo) {fuel : Nat}
    {sig lsig : SMTSignal S} {a : SMTAssign S} {e' : SMTExpr S} {memo' : Memo S}
    (ha : assignments sig.parent = [a]) (hwrite : PlainWrite a lsig)
    (hclean : Clean decl assignments a.rval)
    (h : getExpanded assignments fuel (.leaf (.signal sig)) memo = some (e', memo'))
    {ρ : Valuation} (hsat : SatisfiesSingles decl st assignments ρ) :
    denote ρ (e'.evalTerm decl st .curr) =
        denote ρ ((SMTExpr.leaf (.signal sig)).evalTerm decl st .curr) ↔
      denote ρ (lsig.evalTerm decl st .curr) = denote ρ (sig.evalTerm decl st .curr) := by
  have hrval : denote ρ (e'.evalTerm decl st .curr) = denote ρ (a.rval.evalTerm decl st .curr) := by
    cases fuel with
    | zero => cases h
    | succ fuel =>
        rw [getExpanded_single ha, getExpandedRval] at h
        split at h
        · rename_i e₀ hmem
          cases h
          exact memoSound_sameValue hmemo _ a e' ha hmem hclean ρ hsat
        · obtain ⟨⟨e₁, memo₁⟩, hr, hret⟩ := Option.map_eq_some_iff.mp h
          cases hret
          exact (getExpanded_sameValue (memoSound_sameValue hmemo) hr).1 hclean ρ hsat
  rw [hrval, hsat.denote_eq ha hwrite]
  rfl

/-- **Values of expanded expressions.** Whatever earlier calls have remembered, a
clean expression has an expansion, and every expansion of it has its value under
all valuations that satisfy the single assignments. Where only the operands of a
node, or the right-hand side of a signal, are clean, the value survives exactly
when the node keeps its attributes, or the written bits have the value of the
bits read. -/
theorem getExpanded_value {memo : Memo S} (hmemo : MemoReached assignments memo) :
    (∀ e, Clean decl assignments e →
      (∃ fuel r, getExpanded assignments fuel e memo = some r) ∧
      ∀ fuel e' memo', getExpanded assignments fuel e memo = some (e', memo') →
        ∀ ρ, SatisfiesSingles decl st assignments ρ →
          denote ρ (e'.evalTerm decl st .curr) = denote ρ (e.evalTerm decl st .curr)) ∧
    (∀ fuel cls es e' memo',
      getExpanded assignments fuel (.node cls es) memo = some (e', memo') →
      (∀ e ∈ es, Clean decl assignments e) →
      ∀ ρ, SatisfiesSingles decl st assignments ρ → ∀ (w : Nat) (x : BitVec w), 1 ≤ w →
        Denotes ρ ((SMTExpr.node cls es).evalTerm decl st .curr) x →
        (denote ρ (e'.evalTerm decl st .curr) =
          denote ρ ((SMTExpr.node cls es).evalTerm decl st .curr) ↔ cls.Kept)) ∧
    ∀ fuel sig lsig a e' memo', assignments sig.parent = [a] → PlainWrite a lsig →
      Clean decl assignments a.rval →
      getExpanded assignments fuel (.leaf (.signal sig)) memo = some (e', memo') →
      ∀ ρ, SatisfiesSingles decl st assignments ρ →
        (denote ρ (e'.evalTerm decl st .curr) =
            denote ρ ((SMTExpr.leaf (.signal sig)).evalTerm decl st .curr) ↔
          denote ρ (lsig.evalTerm decl st .curr) = denote ρ (sig.evalTerm decl st .curr)) := by
  refine ⟨fun e hclean => ⟨?_, ?_⟩, ?_, ?_⟩
  · exact (returns_iff_grounded hmemo e).mpr hclean.grounded
  · intro fuel e' memo' h ρ hsat
    exact (getExpanded_sameValue (memoSound_sameValue hmemo) h).1 hclean ρ hsat
  · intro fuel cls es e' memo' h hclean ρ hsat w x hw hx
    exact node_sameValue_iff hmemo h hclean hsat hw hx
  · intro fuel sig lsig a e' memo' ha hwrite hclean h ρ hsat
    exact signal_sameValue_iff hmemo ha hwrite hclean h hsat

/-! ## A wire, and a logical negation -/

/-- One-bit signals, none of them an input. -/
def bitDecl {T : Type} : T → SigDecl := fun _ => { width := 1, isInput := false, indexCount := 1 }

/-- Version 0 of the signals. -/
def bitState {T : Type} (id : T → Nat) : SigState T where
  core := fun s => { termStack := [id s], currVersion := 0, nextVersion := 0,
                     versionAtClock := fun _ => 0 }
  fresh := 2

/-- The wire of `wireAssignments`, expanded, has the wire's value wherever the
assignment is satisfied. -/
theorem wire_expanded_value :
    ∃ e' memo', getExpanded wireAssignments 3 (.leaf (.signal ⟨true, 0, 0, false⟩))
        (fun _ => none) = some (e', memo') ∧
      ∀ ρ, SatisfiesSingles bitDecl (bitState Bool.toNat) wireAssignments ρ →
        denote ρ (e'.evalTerm bitDecl (bitState Bool.toNat) .curr) =
          denote ρ ((SMTExpr.leaf (.signal ⟨true, 0, 0, false⟩)).evalTerm bitDecl
            (bitState Bool.toNat) .curr) := by
  have hinput : Clean bitDecl wireAssignments (.leaf (.signal ⟨false, 0, 0, false⟩)) := by
    refine .leaf fun sig a hl ha => ?_
    cases hl
    cases ha
  have hclean : Clean bitDecl wireAssignments (.leaf (.signal ⟨true, 0, 0, false⟩)) := by
    refine .signal rfl ⟨rfl, true, none, rfl⟩ rfl rfl (.node rfl fun e he => ?_)
    rw [List.mem_singleton.mp he]
    exact hinput
  have h := (@getExpanded_value Bool bitDecl (bitState Bool.toNat) wireAssignments _ _
    .empty).1 _ hclean
  exact ⟨_, _, rfl, h.2 3 _ _ rfl⟩

/-- The condition `!a`. -/
def notA : SMTExpr Unit :=
  .node (.unary { opcode := "bv-redor", func := some (.red .or), isInverted := true })
    [.leaf (.signal ⟨(), 0, 0, false⟩)]

/-- The expansion of `!a` has the value of `a`. -/
theorem notA_expanded_value :
    ∃ e' memo', getExpanded (fun _ : Unit => []) 2 notA (fun _ => none) = some (e', memo') ∧
      SatisfiesSingles bitDecl (bitState fun _ => 0) (fun _ : Unit => []) Valuation.zero ∧
      Denotes Valuation.zero (notA.evalTerm bitDecl (bitState fun _ => 0) .curr) 1#1 ∧
      Denotes Valuation.zero (e'.evalTerm bitDecl (bitState fun _ => 0) .curr) 0#1 := by
  refine ⟨_, _, rfl, ?_, rfl, rfl⟩
  intro s a lsig ha
  cases ha

end Conquest
