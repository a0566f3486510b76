import Mathlib.Data.List.Forall2
import Mathlib.Logic.Encodable.Basic
import Conquest.Smt.Expr

/-!
# Value — the value of an expression

The term of an expression takes its value from the values of the signals it
reads, whatever versions and variables stand for them. An expression therefore
has a value in every store of the signals, and `eval_term` denotes that value
wherever the current versions carry the store.
-/

namespace Conquest

open Bv

variable {S : Type} (decl : S → SigDecl)

/-! ## Operands with the same values -/

section Congr

variable {ρ ρ' : Valuation}

theorem TermFn1.call_congr (f : TermFn1) {t t' : TermT} (h : denote ρ t = denote ρ' t') :
    denote ρ (f.call t) = denote ρ' (f.call t') := by
  cases f with
  | op f => exact mkOp1_congr f h
  | red f => exact mkRed_congr f h

theorem TermFn2.call_congr (f : TermFn2) {s s' t t' : TermT} (hs : denote ρ s = denote ρ' s')
    (ht : denote ρ t = denote ρ' t') : denote ρ (f.call s t) = denote ρ' (f.call s' t') := by
  cases f with
  | op f => exact mkOp2_congr f hs ht
  | redcomp => exact mkComp_congr hs ht
  | atom r => exact mkRel_congr r hs ht

theorem SMTUnary.evalTerm_congr (u : SMTUnary) {t t' : TermT} (h : denote ρ t = denote ρ' t') :
    denote ρ (u.evalTerm t) = denote ρ' (u.evalTerm t') := by
  unfold SMTUnary.evalTerm
  cases u.func with
  | none => rfl
  | some f =>
      cases u.isInverted with
      | false => exact f.call_congr h
      | true => exact mkOp1_congr .not (f.call_congr h)

theorem SMTBinary.evalTerm_congr (b : SMTBinary) {s s' t t' : TermT}
    (hs : denote ρ s = denote ρ' s') (ht : denote ρ t = denote ρ' t') :
    denote ρ (b.evalTerm s t) = denote ρ' (b.evalTerm s' t') := by
  unfold SMTBinary.evalTerm
  cases b.func with
  | none => rfl
  | some f =>
      have hcall := f.call_congr hs ht
      cases b.isBool <;> cases b.isInverted
      · exact hcall
      · exact mkOp1_congr .not hcall
      · exact mkOfBool_congr hcall
      · exact mkOp1_congr .not (mkOfBool_congr hcall)

theorem SMTLogic.evalTerm_congr (l : SMTLogic) {s s' t t' : TermT}
    (hs : denote ρ s = denote ρ' s') (ht : denote ρ t = denote ρ' t') :
    denote ρ (l.evalTerm s t) = denote ρ' (l.evalTerm s' t') := by
  unfold SMTLogic.evalTerm
  cases l.func with
  | none => rfl
  | some f => exact mkOp2_congr f hs ht

/-- The value of a node depends on the values of its operands only. -/
theorem SMTClass.evalTerm_congr (cls : SMTClass) {ts ts' : List TermT}
    (h : List.Forall₂ (fun t t' => denote ρ t = denote ρ' t') ts ts') :
    denote ρ (cls.evalTerm ts) = denote ρ' (cls.evalTerm ts') := by
  cases cls with
  | concat rep =>
      have hconcat := mkConcat_congr h
      by_cases hrep : rep = 1
      · simpa [SMTClass.evalTerm, hrep] using hconcat
      · simpa [SMTClass.evalTerm, hrep] using mkRep_congr rep hconcat
  | custom operand =>
      cases operand with
      | and => exact mkAnd_congr h
      | true => rfl
      | ne =>
          rcases h with _ | ⟨ha, _ | ⟨hb, hrest⟩⟩
          · rfl
          · rfl
          · exact mkNot_congr (mkEq_congr ha hb)
  | unary u =>
      rcases h with _ | ⟨ha, hrest⟩
      · rfl
      · exact u.evalTerm_congr ha
  | binary b =>
      rcases h with _ | ⟨ha, _ | ⟨hb, hrest⟩⟩
      · rfl
      · rfl
      · exact b.evalTerm_congr ha hb
  | logic l =>
      rcases h with _ | ⟨ha, _ | ⟨hb, hrest⟩⟩
      · rfl
      · rfl
      · exact l.evalTerm_congr ha hb
  | ternary =>
      rcases h with _ | ⟨hc, _ | ⟨ha, _ | ⟨hb, hrest⟩⟩⟩
      · rfl
      · rfl
      · rfl
      · exact mkIte_congr (mkEq_congr hc rfl) ha hb

end Congr

section Expr

variable {decl} {ρ ρ' : Valuation} {st st' : SigState S}

/-- The expression reads the signal. -/
inductive SMTExpr.Reads (s : S) : SMTExpr S → Prop
  | signal {sig : SMTSignal S} (h : sig.parent = s) : SMTExpr.Reads s (.leaf (.signal sig))
  | array {arr : SMTArray S} (h : arr.parent = s ∨ arr.indexTerm = s) :
      SMTExpr.Reads s (.leaf (.array arr))
  | node {cls : SMTClass} {es : List (SMTExpr S)} {e : SMTExpr S} (he : e ∈ es)
      (h : SMTExpr.Reads s e) : SMTExpr.Reads s (.node cls es)

theorem bvextract_congr (lo hi : Int) {t t' : TermT} (h : denote ρ t = denote ρ' t') :
    denote ρ (bvextract lo hi t) = denote ρ' (bvextract lo hi t') := by
  unfold bvextract
  split
  · exact mkExtract_congr _ _ h
  · rfl

theorem parseBvbin_congr (bits : Text.Line) :
    denote ρ (parseBvbin bits) = denote ρ' (parseBvbin bits) := by
  unfold parseBvbin
  split <;> rfl

theorem SMTLeaf.evalTerm_congr {l : SMTLeaf S}
    (h : ∀ s, SMTExpr.Reads s (.leaf l) →
      denote ρ (sigTerm decl st s .curr) = denote ρ' (sigTerm decl st' s .curr)) :
    denote ρ (l.evalTerm decl st .curr) = denote ρ' (l.evalTerm decl st' .curr) := by
  cases l with
  | string str => rfl
  | unspecified => rfl
  | number n => exact parseBvbin_congr n.valueBin
  | signal sig =>
      have hsig := h sig.parent (.signal rfl)
      simp only [SMTLeaf.evalTerm, SMTSignal.evalTerm]
      split
      · exact bvextract_congr _ _ hsig
      · exact hsig
  | array arr =>
      have harr := h arr.parent (.array (.inl rfl))
      simp only [SMTLeaf.evalTerm, SMTArray.evalTerm]
      split
      · exact mkApp_congr harr (h arr.indexTerm (.array (.inr rfl)))
      · exact mkApp_congr harr rfl

/-- The value of an expression depends on the values it reads only. -/
theorem SMTExpr.evalTerm_congr {e : SMTExpr S}
    (h : ∀ s, e.Reads s →
      denote ρ (sigTerm decl st s .curr) = denote ρ' (sigTerm decl st' s .curr)) :
    denote ρ (e.evalTerm decl st .curr) = denote ρ' (e.evalTerm decl st' .curr) := by
  induction e using SMTExpr.induct with
  | hleaf l => exact SMTLeaf.evalTerm_congr h
  | hnode cls es ih =>
      rw [SMTExpr.evalTerm_node, SMTExpr.evalTerm_node]
      refine cls.evalTerm_congr ?_
      rw [List.forall₂_map_left_iff, List.forall₂_map_right_iff]
      exact List.forall₂_same.mpr fun e he => ih e he fun s hs => h s (.node he hs)

end Expr

/-! ## Stores -/

/-- A value with its type; none where a term is null. -/
abbrev Value := Option (Sigma Ty.Carrier)

abbrev Store (S : Type) := S → Value

/-- The value of a signal that is zero in all its elements. -/
def SigDecl.zeroValue (d : SigDecl) : Value := some ⟨d.bvType, Valuation.zero d.bvType 0⟩

/-- A value that is zero in the elements of the signal. The index of an array may
count more elements. -/
def SigDecl.IsZero (d : SigDecl) (v : Value) : Prop :=
  if d.isArray then
    ∃ f : BitVec d.indexWidth → BitVec d.width, v = some ⟨.fn d.indexWidth d.width, f⟩ ∧
      ∀ i ≤ d.indexCount - 1, f (BitVec.ofNat d.indexWidth i) = 0#d.width
  else v = d.zeroValue

theorem SigDecl.isZero_zeroValue (d : SigDecl) : d.IsZero d.zeroValue := by
  unfold IsZero
  split
  · rename_i harr
    refine ⟨fun _ => 0#d.width, ?_, fun _ _ => rfl⟩
    rw [zeroValue, bvType, if_pos harr]
    rfl
  · rfl

/-- The index of an array of fewer than `2 ^ 20` elements counts no more of them. -/
theorem SigDecl.isZero_iff {d : SigDecl} (h : d.indexCount < 2 ^ 20) {v : Value} :
    d.IsZero v ↔ v = d.zeroValue := by
  constructor
  · intro hzero
    unfold IsZero at hzero
    split at hzero
    · rename_i harr
      obtain ⟨f, rfl, hf⟩ := hzero
      have hall : f = fun _ => 0#d.width := by
        funext x
        have hlt : x.toNat < 2 ^ Nat.log2 d.indexCount := indexWidth_of_lt h ▸ x.isLt
        have hle : x.toNat ≤ d.indexCount - 1 := by
          by_cases hcount : d.indexCount = 0
          · have hone : 2 ^ Nat.log2 0 = 1 := by decide
            rw [hcount, hone] at hlt
            omega
          · have hself := Nat.log2_self_le hcount
            omega
        have hx := hf x.toNat hle
        rwa [BitVec.ofNat_toNat, BitVec.setWidth_eq] at hx
      rw [hall, zeroValue, bvType, if_pos harr]
      rfl
    · exact hzero
  · intro hv
    exact hv ▸ d.isZero_zeroValue

namespace Store

variable [Encodable S]

/-- Every signal with a value has one version. -/
def state (σ : Store S) : SigState S where
  core := fun s =>
    { termStack := if (σ s).isSome then [Encodable.encode s] else []
      currVersion := 0
      nextVersion := 0
      versionAtClock := fun _ => 0 }
  fresh := 0

/-- That version has the value of the signal. -/
def valuation (σ : Store S) : Valuation := fun τ id =>
  match (Encodable.decode id : Option S).bind σ with
  | some ⟨υ, x⟩ => if h : υ = τ then h ▸ x else Valuation.zero τ id
  | none => Valuation.zero τ id

end Store

/-- The value of an expression in a store: what its term denotes there. -/
def SMTExpr.value [Encodable S] (σ : Store S) (e : SMTExpr S) : Value :=
  denote σ.valuation (e.evalTerm decl σ.state .curr)

variable {decl}

/-- A store whose values are those of some versions is carried by its own. -/
theorem Store.denote_sigTerm [Encodable S] {ρ : Valuation} {st : SigState S} {σ : Store S}
    {s : S} (h : denote ρ (sigTerm decl st s .curr) = σ s) :
    denote σ.valuation (sigTerm decl σ.state s .curr) = σ s := by
  cases hs : σ s with
  | none => simp [sigTerm, SMTSigCore.getTerm, SMTSigCore.version, Store.state, hs, denote]
  | some v =>
      obtain ⟨υ, x⟩ := v
      have hty : υ = (decl s).bvType := by
        rw [hs] at h
        unfold sigTerm at h
        split at h
        · cases h
        · cases h
          rfl
      subst hty
      simp [sigTerm, SMTSigCore.getTerm, SMTSigCore.version, Store.state, hs, denote, mkVar,
        Term.eval, Store.valuation]

/-- **Terms denote values.** Where the current versions carry a store, the term
of an expression has the expression's value in it. -/
theorem SMTExpr.denote_evalTerm [Encodable S] {ρ : Valuation} {st : SigState S} {σ : Store S}
    (h : ∀ s, denote ρ (sigTerm decl st s .curr) = σ s) (e : SMTExpr S) :
    denote ρ (e.evalTerm decl st .curr) = e.value decl σ :=
  SMTExpr.evalTerm_congr fun s _ => (h s).trans (Store.denote_sigTerm (h s)).symm

/-- The value of an expression depends on the signals it reads only. -/
theorem SMTExpr.value_congr [Encodable S] {σ σ' : Store S} {e : SMTExpr S}
    (h : ∀ s, e.Reads s → σ s = σ' s) : e.value decl σ = e.value decl σ' := by
  refine SMTExpr.evalTerm_congr fun s hs => ?_
  have hs := h s hs
  unfold sigTerm SMTSigCore.getTerm SMTSigCore.version Store.state
  dsimp only
  rw [hs]
  cases hv : σ' s with
  | none => rfl
  | some v => simp [denote, mkVar, Term.eval, Store.valuation, hs, hv]

/-! ## Initial terms -/

/-- The initial term says that version 0 is zero in the elements. -/
theorem SigDecl.holds_initTerm_iff {ρ : Valuation} (d : SigDecl) (id : Nat) :
    Holds ρ (d.initTerm id) ↔ d.IsZero (denote ρ (mkVar d.bvType id)) := by
  by_cases harr : d.isArray
  · have hty : d.bvType = .fn d.indexWidth d.width := by simp [SigDecl.bvType, harr]
    have helem : ∀ x : BitVec d.indexWidth,
        Holds ρ (mkEq (mkApp (mkVar d.bvType id) (mkConst x)) (mkConst (0#d.width))) ↔
          ρ (.fn d.indexWidth d.width) id x = 0 := by
      intro x
      rw [hty, holds_mkEq_iff]
      simp [mkApp, mkVar, mkConst, denote, Term.eval]
    simp only [SigDecl.initTerm, harr, if_true]
    rw [holds_foldl_mkAnd2_iff, SigDecl.IsZero, if_pos harr, hty]
    rw [hty] at helem
    simp only [helem]
    constructor
    · rintro ⟨hzero, hsucc⟩
      refine ⟨_, rfl, fun i hi => ?_⟩
      cases i with
      | zero => exact hzero
      | succ i => exact hsucc i (List.mem_range.mpr (by omega))
    · rintro ⟨f, hf, hzero⟩
      cases hf
      exact ⟨hzero 0 (Nat.zero_le _), fun i hi => hzero (i + 1) (List.mem_range.mp hi)⟩
  · have hty : d.bvType = .bv d.width := by simp [SigDecl.bvType, harr]
    rw [SigDecl.initTerm, if_neg harr, SigDecl.IsZero, if_neg harr, SigDecl.zeroValue, hty,
      holds_mkEq_iff]
    simp [mkVar, mkConst, denote, Term.eval, Valuation.zero]

end Conquest
