import Conquest.Lib.Bits
import Conquest.Smt.Grow
import Conquest.Smt.Select
import Conquest.Smt.Value

/-!
# Partial — assignments to a part of a vector

`emit_stmt_lval_piece` gives the signal of a left-hand side its bits, and
`update_term` constrains these bits of the next version. Nothing ties the other
bits to the current version, and the constraint of a bit at the value of a
signal is no formula.
-/

namespace Conquest

open Bv

variable {S : Type}

/-! ## The left-hand side -/

/-- `emit_stmt_lval_piece` of `width` bits of the signal `s`, with the signal that
becomes `_index`. -/
def emitStmtLvalPiece {w : Nat} (range : SigRange w) (s : S) (selExpr : Option (SelExpr S))
    (width : Nat) : Option (SMTSignal S × Option S) :=
  let sig := SMTSignal.new range s
  match selExpr with
  | none => if width = w then some (sig, none) else none
  | some e =>
      if width = 1 then emitScaledExpr range e sig
      else
        match e with
        | .number value => (emitScaledRange range value width sig).map fun sig => (sig, none)
        | _ => none

theorem emitStmtLvalPiece_number {w : Nat} {range : SigRange w} {s : S} {value : Int}
    {width : Nat} {r : SMTSignal S × Option S}
    (h : emitStmtLvalPiece range s (some (.number value)) width = some r) :
    r.2 = none ∧ r.1.parent = s ∧ r.1.isIndexTerm = false ∧ r.1.msb - r.1.lsb = width - 1 := by
  by_cases hone : width = 1
  · by_cases hrange : range.msb ≥ range.lsb
    all_goals
      simp only [emitStmtLvalPiece, emitScaledExpr, hone, hrange, if_true, if_false,
        Option.some.injEq] at h
      subst h
      exact ⟨rfl, rfl, rfl, by dsimp only; omega⟩
  · by_cases hrange : range.msb ≥ range.lsb
    · simp only [emitStmtLvalPiece, emitScaledRange, hone, hrange, if_true, if_false,
        Option.map_some, Option.some.injEq] at h
      subst h
      exact ⟨rfl, rfl, rfl, by dsimp only; omega⟩
    · simp [emitStmtLvalPiece, emitScaledRange, hone, hrange] at h

theorem emitStmtLvalPiece_signal {w : Nat} {range : SigRange w} {s i : S} {width : Nat}
    {r : SMTSignal S × Option S}
    (h : emitStmtLvalPiece range s (some (.signal i)) width = some r) :
    width = 1 ∧ r.2 = some i ∧ r.1.parent = s ∧ r.1.isIndexTerm = true := by
  by_cases hone : width = 1
  · by_cases hrange : range.msb ≥ range.lsb
    · simp only [emitStmtLvalPiece, emitScaledExpr, hone, hrange, if_true,
        Option.some.injEq] at h
      subst h
      exact ⟨hone, rfl, rfl, rfl⟩
    · simp [emitStmtLvalPiece, emitScaledExpr, hone, hrange] at h
  · simp [emitStmtLvalPiece, hone] at h

/-- The bits `offset` to `offset + width - 1` of `y` are those of `v`, the others
are those of `x`. -/
def Replaces {w width : Nat} (x y : BitVec w) (offset : Nat) (v : BitVec width) : Prop :=
  ∀ i < w, y.getLsbD i =
    if offset ≤ i ∧ i < offset + width then v.getLsbD (i - offset) else x.getLsbD i

theorem exists_replaces {w width : Nat} (x : BitVec w) (offset : Nat) (v : BitVec width) :
    ∃ y, Replaces x y offset v := exists_bits _

theorem Replaces.inj {w width : Nat} {x y y' : BitVec w} {offset : Nat} {v : BitVec width}
    (h : Replaces x y offset v) (h' : Replaces x y' offset v) : y = y' :=
  BitVec.eq_of_getLsbD_eq fun i hi => (h i hi).trans (h' i hi).symm

/-- All bits are replaced. -/
theorem replaces_whole_iff {w width : Nat} {x y : BitVec w} {v : BitVec width} (h : width = w) :
    Replaces x y 0 v ↔ (⟨.bv w, y⟩ : Sigma Ty.Carrier) = ⟨.bv width, v⟩ := by
  subst h
  rw [Sigma.mk.injEq, heq_eq_eq, and_iff_right rfl]
  constructor
  · intro h
    refine BitVec.eq_of_getLsbD_eq fun i hi => ?_
    rw [h i hi, if_pos ⟨Nat.zero_le i, by omega⟩, Nat.sub_zero]
  · rintro rfl i hi
    rw [if_pos ⟨Nat.zero_le i, by omega⟩, Nat.sub_zero]

section Update

variable [DecidableEq S] (decl : S → SigDecl) (ranges : ∀ s, SigRange (decl s).width)

/-- The record of an assignment to a part of `s`. -/
structure PartialAssign (S : Type) where
  s : S
  selExpr : SelExpr S
  width : Nat
  isCommit : Bool
  rval : SMTExpr S

/-- What the translation makes of it. -/
def PartialAssign.emit (p : PartialAssign S) (id process block : Nat) : Option (SMTAssign S) :=
  (emitStmtLvalPiece (ranges p.s) p.s (some p.selExpr) p.width).map fun (sig, index) =>
    { id := id
      target := .assign p.isCommit
        (.signal sig (index.map fun i => .leaf (.signal (.new (ranges i) i))))
      rval := p.rval
      process := process
      block := block }

/-- Under every valuation the constraint holds just when the new version is the
old one with the selected bits replaced. -/
def PartialAssign.Exact (st : SigState S) (p : PartialAssign S) (u : Update S) : Prop :=
  ∀ (ρ : Valuation) (x y : BitVec (decl p.s).width) (offset : Int) (v : BitVec p.width) (id : Nat),
    Denotes ρ (sigTerm decl st p.s .curr) x → u.written = some id →
    Denotes ρ (mkVar (.bv (decl p.s).width) id) y →
    (Select.expr (some p.selExpr) p.width).HasOffset decl st ρ offset →
    InVector (decl p.s).width offset p.width → Denotes ρ (p.rval.evalTerm decl st .curr) v →
    (Holds ρ u.term ↔ Replaces x y offset.toNat v)

/-- A number or a signal gives the offset, the latter with a constant 0 or 1 on
the right-hand side. -/
def PartialAssign.IsSelect (p : PartialAssign S) : Prop :=
  match p.selExpr with
  | .number _ => True
  | .signal _ => ∃ n : SMTNumber, p.rval = .leaf (.number n) ∧
      (n.valueBin = ['0'] ∨ n.valueBin = ['1'])
  | .other => False

/-- A constant select takes the whole vector. -/
def PartialAssign.IsWhole (p : PartialAssign S) : Prop :=
  match p.selExpr with
  | .number offset => p.width = (decl p.s).width ∨ ¬ InVector (decl p.s).width offset p.width
  | _ => False

variable {decl ranges} {st : SigState S} {p : PartialAssign S} {a : SMTAssign S}

/-! ## The new version is free -/

/-- The next version of a signal is the current one of none. -/
theorem next_ne_curr (hdistinct : st.Distinct) (hbelow : st.Below) {s s' : S}
    (hs : (st.core s).InBounds) {id id' : Nat}
    (hid : ((st.updateNextVersion s).core s).getTerm .next = some id)
    (hid' : (st.core s').getTerm .curr = some id') : id' ≠ id := by
  rintro rfl
  have hnext : ((st.updateNextVersion s).core s).nextVersion = (st.core s).nextVersion + 1 := by
    rw [SigState.updateNextVersion_core, if_pos rfl, SMTSigCore.updateNextVersion_nextVersion]
  rw [SMTSigCore.getTerm, SMTSigCore.version, hnext] at hid
  rw [SMTSigCore.getTerm, SMTSigCore.version] at hid'
  rcases (records_updateNextVersion st s).termStack_cases hid with hold | ⟨-, -, hfresh⟩
  · obtain ⟨rfl, hversion⟩ := hdistinct s s' _ _ _ hold hid'
    have hle := hs.1
    omega
  · have hlt := hbelow s' _ (List.mem_of_getElem? hid')
    omega

/-- The current versions stay as they are. -/
theorem sigTerm_curr_updateNextVersion {s : S} (hs : (st.core s).InBounds) (s' : S) :
    sigTerm decl (st.updateNextVersion s) s' .curr = sigTerm decl st s' .curr := by
  rw [sigTerm, sigTerm]
  congr 1
  by_cases heq : s' = s
  · subst heq
    obtain ⟨hcurr, hnext⟩ := hs
    rw [SigState.updateNextVersion_core, if_pos rfl, SMTSigCore.getTerm, SMTSigCore.getTerm,
      SMTSigCore.version, SMTSigCore.version, SMTSigCore.updateNextVersion_currVersion,
      SMTSigCore.updateNextVersion_termStack, List.getElem?_append_left (by omega)]
  · rw [SigState.updateNextVersion_core, if_neg heq]

omit [DecidableEq S] in
/-- What a value of the new version leaves as it is. -/
theorem denote_curr_set {ρ : Valuation} {τ : Ty} {id : Nat} {y : τ.Carrier} {s : S}
    (h : ∀ id', (st.core s).getTerm .curr = some id' → id' ≠ id) :
    denote (ρ.set τ id y) (sigTerm decl st s .curr) = denote ρ (sigTerm decl st s .curr) := by
  rw [sigTerm]
  cases hterm : (st.core s).getTerm .curr with
  | none => rfl
  | some id' => exact denote_mkVar_set_of_ne ρ y (h id' hterm)

/-! ## The constraint -/

/-- The constraint and the version that it is about. -/
theorem updateTerm_signal (decl : S → SigDecl) {sig : SMTSignal S}
    {index : Option (SMTExpr S)} {isCommit : Bool}
    (ha : a.target = .assign isCommit (.signal sig index)) (st : SigState S) :
    (a.updateTerm decl st).term =
        (constrain decl sig index a.rval (st.updateNextVersion sig.parent)).term ∧
      (a.updateTerm decl st).written =
        ((st.updateNextVersion sig.parent).core sig.parent).getTerm .next := by
  have hwritten : (constrain decl sig index a.rval (st.updateNextVersion sig.parent)).written =
      ((st.updateNextVersion sig.parent).core sig.parent).getTerm .next := by
    unfold constrain
    split <;> rfl
  rw [← hwritten, SMTAssign.updateTerm, ha]
  cases isCommit <;> exact ⟨rfl, rfl⟩

omit [DecidableEq S] in
/-- The vector with the mask applied is no formula. -/
theorem not_holds_bitWrite {ρ : Valuation} (sig : SMTSignal S) (index : Option (SMTExpr S))
    (n : SMTNumber) (st : SigState S) : ¬ Holds ρ (bitWrite decl sig index n st).term := by
  unfold bitWrite
  dsimp only
  split
  · exact not_holds_mkOp2
  · split
    · exact not_holds_mkOp2
    · exact fun h => by cases h

omit [DecidableEq S] in
/-- A part that is not the whole leaves the new version more than one value. -/
theorem exists_other_of_part {sig : SMTSignal S} {rval : SMTExpr S} {id w width : Nat}
    (hw : (decl sig.parent).width = w) (hs : (decl sig.parent).isArray = false)
    (hindex : sig.isIndexTerm = false) (hbits : sig.msb - sig.lsb = width - 1)
    (hpart : width ≠ w) (hid : (st.core sig.parent).getTerm .next = some id)
    {ρ : Valuation} {y : BitVec w}
    (hrval : ∀ y' : BitVec w, denote (ρ.set (.bv w) id y') (rval.evalTerm decl st .curr) =
      denote ρ (rval.evalTerm decl st .curr))
    (h : Holds (ρ.set (.bv w) id y) (signalWrite decl sig rval st).term) :
    ∃ y' ≠ y, Holds (ρ.set (.bv w) id y') (signalWrite decl sig rval st).term := by
  have hterm : sigTerm decl st sig.parent .next = mkVar (.bv w) id := by
    rw [sigTerm, hid, SigDecl.bvType, hs, hw]
    rfl
  have heval : sig.evalTerm decl st .next = bvextract sig.lsb sig.msb (mkVar (.bv w) id) := by
    rw [SMTSignal.evalTerm, hterm, if_pos]
    refine ⟨?_, hindex⟩
    rw [SMTSignal.isWhole, hw]
    omega
  rw [signalWrite, heval] at h
  have hinside : InVector w sig.lsb width := by
    by_contra hout
    rw [show sig.msb = sig.lsb + (width - 1) by omega, bvextract_eq_none hout] at h
    cases h
  have hlt : width < w := by
    obtain ⟨hzero, hle⟩ := hinside
    omega
  -- flip a bit of the new version that the slice does not have
  obtain ⟨j, hj, hout⟩ := exists_bit_outside sig.lsb.toNat hlt
  obtain ⟨y', hne, hsame⟩ := exists_flip y hj
  refine ⟨y', hne, ?_⟩
  have hextract : denote (ρ.set (.bv w) id y') (bvextract sig.lsb sig.msb (mkVar (.bv w) id)) =
      denote (ρ.set (.bv w) id y) (bvextract sig.lsb sig.msb (mkVar (.bv w) id)) := by
    rw [bvextract]
    split
    · refine denote_mkExtract_congr (denotes_mkVar_set ρ id y') (denotes_mkVar_set ρ id y) ?_
      intro i hlo hhi
      exact hsame i (by omega)
    · rfl
  rw [signalWrite, heval, Holds, mkEq_congr hextract ((hrval y').trans (hrval y).symm)]
  exact h

omit [DecidableEq S] in
/-- An exact constraint decides the new version, whatever it is. -/
theorem PartialAssign.Exact.holds_iff {u : Update S} (h : p.Exact decl st u) {id : Nat}
    (hid : u.written = some id)
    (hne : ∀ s id', (st.core s).getTerm .curr = some id' → id' ≠ id) {ρ : Valuation}
    {x : BitVec (decl p.s).width} (hx : Denotes ρ (sigTerm decl st p.s .curr) x) {offset : Int}
    (hoffset : (Select.expr (some p.selExpr) p.width).HasOffset decl st ρ offset)
    (hin : InVector (decl p.s).width offset p.width) {v : BitVec p.width}
    (hv : Denotes ρ (p.rval.evalTerm decl st .curr) v) (y : BitVec (decl p.s).width) :
    Holds (ρ.set (.bv _) id y) u.term ↔ Replaces x y offset.toNat v := by
  have hcurr : ∀ s, denote (ρ.set (.bv _) id y) (sigTerm decl st s .curr) =
      denote ρ (sigTerm decl st s .curr) := fun s => denote_curr_set (hne s)
  refine h (ρ.set (.bv _) id y) x y offset v id ((hcurr p.s).trans hx) hid
    (denotes_mkVar_set ρ id y) ?_ hin ((SMTExpr.evalTerm_congr fun s _ => hcurr s).trans hv)
  rcases hoffset with hconst | ⟨i, hi, w, index, hindex, hval⟩
  · exact .inl hconst
  · exact .inr ⟨i, hi, w, index, (hcurr i).trans hindex, hval⟩

/-- The next version and its constraint, for the signal of the left-hand side. -/
structure PartialAssign.Updated (decl : S → SigDecl) (st : SigState S) (p : PartialAssign S)
    (sig : SMTSignal S) (index : Option (SMTExpr S)) (u : Update S) (id : Nat) : Prop where
  parent : sig.parent = p.s
  term : u.term = (constrain decl sig index p.rval (st.updateNextVersion p.s)).term
  written : u.written = some id
  next : ((st.updateNextVersion p.s).core p.s).getTerm .next = some id
  rval : p.rval.evalTerm decl (st.updateNextVersion p.s) .curr = p.rval.evalTerm decl st .curr
  other : ∀ s id', (st.core s).getTerm .curr = some id' → id' ≠ id
  curr : ∃ id', sigTerm decl st p.s .curr = mkVar (.bv (decl p.s).width) id'

theorem exists_updated (hs : (decl p.s).isArray = false) (hbounds : (st.core p.s).InBounds)
    (hdistinct : st.Distinct) (hbelow : st.Below) {sig : SMTSignal S}
    {index : Option (SMTExpr S)} (hparent : sig.parent = p.s) (hrval : a.rval = p.rval)
    (ha : a.target = .assign p.isCommit (.signal sig index)) :
    ∃ id, p.Updated decl st sig index (a.updateTerm decl st) id := by
  obtain ⟨hterm, hwritten⟩ := updateTerm_signal decl ha st
  rw [hparent] at hwritten
  rw [hparent, hrval] at hterm
  obtain ⟨id, hid⟩ : ∃ id, ((st.updateNextVersion p.s).core p.s).getTerm .next = some id := by
    have hlt := (hbounds.updateNextVersion st.fresh).2
    rw [SigState.updateNextVersion_core, if_pos rfl]
    exact ⟨_, List.getElem?_eq_getElem hlt⟩
  refine ⟨id, hparent, hterm, hwritten.trans hid, hid, ?_, ?_, ?_⟩
  · exact SMTExpr.evalTerm_of_sigTerm decl (sigTerm_curr_updateNextVersion hbounds) p.rval
  · exact fun s id' hid' => next_ne_curr hdistinct hbelow hbounds hid hid'
  · have hlt : (st.core p.s).currVersion < (st.core p.s).termStack.length :=
      Nat.lt_of_le_of_lt hbounds.1 hbounds.2
    refine sigTerm_vector hs ?_
    rw [SMTSigCore.getTerm, SMTSigCore.version, List.getElem?_eq_getElem hlt]
    rfl

namespace PartialAssign.Updated

variable {sig : SMTSignal S} {index : Option (SMTExpr S)} {u : Update S} {id : Nat}

/-- A constant select that takes the whole vector. -/
theorem exact_of_whole (h : p.Updated decl st sig index u id) (hs : (decl p.s).isArray = false)
    (hindex : sig.isIndexTerm = false) (hbits : sig.msb - sig.lsb = p.width - 1) {value : Int}
    (hsel : p.selExpr = .number value) (hwhole : p.IsWhole decl) : p.Exact decl st u := by
  intro ρ x y offset v id' hx hid' hy hoffset hin hv
  obtain rfl : id = id' := Option.some.inj (h.written.symm.trans hid')
  have hoff : offset = value := by
    rcases hoffset with hconst | ⟨i, hi, -⟩
    · rw [hsel] at hconst
      exact (Option.some.inj hconst).symm
    · rw [hsel] at hi
      cases hi
  rw [IsWhole, hsel] at hwhole
  have hwidth := hwhole.resolve_right (not_not_intro (hoff ▸ hin))
  have hzero : offset.toNat = 0 := by
    obtain ⟨hpos, hlt⟩ := hin
    omega
  have hnext : sig.evalTerm decl (st.updateNextVersion p.s) .next =
      mkVar (.bv (decl p.s).width) id := by
    rw [SMTSignal.evalTerm, h.parent, if_neg, sigTerm, h.next, SigDecl.bvType, hs]
    · rfl
    · rw [SMTSignal.isWhole, h.parent]
      omega
  rw [h.term, constrain_of_whole decl hindex, signalWrite, hnext, h.rval, hy.holds_mkEq_iff hv,
    hzero, replaces_whole_iff hwidth]

/-- A constant select of a part. -/
theorem not_exact_of_part (h : p.Updated decl st sig index u id)
    (hs : (decl p.s).isArray = false) (hindex : sig.isIndexTerm = false)
    (hbits : sig.msb - sig.lsb = p.width - 1)
    (hrval : ∀ ρ, ∃ v : BitVec p.width, Denotes ρ (p.rval.evalTerm decl st .curr) v) {value : Int}
    (hsel : p.selExpr = .number value) (hpart : ¬ p.IsWhole decl) : ¬ p.Exact decl st u := by
  intro hexact
  rw [IsWhole, hsel, not_or, not_not] at hpart
  obtain ⟨hne, hin⟩ := hpart
  obtain ⟨id', hcurr⟩ := h.curr
  obtain ⟨v, hv⟩ := hrval Valuation.zero
  have hx : Denotes Valuation.zero (sigTerm decl st p.s .curr)
      (Valuation.zero (.bv (decl p.s).width) id') := by
    rw [hcurr]
    rfl
  have hiff := hexact.holds_iff h.written h.other hx (.inl (by rw [hsel]; rfl)) hin hv
  obtain ⟨y, hy⟩ := exists_replaces (Valuation.zero (.bv (decl p.s).width) id') value.toNat v
  -- the other value of the new version has the selected bits too
  obtain ⟨y', hne', hholds⟩ : ∃ y' ≠ y, Holds (Valuation.zero.set (.bv _) id y') u.term := by
    have hholds := (hiff y).mpr hy
    rw [h.term, constrain_of_whole decl hindex] at hholds ⊢
    refine exists_other_of_part (congrArg (fun s => (decl s).width) h.parent) (h.parent ▸ hs) hindex
      hbits hne (h.parent ▸ h.next) (fun y' => ?_) hholds
    rw [h.rval]
    exact SMTExpr.evalTerm_congr fun s _ => denote_curr_set (h.other s)
  exact hne' (((hiff y').mp hholds).inj hy)

/-- A bit at the value of a signal. -/
theorem not_exact_of_signal (h : p.Updated decl st sig index u id)
    (hindex : sig.isIndexTerm = true) (hwidth : p.width = 1) (hpos : 0 < (decl p.s).width)
    (hrval : ∀ ρ, ∃ v : BitVec p.width, Denotes ρ (p.rval.evalTerm decl st .curr) v)
    {n : SMTNumber} (hn : p.rval = .leaf (.number n)) {i : S} (hsel : p.selExpr = .signal i)
    (hi : (decl i).isArray = false) (hterm : ((st.core i).getTerm .curr).isSome) :
    ¬ p.Exact decl st u := by
  intro hexact
  obtain ⟨id', hcurr⟩ := h.curr
  obtain ⟨idIndex, hidIndex⟩ := sigTerm_vector hi hterm
  obtain ⟨v, hv⟩ := hrval Valuation.zero
  have hiff := hexact.holds_iff (x := 0) h.written h.other (by rw [hcurr]; rfl)
    (.inr ⟨i, by rw [hsel]; rfl, _, 0#_, by rw [hidIndex]; rfl, rfl⟩)
    ⟨le_rfl, by rw [BitVec.toNat_zero, hwidth]; omega⟩ hv
  obtain ⟨y, hy⟩ := exists_replaces (0 : BitVec (decl p.s).width) 0 v
  have hholds := (hiff y).mpr hy
  have hbit : constrain decl sig index (.leaf (.number n)) (st.updateNextVersion p.s) =
      bitWrite decl sig index n (st.updateNextVersion p.s) := by
    unfold constrain
    rw [hindex]
  rw [h.term, hn, hbit] at hholds
  exact not_holds_bitWrite _ _ _ _ hholds

end PartialAssign.Updated

/-- **Assignments to a part.** The constraint ties the new version to the old one
with the selected bits replaced if and only if a constant select takes the whole
vector. -/
theorem partial_exact_iff (ranges : ∀ s, SigRange (decl s).width)
    (hs : (decl p.s).isArray = false) (hbounds : (st.core p.s).InBounds)
    (hdistinct : st.Distinct) (hbelow : st.Below) (hselect : p.IsSelect) {ident process block : Nat}
    (hemit : p.emit decl ranges ident process block = some a)
    (hrval : ∀ ρ, ∃ v : BitVec p.width, Denotes ρ (p.rval.evalTerm decl st .curr) v)
    (hindex : ∀ i, p.selExpr = .signal i →
      (decl i).isArray = false ∧ ((st.core i).getTerm .curr).isSome) :
    p.Exact decl st (a.updateTerm decl st) ↔ p.IsWhole decl := by
  obtain ⟨⟨sig, index⟩, hpiece, ha⟩ := Option.map_eq_some_iff.mp hemit
  have hrecord : a.rval = p.rval := by rw [← ha]
  have htarget : a.target = .assign p.isCommit
      (.signal sig (index.map fun i => .leaf (.signal (.new (ranges i) i)))) := by rw [← ha]
  cases hsel : p.selExpr with
  | number value =>
      rw [hsel] at hpiece
      obtain ⟨-, hparent, hwhole, hbits⟩ := emitStmtLvalPiece_number hpiece
      obtain ⟨id, hupdated⟩ := exists_updated hs hbounds hdistinct hbelow hparent hrecord htarget
      refine ⟨fun hexact => ?_, hupdated.exact_of_whole hs hwhole hbits hsel⟩
      by_contra hpart
      exact hupdated.not_exact_of_part hs hwhole hbits hrval hsel hpart hexact
  | signal i =>
      rw [hsel] at hpiece
      obtain ⟨hwidth, -, hparent, hwhole⟩ := emitStmtLvalPiece_signal hpiece
      obtain ⟨id, hupdated⟩ := exists_updated hs hbounds hdistinct hbelow hparent hrecord htarget
      rw [PartialAssign.IsSelect, hsel] at hselect
      obtain ⟨n, hn, -⟩ := hselect
      obtain ⟨hi, hterm⟩ := hindex i hsel
      have hpos : 0 < (decl p.s).width := by
        rw [(ranges p.s).width_eq]
        omega
      rw [PartialAssign.IsWhole, hsel]
      exact iff_of_false (hupdated.not_exact_of_signal hwhole hwidth hpos hrval hn hsel hi hterm)
        not_false
  | other =>
      rw [PartialAssign.IsSelect, hsel] at hselect
      exact hselect.elim

end Update

def nibbleRanges (s : Bool) : SigRange (nibbleDecl s).width :=
  match s with
  | false => nibbleRange
  | true => ⟨1, 0, rfl⟩

theorem nibbleState_distinct : nibbleState.Distinct := by
  intro s s' version version' id hid hid'
  obtain ⟨hlt, rfl⟩ := List.getElem?_eq_some_iff.mp hid
  obtain ⟨hlt', heq⟩ := List.getElem?_eq_some_iff.mp hid'
  simp only [nibbleState, List.length_singleton, List.getElem_singleton] at hlt hlt' heq
  exact ⟨by cases s <;> cases s' <;> simp_all, by omega⟩

theorem nibbleState_below : nibbleState.Below := by
  intro s id hid
  obtain rfl := List.mem_singleton.mp hid
  cases s <;> decide

/-- `a[2:1] = 2'b01`. -/
def nibblePart : PartialAssign Bool := ⟨false, .number 1, 2, true, .leaf (.number ⟨['0', '1']⟩)⟩

/-- `a[i] <= 1'b1`. -/
def nibbleBit : PartialAssign Bool := ⟨false, .signal true, 1, false, .leaf (.number ⟨['1']⟩)⟩

def nibblePartRecord : SMTAssign Bool where
  id := 0
  target := .assign true (.signal ⟨false, 2, 1, false⟩ none)
  rval := .leaf (.number ⟨['0', '1']⟩)
  process := 0
  block := 0

def nibbleBitRecord : SMTAssign Bool where
  id := 0
  target := .assign false (.signal ⟨false, 0, 0, true⟩ (some (.leaf (.signal ⟨true, 1, 0, false⟩))))
  rval := .leaf (.number ⟨['1']⟩)
  process := 0
  block := 0

theorem nibblePart_exact_iff :
    nibblePart.Exact nibbleDecl nibbleState (nibblePartRecord.updateTerm nibbleDecl nibbleState) ↔
      nibblePart.IsWhole nibbleDecl :=
  partial_exact_iff (p := nibblePart) (a := nibblePartRecord) nibbleRanges rfl
    ⟨le_rfl, Nat.zero_lt_one⟩ nibbleState_distinct nibbleState_below trivial rfl
    (fun _ => ⟨1, rfl⟩) nofun

/-- A new version `1010` of `a = 0000` satisfies the constraint of `a[2:1] = 2'b01`;
the version `0001` does not satisfy that of `a[i] <= 1'b1`, where `i = 0`. -/
theorem nibble_not_exact :
    nibblePart.emit nibbleDecl nibbleRanges 0 0 0 = some nibblePartRecord ∧
      ¬ nibblePart.Exact nibbleDecl nibbleState
        (nibblePartRecord.updateTerm nibbleDecl nibbleState) ∧
      nibbleBit.emit nibbleDecl nibbleRanges 0 0 0 = some nibbleBitRecord ∧
      ¬ nibbleBit.Exact nibbleDecl nibbleState
        (nibbleBitRecord.updateTerm nibbleDecl nibbleState) := by
  refine ⟨rfl, fun hexact => ?_, rfl, fun hexact => ?_⟩
  · have hreplaces := (hexact (Valuation.zero.set (.bv 4) 2 (10#4)) (0#4) (10#4) 1 (1#2) 2
      rfl rfl rfl (.inl rfl) (by decide) rfl).mp (by unfold Holds; decide)
    have hbit := hreplaces 3 (by decide)
    revert hbit
    decide
  · have hholds := (hexact (Valuation.zero.set (.bv 4) 2 (1#4)) (0#4) (1#4) 0 (1#1) 2
      rfl rfl rfl (.inr ⟨true, rfl, 2, 0, rfl, rfl⟩) (by decide) rfl).mpr
      (by unfold Replaces; decide)
    revert hholds
    unfold Holds
    decide

end Conquest
