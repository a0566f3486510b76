import Conquest.Smt.Assign

/-!
# Select — bits and parts of a vector

Icarus gives the offset of a select from the lowest bit, the emitted Verilog
needs the declared index, and the solver needs the offset again. The emitters
put the declared index into `msb` and `lsb` of the `SMTSignal`, and `eval_term`
takes them for offsets; a select by a signal stands for the whole vector.
-/

namespace Conquest

open Bv

variable {S : Type}

/-! ## The emitters -/

/-- The declared range of a signal of some width. -/
structure SigRange (width : Nat) where
  msb : Int
  lsb : Int
  width_eq : width = (msb - lsb).natAbs + 1

/-- The expression that gives the offset of a select: a number that fits in 64
bits, a signal, or anything else. -/
inductive SelExpr (S : Type) where
  | number (value : Int)
  | signal (s : S)
  | other

/-- The signal as a whole. -/
def SMTSignal.new {width : Nat} (range : SigRange width) (s : S) : SMTSignal S where
  parent := s
  msb := range.msb
  lsb := range.lsb
  isIndexTerm := false

variable {w : Nat} (range : SigRange w)

/-- `emit_scaled_range`; `none` is its `error`. -/
def emitScaledRange (value : Int) (width : Nat) (sig : SMTSignal S) : Option (SMTSignal S) :=
  if range.msb ≥ range.lsb then
    let value := value + range.lsb
    some { sig with lsb := value, msb := value + (width - 1) }
  else none

/-- `emit_scaled_expr`, with the signal that becomes `_index`. Nothing is printed
for an expression that is neither a number nor a signal. -/
def emitScaledExpr (e : SelExpr S) (sig : SMTSignal S) : Option (SMTSignal S × Option S) :=
  if range.msb ≥ range.lsb then
    match e with
    | .number value =>
        let value := value + range.lsb
        some ({ sig with lsb := value, msb := value }, none)
    | .signal s => some ({ sig with isIndexTerm := true, lsb := 0, msb := 0 }, some s)
    | .other => some ({ sig with lsb := 0, msb := 0 }, none)
  else
    match e with
    | .number value =>
        let value := range.lsb - value
        some ({ sig with lsb := value, msb := value }, none)
    | _ => none

/-- A select of `width` bits: of an expression, with the offset if there is one,
or of the netlist. -/
inductive Select (S : Type) where
  | expr (selExpr : Option (SelExpr S)) (width : Nat)
  | lpm (base : Int) (width : Nat)

/-- `emit_expr_select`, of the signal `s`. -/
def emitExprSelect (s : S) (selExpr : Option (SelExpr S)) (width : Nat) : Option (SMTSignal S) :=
  let sig := SMTSignal.new range s
  match selExpr with
  | some e =>
      if width = 1 then (emitScaledExpr range e sig).map Prod.fst
      else
        match e with
        | .number value => emitScaledRange range value width sig
        | _ => none
  | none =>
      if width < w then
        let value := range.lsb
        let value := if range.msb ≥ range.lsb then value + (width - 1) else value - (width - 1)
        some { sig with msb := value, lsb := range.lsb }
      else some sig

/-- `emit_lpm_part_select` of a signal, at a constant offset. -/
def emitLpmPartSelect (s : S) (base : Int) (width : Nat) : Option (SMTSignal S) :=
  let sig := SMTSignal.new range s
  if width = 1 then
    -- the select of an entire bit is skipped; an assertion wants it to be the signal
    if range.msb = range.lsb ∧ range.lsb = base then
      if w = 1 then some { sig with msb := 0, lsb := 0 } else none
    else
      let base := if range.msb ≥ range.lsb then base + range.lsb else range.lsb - base
      some { sig with msb := base, lsb := base }
  else
    if range.msb ≥ range.lsb then
      let base := base + range.lsb
      some { sig with msb := base + width - 1, lsb := base }
    else
      let base := range.lsb - base
      some { sig with msb := base - width + 1, lsb := base }

def Select.emit (s : S) : Select S → Option (SMTSignal S)
  | expr selExpr width => emitExprSelect range s selExpr width
  | lpm base width => emitLpmPartSelect range s base width

/-! ## What Verilog selects -/

def Select.width : Select S → Nat
  | expr _ width => width
  | lpm _ width => width

/-- A constant offset. -/
def Select.offset? : Select S → Option Int
  | expr none _ => some 0
  | expr (some (.number value)) _ => some value
  | expr (some _) _ => none
  | lpm base _ => some base

/-- The signal that gives the offset. -/
def Select.index? : Select S → Option S
  | expr (some (.signal s)) _ => some s
  | _ => none

/-- The bits are bits of a vector of width `w`. -/
def InVector (w : Nat) (offset : Int) (width : Nat) : Prop := 0 ≤ offset ∧ offset + width ≤ w

instance (w : Nat) (offset : Int) (width : Nat) : Decidable (InVector w offset width) :=
  inferInstanceAs (Decidable (_ ∧ _))

section Value

variable (decl : S → SigDecl) (st : SigState S)

/-- The offset of the select under a valuation. -/
def Select.HasOffset (ρ : Valuation) (sel : Select S) (offset : Int) : Prop :=
  sel.offset? = some offset ∨
    ∃ s, sel.index? = some s ∧
      ∃ (v : Nat) (i : BitVec v), Denotes ρ (sigTerm decl st s .curr) i ∧ offset = i.toNat

/-- For every value of the vector and of the index, `eval_term` gives the selected
bits. Where some are not bits of the vector there is nothing to give. -/
def Select.Correct (s : S) (clk : SMTClkType) (sel : Select S) (sig : SMTSignal S) : Prop :=
  ∀ (ρ : Valuation) (x : BitVec (decl s).width) (offset : Int),
    Denotes ρ (sigTerm decl st s clk) x → sel.HasOffset decl st ρ offset →
    InVector (decl s).width offset sel.width →
    Denotes ρ (sig.evalTerm decl st clk) (x.extractLsb' offset.toNat sel.width)

/-- The select of a constant offset starts at bit zero of the declaration, or
takes the whole vector; a select by a signal is of a single bit. -/
def Select.Canonical (s : S) (range : SigRange (decl s).width) (sel : Select S) : Prop :=
  match sel.offset? with
  | some offset =>
      range.lsb = 0 ∨ sel.width = (decl s).width ∨ ¬ InVector (decl s).width offset sel.width
  | none => (decl s).width = 1

variable {decl st}

/-- What the emitters write for a constant offset. -/
structure Emitted (s : S) (range : SigRange (decl s).width) (offset : Int) (width : Nat)
    (sig : SMTSignal S) : Prop where
  parent : sig.parent = s
  isIndexTerm : sig.isIndexTerm = false
  bits : sig.msb - sig.lsb = width - 1
  lsb : width = (decl s).width ∨ sig.lsb = offset + range.lsb

theorem emitted_exprSelect {s : S} {range : SigRange (decl s).width}
    (hrange : range.lsb ≤ range.msb) {selExpr : Option (SelExpr S)} {width : Nat}
    {sig : SMTSignal S} (hemit : emitExprSelect range s selExpr width = some sig) {offset : Int}
    (hoffset : (Select.expr selExpr width).offset? = some offset)
    (hin : InVector (decl s).width offset width) : Emitted s range offset width sig := by
  have heq := range.width_eq
  obtain ⟨hzero, hlt⟩ := hin
  rcases selExpr with _ | value | i | _
  · cases hoffset
    by_cases hwidth : width < (decl s).width
    · simp only [emitExprSelect, hwidth, if_true, ge_iff_le, hrange, Option.some.injEq] at hemit
      subst hemit
      exact ⟨rfl, rfl, by dsimp only; omega, .inr (Int.zero_add _).symm⟩
    · simp only [emitExprSelect, hwidth, if_false, Option.some.injEq] at hemit
      subst hemit
      exact ⟨rfl, rfl, by dsimp only [SMTSignal.new]; omega, .inl (by omega)⟩
  · cases hoffset
    by_cases hone : width = 1
    · simp only [emitExprSelect, emitScaledExpr, hone, if_true, ge_iff_le, hrange,
        Option.map_some, Option.some.injEq] at hemit
      subst hemit hone
      exact ⟨rfl, rfl, by dsimp only; omega, .inr rfl⟩
    · simp only [emitExprSelect, emitScaledRange, hone, if_false, if_true, ge_iff_le, hrange,
        Option.some.injEq] at hemit
      subst hemit
      exact ⟨rfl, rfl, by dsimp only; omega, .inr rfl⟩
  · cases hoffset
  · cases hoffset

theorem emitted_lpmPartSelect {s : S} {range : SigRange (decl s).width}
    (hrange : range.lsb ≤ range.msb) {base : Int} {width : Nat} {sig : SMTSignal S}
    (hemit : emitLpmPartSelect range s base width = some sig) :
    Emitted s range base width sig := by
  by_cases hone : width = 1
  · by_cases hbit : range.msb = range.lsb ∧ range.lsb = base
    · by_cases hw : (decl s).width = 1
      · simp only [emitLpmPartSelect, hone, hbit, and_self, if_true, hw, Option.some.injEq] at hemit
        subst hemit
        exact ⟨rfl, rfl, by dsimp only; omega, .inl (hone.trans hw.symm)⟩
      · simp [emitLpmPartSelect, hone, hbit, hw] at hemit
    · simp only [emitLpmPartSelect, hone, hbit, if_true, if_false, ge_iff_le, hrange,
        Option.some.injEq] at hemit
      subst hemit
      exact ⟨rfl, rfl, by dsimp only; omega, .inr rfl⟩
  · simp only [emitLpmPartSelect, hone, if_true, if_false, ge_iff_le, hrange,
      Option.some.injEq] at hemit
    subst hemit
    exact ⟨rfl, rfl, by dsimp only; omega, .inr rfl⟩

theorem emitted_of_emit {s : S} {range : SigRange (decl s).width} (hrange : range.lsb ≤ range.msb)
    {sel : Select S} {sig : SMTSignal S} (hemit : sel.emit range s = some sig) {offset : Int}
    (hoffset : sel.offset? = some offset) (hin : InVector (decl s).width offset sel.width) :
    Emitted s range offset sel.width sig := by
  cases sel with
  | expr selExpr width => exact emitted_exprSelect hrange hemit hoffset hin
  | lpm base width =>
      cases hoffset
      exact emitted_lpmPartSelect hrange hemit

theorem Select.eq_of_index {sel : Select S} {i : S} (h : sel.index? = some i) :
    ∃ width, sel = .expr (some (.signal i)) width := by
  match sel with
  | .expr (some (.signal _)) width =>
      cases h
      exact ⟨width, rfl⟩
  | .expr none _ => cases h
  | .expr (some (.number _)) _ => cases h
  | .expr (some .other) _ => cases h
  | .lpm _ _ => cases h

/-- A select by a signal is of one bit, and stands for the whole vector. -/
theorem emit_index (st : SigState S) {s : S} {range : SigRange (decl s).width}
    (hrange : range.lsb ≤ range.msb)
    {sel : Select S} {sig : SMTSignal S} (hemit : sel.emit range s = some sig) {i : S}
    (hindex : sel.index? = some i) (clk : SMTClkType) :
    sel.width = 1 ∧ sig.evalTerm decl st clk = sigTerm decl st s clk := by
  obtain ⟨width, rfl⟩ := Select.eq_of_index hindex
  by_cases hone : width = 1
  · simp only [Select.emit, emitExprSelect, emitScaledExpr, hone, if_true, ge_iff_le, hrange,
      Option.map_some, Option.some.injEq] at hemit
    subst hemit
    exact ⟨hone, by simp [SMTSignal.evalTerm, SMTSignal.new]⟩
  · simp [Select.emit, emitExprSelect, hone] at hemit

/-! ## When the term is the selected bits -/

theorem Emitted.evalTerm {s : S} {range : SigRange (decl s).width} {offset : Int} {width : Nat}
    {sig : SMTSignal S} (h : Emitted s range offset width sig) (clk : SMTClkType) :
    sig.evalTerm decl st clk =
      if width = (decl s).width then sigTerm decl st s clk
      else bvextract (offset + range.lsb) (offset + range.lsb + (width - 1))
        (sigTerm decl st s clk) := by
  have hwhole : sig.isWhole decl ↔ width = (decl s).width := by
    rw [SMTSignal.isWhole, h.parent, h.bits]
    omega
  rw [SMTSignal.evalTerm, h.parent, h.isIndexTerm]
  by_cases heq : width = (decl s).width
  · rw [if_neg (by simp [hwhole.mpr heq]), if_pos heq]
  · have hlsb := h.lsb.resolve_left heq
    have hmsb := h.bits
    rw [if_pos ⟨mt hwhole.mp heq, rfl⟩, if_neg heq, hlsb,
      show sig.msb = offset + range.lsb + (width - 1) by omega]

/-- Bits of a vector, at an offset inside it. -/
theorem denotes_bvextract {ρ : Valuation} {t : TermT} {w width : Nat} {x : BitVec w}
    (h : Denotes ρ t x) {offset : Int} (hwidth : 0 < width) (hin : InVector w offset width) :
    Denotes ρ (bvextract offset (offset + (width - 1)) t) (x.extractLsb' offset.toNat width) := by
  obtain ⟨hzero, hlt⟩ := hin
  obtain ⟨n, rfl⟩ : ∃ n, width = n + 1 := ⟨width - 1, by omega⟩
  rw [bvextract, if_pos (by omega), show (offset + (((n + 1 : Nat) : Int) - 1)).toNat =
    offset.toNat + n by omega]
  exact h.extract (by omega)

/-- All bits of a vector. -/
theorem denotes_whole {ρ : Valuation} {t : TermT} {w width : Nat} {x : BitVec w}
    (h : Denotes ρ t x) (heq : width = w) : Denotes ρ t (x.extractLsb' 0 width) := by
  subst heq
  rwa [BitVec.extractLsb'_eq_self]

/-- Every bit-vector variable has one bit, at `k`. -/
def twoPowAt (k : Nat) : Valuation
  | .bool, _ => false
  | .bv w, _ => BitVec.twoPow w k
  | .fn _ _, _ => fun _ => 0

/-- Bits outside the vector are refused. -/
theorem bvextract_eq_none {id w width : Nat} {offset : Int}
    (hin : ¬ InVector w offset width) :
    bvextract offset (offset + (width - 1)) (mkVar (.bv w) id) = none := by
  unfold InVector at hin
  rw [bvextract]
  split
  · rw [mkExtract, mkVar, onBv, if_neg]
    omega
  · rfl

/-- Bits at another offset are not the selected ones, whatever they are. -/
theorem not_denotes_bvextract {id w width : Nat} {offset offset' : Int} (hwidth : 0 < width)
    (hin : InVector w offset width) (hne : offset' ≠ offset) :
    ¬ Denotes (twoPowAt offset.toNat)
      (bvextract offset' (offset' + (width - 1)) (mkVar (.bv w) id))
      ((BitVec.twoPow w offset.toNat).extractLsb' offset.toNat width) := by
  intro hdenotes
  have hvar : Denotes (twoPowAt offset.toNat) (mkVar (.bv w) id) (BitVec.twoPow w offset.toNat) :=
    rfl
  by_cases hin' : InVector w offset' width
  · have heq := hdenotes.inj (denotes_bvextract hvar hwidth hin')
    obtain ⟨hzero, hlt⟩ := hin
    obtain ⟨hzero', hlt'⟩ := hin'
    have hbit := congrArg (·.getLsbD 0) heq
    have hne' : offset'.toNat ≠ offset.toNat := by omega
    have hlt0 : offset.toNat < w := by omega
    simp [BitVec.getLsbD_twoPow, hwidth, hlt0, hne'.symm] at hbit
  · rw [bvextract_eq_none hin'] at hdenotes
    exact not_denotes_none _ hdenotes

theorem sigTerm_vector {s : S} {clk : SMTClkType} (hs : (decl s).isArray = false)
    (hterm : ((st.core s).getTerm clk).isSome) :
    ∃ id, sigTerm decl st s clk = mkVar (.bv (decl s).width) id := by
  obtain ⟨id, hid⟩ := Option.isSome_iff_exists.mp hterm
  refine ⟨id, ?_⟩
  rw [sigTerm, hid, SigDecl.bvType, hs]
  rfl

/-- A select that is canonical is correct. -/
theorem Select.Canonical.correct {s : S} {range : SigRange (decl s).width}
    (hrange : range.lsb ≤ range.msb) {sel : Select S} (hwidth : 0 < sel.width)
    {sig : SMTSignal S} (hemit : sel.emit range s = some sig) {clk : SMTClkType}
    (h : sel.Canonical decl s range) : sel.Correct decl st s clk sig := by
  intro ρ x offset hx hoffset hin
  rw [Select.Canonical] at h
  rcases hoffset with hconst | ⟨i, hindex, v, index, -, rfl⟩
  · rw [hconst] at h
    rw [(emitted_of_emit hrange hemit hconst hin).evalTerm clk]
    split
    · rename_i hwhole
      obtain rfl : offset = 0 := by
        obtain ⟨hzero, hlt⟩ := hin
        omega
      exact denotes_whole hx hwhole
    · rename_i hpart
      have hzero := (h.resolve_right (not_or_intro hpart (not_not_intro hin)))
      rw [hzero, Int.add_zero]
      exact denotes_bvextract hx hwidth hin
  · obtain ⟨hone, heval⟩ := emit_index st hrange hemit hindex clk
    have hnone : sel.offset? = none := by
      obtain ⟨width, rfl⟩ := Select.eq_of_index hindex
      rfl
    rw [hnone] at h
    obtain ⟨-, hlt⟩ := hin
    obtain hzero : index.toNat = 0 := by omega
    rw [heval, Int.toNat_natCast, hzero]
    exact denotes_whole hx (hone.trans h.symm)

/-- **Selects in expressions.** For every value of the vector and the index the
term of a select is what Verilog selects, if and only if the select is
canonical. -/
theorem select_correct_iff {s : S} (range : SigRange (decl s).width)
    (hrange : range.lsb ≤ range.msb) {sel : Select S} (hwidth : 0 < sel.width)
    (hsel : sel.offset?.isSome ∨ sel.index?.isSome) {sig : SMTSignal S}
    (hemit : sel.emit range s = some sig) {clk : SMTClkType} (hs : (decl s).isArray = false)
    (hterm : ((st.core s).getTerm clk).isSome)
    (hindex : ∀ i, sel.index? = some i →
      (decl i).isArray = false ∧ ((st.core i).getTerm .curr).isSome) :
    sel.Correct decl st s clk sig ↔ sel.Canonical decl s range := by
  refine ⟨fun hcorrect => ?_, fun h => h.correct hrange hwidth hemit⟩
  obtain ⟨id, hid⟩ := sigTerm_vector hs hterm
  cases hoffset : sel.offset? with
  | some offset =>
      rw [Select.Canonical, hoffset]
      by_contra hnot
      obtain ⟨hlsb, hpart, hin⟩ :
          range.lsb ≠ 0 ∧ sel.width ≠ (decl s).width ∧
            InVector (decl s).width offset sel.width := by
        simpa [not_or] using hnot
      -- the vector whose only one is the selected bit
      have hdenotes := hcorrect (twoPowAt offset.toNat) (BitVec.twoPow _ offset.toNat) offset
        (by rw [hid]; rfl) (.inl hoffset) hin
      rw [(emitted_of_emit hrange hemit hoffset hin).evalTerm clk, if_neg hpart, hid] at hdenotes
      exact not_denotes_bvextract hwidth hin (by omega) hdenotes
  | none =>
      rw [Select.Canonical, hoffset]
      rw [hoffset] at hsel
      obtain ⟨i, hi⟩ := Option.isSome_iff_exists.mp (hsel.resolve_left Bool.false_ne_true)
      obtain ⟨hone, heval⟩ := emit_index st hrange hemit hi clk
      obtain ⟨hscalar, hterm⟩ := hindex i hi
      obtain ⟨id', hid'⟩ := sigTerm_vector hscalar hterm
      have hpos : 1 ≤ (decl s).width := by
        rw [range.width_eq]
        omega
      have hdenotes := hcorrect Valuation.zero 0 0 (by rw [hid]; rfl)
        (.inr ⟨i, hi, _, 0, by rw [hid']; rfl, rfl⟩) ⟨le_rfl, by omega⟩
      rw [heval, hid, Denotes, mkVar, denote_some, Option.some.injEq, Sigma.mk.injEq,
        Ty.bv.injEq] at hdenotes
      exact hdenotes.1.trans hone

end Value

/-- A vector of four bits and a signal of two. -/
def nibbleDecl (s : Bool) : SigDecl where
  width := if s then 2 else 4
  isInput := true
  indexCount := 1

def nibbleState : SigState Bool where
  core := fun s =>
    { termStack := [s.toNat]
      currVersion := 0
      nextVersion := 0
      versionAtClock := fun _ => 0 }
  fresh := 2

/-- `[3:0]`. -/
def nibbleRange : SigRange 4 := ⟨3, 0, rfl⟩

/-- `[4:1]`. -/
def shiftedRange : SigRange 4 := ⟨4, 1, rfl⟩

/-- `a[2:1]` of `reg [3:0] a`. -/
theorem nibble_correct :
    Select.Correct nibbleDecl nibbleState false .curr (.expr (some (.number 1)) 2)
      ⟨false, 2, 1, false⟩ :=
  (select_correct_iff nibbleRange (by decide) (by decide) (.inl rfl) rfl rfl rfl nofun).mpr
    (.inl rfl)

/-- `a[2]` of `reg [4:1] a` is the bit at offset one; the term is that at two. A
bit that a signal selects is the whole vector. -/
theorem shifted_not_correct :
    (Select.expr (some (.number 1)) 1).emit shiftedRange false = some ⟨false, 2, 2, false⟩ ∧
      ¬ Select.Correct nibbleDecl nibbleState false .curr (.expr (some (.number 1)) 1)
        ⟨false, 2, 2, false⟩ ∧
      (Select.expr (some (.signal true)) 1).emit nibbleRange false =
        some ⟨false, 0, 0, true⟩ ∧
      ¬ Select.Correct nibbleDecl nibbleState false .curr (.expr (some (.signal true)) 1)
        ⟨false, 0, 0, true⟩ := by
  refine ⟨rfl, fun hcorrect => ?_, rfl, fun hcorrect => ?_⟩
  · have hdenotes := hcorrect (twoPowAt 1) (2#4) 1 rfl (.inl rfl) (by decide)
    revert hdenotes
    unfold Denotes
    decide
  · have hdenotes := hcorrect Valuation.zero (0#4) 0 rfl (.inr ⟨true, rfl, 2, 0, rfl, rfl⟩)
      (by decide)
    revert hdenotes
    unfold Denotes
    decide

end Conquest
