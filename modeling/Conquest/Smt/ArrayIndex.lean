import Conquest.Smt.Int64
import Conquest.Smt.Partial

/-!
# ArrayIndex — the element an access means to the solver

Icarus counts the elements of an array from zero. The index translator fills
three members of an `SMTArray` from the index expression: `array_index` with the
declared index, `_index` with the index as an expression, and `index_term` with
a signal. A read takes `array_index` or `index_term`, a write takes `_index`,
and which of them a form of the expression fills depends on its branch.
-/

namespace Conquest

open Bv Digits

/-! ## The source's translator -/

/-- An array with at least two elements, and the lower bound of its index. The
number of elements is an `int`. -/
structure ArrayDecl extends SigDecl where
  base : Int
  range : SigRange width
  two_le : 2 ≤ indexCount
  lt_int : indexCount < 2 ^ 31

/-- The index of an access: a number, a select of a signal, or an operator. -/
inductive IndexExpr (S : Type) where
  | number (bits : List Digit) (isSigned : Bool)
  | select (expr1 : S) (selExpr : Option (SelExpr S)) (width : Nat)
  | binary (opcode : Char) (signed1 signed2 : Bool) (oper1 oper2 : SMTExpr S)

/-- `get_in_range_int64_from_number`; `none` where the result type is not 0. -/
def int64FromNumber (bits : List Digit) (isSigned : Bool) : Option Int :=
  match getInt64FromNumber bits isSigned with
  | .valid value => some value.toInt
  | _ => none

/-- `array_index`, an `int`, as the `uint64_t` that a read passes on. -/
def arrayIndexArg (value : Int) : Nat := ((BitVec.ofInt 32 value).toInt % 2 ^ 64).toNat

/-- The members a new `SMTArray` has before the translator fills them. -/
structure Unset (S : Type) where
  indexTerm : S
  arrayIndex : Nat
  index : SMTExpr S

section Translator

variable {S : Type} (decl : S → SigDecl) (ranges : ∀ s, SigRange (decl s).width)

/-- `emit_number` of an index: its bits, filled up with zeros, to `index_width`. -/
def indexNumber (indexWidth : Nat) (bits : List Digit) : SMTNumber :=
  let numZeros := indexWidth - bits.length
  SMTNumber.new ((bits ++ List.replicate numZeros Digit.zero).take indexWidth)

/-- `emit_scaled_expr` for arrays: the array and its `_index`. -/
def emitScaledExprArray (mem : S) (unset : Unset S) (msb lsb : Int) :
    IndexExpr S → Option (SMTArray S × SMTExpr S)
  | e =>
    let array : SMTArray S :=
      { parent := mem
        isIndexTerm := false
        indexTerm := unset.indexTerm
        arrayIndex := unset.arrayIndex }
    if msb ≥ lsb then
      match e with
      | .number bits isSigned =>
          match int64FromNumber bits isSigned with
          | none => some (array, unset.index)
          | some value =>
              some ({ array with arrayIndex := arrayIndexArg (value + lsb) },
                .leaf (.number (indexNumber (decl mem).indexWidth bits)))
      | .select expr1 selExpr width =>
          (emitExprSelect (ranges expr1) expr1 selExpr width).map fun sig =>
            ({ array with isIndexTerm := true, indexTerm := expr1 }, .leaf (.signal sig))
      | .binary opcode signed1 signed2 oper1 oper2 =>
          some (array, .node (.binary (emitExprBinary opcode signed1 signed2)) [oper1, oper2])
    else
      -- only the declared index is printed
      match e with
      | .number _ _ => some (array, unset.index)
      | _ => none

/-- The index of an element that `emit_expr_signal` reads. -/
def emitReadIndex (mem : S) (base : Int) (unset : Unset S) (e : IndexExpr S) :
    Option (SMTArray S × SMTExpr S) :=
  let lsb := base
  let msb := lsb + (decl mem).indexCount
  emitScaledExprArray decl ranges mem unset msb lsb e

/-- The index of an element that `emit_stmt_lval_name` assigns. -/
def emitWriteIndex (mem : S) (base : Int) (unset : Unset S) (e : IndexExpr S) :
    Option (SMTArray S × SMTExpr S) :=
  let lsb := base
  let msb := lsb + (decl mem).indexCount - 1
  emitScaledExprArray decl ranges mem unset msb lsb e

end Translator

/-! ## The elements -/

section Elements

variable {S : Type} (decl : S → SigDecl) (st : SigState S)

/-- The argument of the application a read makes. -/
def SMTArray.readIndex (arr : SMTArray S) : TermT :=
  if arr.isIndexTerm then sigTerm decl st arr.indexTerm .curr
  else mkConst (BitVec.ofNat (decl arr.parent).indexWidth arr.arrayIndex)

theorem SMTArray.evalTerm_eq (arr : SMTArray S) (clk : SMTClkType) :
    arr.evalTerm decl st clk =
      mkApp (sigTerm decl st arr.parent clk) (arr.readIndex decl st) := by
  unfold SMTArray.evalTerm SMTArray.readIndex
  split <;> rfl

/-- A read applies the value of the array to the element. -/
theorem denote_read {ρ : Valuation} {arr : SMTArray S} {clk : SMTClkType} {d c : Nat}
    {f : BitVec d → BitVec c} {x : BitVec d}
    (hf : denote ρ (sigTerm decl st arr.parent clk) = some ⟨.fn d c, f⟩)
    (hx : Denotes ρ (arr.readIndex decl st) x) :
    Denotes ρ (arr.evalTerm decl st clk) (f x) := by
  obtain ⟨⟨τ, t⟩, ht, heq⟩ := Option.map_eq_some_iff.mp hf
  cases heq
  obtain ⟨i, hi, rfl⟩ := hx.exists_term
  rw [SMTArray.evalTerm_eq, ht, hi, mkApp, dif_pos rfl]
  rfl

/-- A write replaces the element in the value of the array. -/
theorem denote_write {ρ : Valuation} {t i v : TermT} {d c : Nat} {f : BitVec d → BitVec c}
    {x : BitVec d} {y : BitVec c} (hf : denote ρ t = some ⟨.fn d c, f⟩) (hx : Denotes ρ i x)
    (hy : Denotes ρ v y) :
    denote ρ (mkUpdate t i v) = some ⟨.fn d c, Function.update f x y⟩ := by
  obtain ⟨⟨τ, t⟩, rfl, heq⟩ := Option.map_eq_some_iff.mp hf
  cases heq
  obtain ⟨i, rfl, rfl⟩ := hx.exists_term
  obtain ⟨v, rfl, rfl⟩ := hy.exists_term
  rw [mkUpdate, dif_pos ⟨rfl, rfl⟩]
  rfl

end Elements

/-- The forms of an index that the translator takes. A select either stands for
its whole signal or for a part of it. -/
inductive IndexKind where
  | constant | whole | part | binary
  deriving DecidableEq, Repr

/-- A design with the array. -/
structure ArrayDesign (a : ArrayDecl) where
  S : Type
  decl : S → SigDecl
  ranges : ∀ s, SigRange (decl s).width
  mem : S
  decl_mem : decl mem = a.toSigDecl

namespace ArrayDesign

variable {a : ArrayDecl} (D : ArrayDesign a)

/-- The form of an index expression. -/
def kind : IndexExpr D.S → Option IndexKind
  | .number _ _ => some .constant
  | .select expr1 selExpr width =>
      (emitExprSelect (D.ranges expr1) expr1 selExpr width).map fun sig =>
        if sig.isWhole D.decl ∨ sig.isIndexTerm = true then .whole else .part
  | .binary _ _ _ _ _ => some .binary

/-- The index expression, emitted as `index`, has the value `i`. -/
def Position (st : SigState D.S) (ρ : Valuation) (e : IndexExpr D.S) (index : SMTExpr D.S)
    (i : Nat) : Prop :=
  match e with
  | .number bits isSigned => int64FromNumber bits isSigned = some (i : Int)
  | _ => ∃ (w : Nat) (x : BitVec w), Denotes ρ (index.evalTerm D.decl st .curr) x ∧ x.toNat = i

/-- A read through an index of this form takes, where the index is `i`, the
solver's element `x`. -/
def Reads (form : IndexKind) (i x : Nat) : Prop :=
  ∃ (e : IndexExpr D.S) (unset : Unset D.S) (arr : SMTArray D.S) (index : SMTExpr D.S)
    (st : SigState D.S) (ρ : Valuation) (v : BitVec a.indexWidth),
    D.kind e = some form ∧
    emitReadIndex D.decl D.ranges D.mem a.base unset e = some (arr, index) ∧
    D.Position st ρ e index i ∧ Denotes ρ (arr.readIndex D.decl st) v ∧ v.toNat = x

/-- A write through an index of this form replaces, where the index is `j`, the
solver's element `y`. -/
def Writes (form : IndexKind) (j y : Nat) : Prop :=
  ∃ (e : IndexExpr D.S) (unset : Unset D.S) (arr : SMTArray D.S) (index : SMTExpr D.S)
    (st : SigState D.S) (ρ : Valuation) (v : BitVec a.indexWidth),
    D.kind e = some form ∧
    emitWriteIndex D.decl D.ranges D.mem a.base unset e = some (arr, index) ∧
    D.Position st ρ e index j ∧ Denotes ρ (index.evalTerm D.decl st .curr) v ∧ v.toNat = y

end ArrayDesign

/-- **Reads and writes meet.** In every design with the array, a read of one of
its elements and a write of one, through indices of the two forms, take the same
element of the solver's function exactly when they are accesses to the same
element of the array. -/
def ArrayDecl.Agrees (a : ArrayDecl) (readForm writeForm : IndexKind) : Prop :=
  ∀ (D : ArrayDesign a) (i j x y : Nat), i < a.indexCount → j < a.indexCount →
    D.Reads readForm i x → D.Writes writeForm j y → (x = y ↔ i = j)

/-! ## Constant indices -/

theorem arrayIndexArg_mod {k : Nat} (hk : k ≤ 32) (value : Int) :
    arrayIndexArg value % 2 ^ k = (value % 2 ^ k).toNat := by
  have hpow32 : (2 : Int) ^ k ∣ 2 ^ 32 := pow_dvd_pow 2 hk
  have hpow64 : (2 : Int) ^ k ∣ 2 ^ 64 := pow_dvd_pow 2 (by omega)
  have hpos : (0 : Int) < 2 ^ k := by positivity
  have harg : ((arrayIndexArg value : Nat) : Int) = (BitVec.ofInt 32 value).toInt % 2 ^ 64 :=
    Int.toNat_of_nonneg (Int.emod_nonneg _ (by decide))
  have hcast : ((arrayIndexArg value % 2 ^ k : Nat) : Int) = value % 2 ^ k := by
    push_cast
    rw [harg, Int.emod_emod_of_dvd _ hpow64, BitVec.toInt_ofInt]
    have hbmod : (value.bmod (2 ^ 32)) % 2 ^ 32 = value % 2 ^ 32 := Int.bmod_emod
    rw [← Int.emod_emod_of_dvd _ hpow32, hbmod, Int.emod_emod_of_dvd _ hpow32]
  have hnonneg : 0 ≤ value % 2 ^ k := Int.emod_nonneg _ (ne_of_gt hpos)
  omega

theorem toNat_of_int64FromNumber {bits : List Digit} {isSigned : Bool} {i : Nat}
    (h : int64FromNumber bits isSigned = some (i : Int)) : toNat bits = i := by
  unfold int64FromNumber at h
  split at h
  · rename_i value hvalid
    exact toNat_of_valid hvalid (Option.some.inj h)
  · cases h

/-- The bits of an index, as a term. -/
theorem denotes_indexNumber {S : Type} {decl : S → SigDecl} {st : SigState S} {ρ : Valuation}
    {k : Nat} (hk : k ≠ 0) (bits : List Digit) :
    Denotes ρ ((SMTExpr.leaf (.number (indexNumber k bits))).evalTerm decl st .curr)
      (BitVec.ofNat k (toNat bits)) := by
  have hlen : ((bits ++ List.replicate (k - bits.length) Digit.zero).take k).length = k := by
    simp only [List.length_take, List.length_append, List.length_replicate]
    omega
  have hne : (bits ++ List.replicate (k - bits.length) Digit.zero).take k ≠ [] := by
    rw [← List.length_pos_iff, hlen]
    omega
  have hval : toNat ((bits ++ List.replicate (k - bits.length) Digit.zero).take k) =
      toNat bits % 2 ^ k := by
    rw [toNat_take, toNat_append_zeros]
  have hterm : parseBvbin (indexNumber k bits).valueBin =
      mkConst (BitVec.ofNat k (toNat bits % 2 ^ k)) := by
    rw [indexNumber, parseBvbin_new hne, Digits.fill, hlen, hval]
  rw [SMTExpr.evalTerm, SMTLeaf.evalTerm, hterm]
  have hmod : BitVec.ofNat k (toNat bits % 2 ^ k) = BitVec.ofNat k (toNat bits) :=
    BitVec.eq_of_toNat_eq (by simp)
  rw [hmod]
  exact denotes_const ρ _

/-! ## What the translator fills -/

section Filled

variable {S : Type} {decl : S → SigDecl} (ranges : ∀ s, SigRange (decl s).width) {mem : S}
  {unset : Unset S} {msb lsb : Int} {arr : SMTArray S} {index : SMTExpr S}

theorem emit_number (h : lsb ≤ msb) {bits : List Digit} {isSigned : Bool} {value : Int}
    (hvalue : int64FromNumber bits isSigned = some value) :
    emitScaledExprArray decl ranges mem unset msb lsb (.number bits isSigned) =
      some (⟨mem, false, unset.indexTerm, arrayIndexArg (value + lsb)⟩,
        .leaf (.number (indexNumber (decl mem).indexWidth bits))) := by
  simp [emitScaledExprArray, h, hvalue]

theorem emit_select (h : lsb ≤ msb) {expr1 : S} {selExpr : Option (SelExpr S)} {width : Nat} :
    emitScaledExprArray decl ranges mem unset msb lsb (.select expr1 selExpr width) =
      (emitExprSelect (ranges expr1) expr1 selExpr width).map fun sig =>
        (⟨mem, true, expr1, unset.arrayIndex⟩, .leaf (.signal sig)) := by
  simp [emitScaledExprArray, h]

theorem emit_binary (h : lsb ≤ msb) {opcode : Char} {signed1 signed2 : Bool}
    {oper1 oper2 : SMTExpr S} :
    emitScaledExprArray decl ranges mem unset msb lsb
        (.binary opcode signed1 signed2 oper1 oper2) =
      some (⟨mem, false, unset.indexTerm, unset.arrayIndex⟩,
        .node (.binary (emitExprBinary opcode signed1 signed2)) [oper1, oper2]) := by
  simp [emitScaledExprArray, h]

end Filled

theorem emitExprSelect_parent {S : Type} {w : Nat} {range : SigRange w} {s : S}
    {selExpr : Option (SelExpr S)} {width : Nat} {sig : SMTSignal S}
    (h : emitExprSelect range s selExpr width = some sig) : sig.parent = s := by
  cases selExpr with
  | none =>
      simp only [emitExprSelect] at h
      split at h
      · cases h
        rfl
      · cases h
        rfl
  | some e =>
      simp only [emitExprSelect] at h
      split at h
      · obtain ⟨p, hp, rfl⟩ := Option.map_eq_some_iff.mp h
        simp only [emitScaledExpr] at hp
        split at hp
        · cases e <;> cases hp <;> rfl
        · cases e <;> cases hp
          rfl
      · cases e with
        | number value =>
            simp only [emitScaledRange, Option.ite_none_right_eq_some] at h
            cases h.2
            rfl
        | signal i => cases h
        | other => cases h

/-! ## The elements of the forms -/

namespace ArrayDecl

variable (a : ArrayDecl)

theorem indexWidth_pos : 1 ≤ a.indexWidth := SigDecl.indexWidth_pos a.two_le

variable {a} in
/-- The index of two elements has one bit. -/
theorem two_lt (h : 2 ≤ a.indexWidth) : 2 < a.indexCount := by
  apply Nat.lt_of_le_of_ne a.two_le
  intro htwo
  rw [SigDecl.indexWidth, ← htwo] at h
  exact absurd h (by decide)

end ArrayDecl

namespace ArrayDesign

variable {a : ArrayDecl} {D : ArrayDesign a} {form : IndexKind} {i j x y : Nat}

/-- The translator's first branch is taken: the bounds are in order. -/
theorem read_bounds (D : ArrayDesign a) : a.base ≤ a.base + (D.decl D.mem).indexCount := by
  omega

theorem write_bounds (D : ArrayDesign a) :
    a.base ≤ a.base + (D.decl D.mem).indexCount - 1 := by
  have h := a.two_le
  rw [D.decl_mem]
  omega

theorem kind_select {expr1 : D.S} {selExpr : Option (SelExpr D.S)} {width : Nat}
    (h : D.kind (.select expr1 selExpr width) = some form) :
    ∃ sig, emitExprSelect (D.ranges expr1) expr1 selExpr width = some sig ∧
      form = if sig.isWhole D.decl ∨ sig.isIndexTerm = true then .whole else .part := by
  obtain ⟨sig, hsig, hform⟩ := Option.map_eq_some_iff.mp h
  exact ⟨sig, hsig, hform.symm⟩

/-- A read through a number takes the declared index. -/
theorem Reads.constant (h : D.Reads .constant i x) :
    x = ((i + a.base) % 2 ^ a.indexWidth).toNat := by
  obtain ⟨e, unset, arr, index, st, ρ, v, hkind, hemit, hpos, hread, rfl⟩ := h
  cases e with
  | number bits isSigned =>
      rw [emitReadIndex, emit_number D.ranges D.read_bounds hpos] at hemit
      cases hemit
      have hterm : Denotes ρ (mkConst (BitVec.ofNat (D.decl D.mem).indexWidth
          (arrayIndexArg (i + a.base)))) v := hread
      have hval := (Denotes.toNat_eq (denotes_const ρ _) hterm).2
      rw [← hval, BitVec.toNat_ofNat, D.decl_mem]
      exact arrayIndexArg_mod (SigDecl.indexWidth_le a.lt_int) _
  | select expr1 selExpr width =>
      obtain ⟨sig, -, hform⟩ := kind_select hkind
      split at hform <;> cases hform
  | binary opcode signed1 signed2 oper1 oper2 => cases hkind

/-- A write through a number takes the low bits of the index. -/
theorem Writes.constant (h : D.Writes .constant j y) : y = j % 2 ^ a.indexWidth := by
  obtain ⟨e, unset, arr, index, st, ρ, v, hkind, hemit, hpos, hwrite, rfl⟩ := h
  cases e with
  | number bits isSigned =>
      rw [emitWriteIndex, emit_number D.ranges D.write_bounds hpos] at hemit
      cases hemit
      have hwidth : (D.decl D.mem).indexWidth ≠ 0 := by
        rw [D.decl_mem]
        have := a.indexWidth_pos
        omega
      have hval := (Denotes.toNat_eq (denotes_indexNumber hwidth bits) hwrite).2
      rw [← hval, BitVec.toNat_ofNat, D.decl_mem, toNat_of_int64FromNumber hpos]
  | select expr1 selExpr width =>
      obtain ⟨sig, -, hform⟩ := kind_select hkind
      split at hform <;> cases hform
  | binary opcode signed1 signed2 oper1 oper2 => cases hkind

/-- A write through any other form takes the value of the index. -/
theorem Writes.value (h : D.Writes form j y) (hform : form ≠ .constant) :
    y = j ∧ j < 2 ^ a.indexWidth := by
  obtain ⟨e, unset, arr, index, st, ρ, v, hkind, hemit, hpos, hwrite, rfl⟩ := h
  have hvalue : ∀ {w : Nat} {u : BitVec w},
      Denotes ρ (index.evalTerm D.decl st .curr) u → u.toNat = j →
        v.toNat = j ∧ j < 2 ^ a.indexWidth := by
    intro w u hu huj
    have heq := (Denotes.toNat_eq hu hwrite).2
    exact ⟨by omega, by have := v.isLt; omega⟩
  cases e with
  | number bits isSigned => exact absurd (Option.some.inj hkind).symm hform
  | select expr1 selExpr width =>
      obtain ⟨w, u, hu, huj⟩ := hpos
      exact hvalue hu huj
  | binary opcode signed1 signed2 oper1 oper2 =>
      obtain ⟨w, u, hu, huj⟩ := hpos
      exact hvalue hu huj

/-- A read through a select applies the array to the whole signal. -/
theorem Reads.select (h : D.Reads form i x) (hform : form = .whole ∨ form = .part) :
    ∃ (sig : SMTSignal D.S) (st : SigState D.S) (ρ : Valuation) (v : BitVec a.indexWidth)
      (w : Nat) (u : BitVec w),
      form = (if sig.isWhole D.decl ∨ sig.isIndexTerm = true then .whole else .part) ∧
      Denotes ρ (sig.evalTerm D.decl st .curr) u ∧ u.toNat = i ∧
      Denotes ρ (sigTerm D.decl st sig.parent .curr) v ∧ v.toNat = x := by
  obtain ⟨e, unset, arr, index, st, ρ, v, hkind, hemit, hpos, hread, hx⟩ := h
  cases e with
  | number bits isSigned =>
      cases hkind
      rcases hform with h | h <;> cases h
  | select expr1 selExpr width =>
      obtain ⟨sig, hsig, hwhole⟩ := kind_select hkind
      rw [emitReadIndex, emit_select D.ranges D.read_bounds, hsig] at hemit
      cases hemit
      obtain ⟨w, u, hu, hui⟩ := hpos
      have hparent := emitExprSelect_parent hsig
      have hterm : Denotes ρ (sigTerm D.decl st expr1 .curr) v := hread
      rw [← hparent] at hterm
      exact ⟨sig, st, ρ, v, w, u, hwhole, hu, hui, hterm, hx⟩
  | binary opcode signed1 signed2 oper1 oper2 =>
      cases hkind
      rcases hform with h | h <;> cases h

theorem Reads.whole (h : D.Reads .whole i x) : x = i ∧ i < 2 ^ a.indexWidth := by
  obtain ⟨sig, st, ρ, v, w, u, hwhole, hu, rfl, hv, rfl⟩ := h.select (.inl rfl)
  have hterm : sig.evalTerm D.decl st .curr = sigTerm D.decl st sig.parent .curr := by
    unfold SMTSignal.evalTerm
    rw [if_neg]
    split at hwhole
    · rename_i hor
      rintro ⟨hnot, hindex⟩
      rcases hor with h | h
      · exact hnot h
      · rw [h] at hindex
        cases hindex
    · cases hwhole
  rw [hterm] at hu
  have heq := (Denotes.toNat_eq hu hv).2
  exact ⟨heq.symm, heq ▸ v.isLt⟩

/-- An index of one bit has no parts. -/
theorem not_reads_part (hone : a.indexWidth < 2) : ¬ D.Reads .part i x := by
  intro h
  obtain ⟨sig, st, ρ, v, w, u, hpart, hu, -, hv, -⟩ := h.select (.inr rfl)
  have hnot : ¬ (sig.isWhole D.decl ∨ sig.isIndexTerm = true) := by
    intro hor
    rw [if_pos hor] at hpart
    cases hpart
  rw [not_or, Bool.not_eq_true] at hnot
  obtain ⟨t, ht, -⟩ := hv.exists_term
  have hwidth : (D.decl sig.parent).width = a.indexWidth := by
    unfold sigTerm at ht
    split at ht
    · cases ht
    · rw [mkVar, Option.some.injEq, Sigma.mk.injEq, SigDecl.bvType] at ht
      split at ht
      · cases ht.1
      · rw [Ty.bv.injEq] at ht
        exact ht.1
  have hpos := a.indexWidth_pos
  rw [SMTSignal.evalTerm, if_pos hnot, bvextract] at hu
  split at hu
  · rename_i hrange
    rw [ht, mkExtract, onBv] at hu
    split at hu
    · rename_i hin
      refine hnot.1 ?_
      unfold SMTSignal.isWhole
      omega
    · exact not_denotes_none _ hu
  · exact not_denotes_none _ hu

/-- Reading through a select. -/
theorem Reads.of_select (unset : Unset D.S) {expr1 : D.S} {selExpr : Option (SelExpr D.S)}
    {width w : Nat} {sig : SMTSignal D.S} {st : SigState D.S} {ρ : Valuation} {u : BitVec w}
    {v : BitVec a.indexWidth}
    (hsig : emitExprSelect (D.ranges expr1) expr1 selExpr width = some sig)
    (hindex : Denotes ρ (sig.evalTerm D.decl st .curr) u)
    (hread : Denotes ρ (sigTerm D.decl st expr1 .curr) v) :
    D.Reads (if sig.isWhole D.decl ∨ sig.isIndexTerm = true then .whole else .part)
      u.toNat v.toNat := by
  refine ⟨.select expr1 selExpr width, unset, ⟨D.mem, true, expr1, unset.arrayIndex⟩,
    .leaf (.signal sig), st, ρ, v, ?_, ?_, ⟨w, u, hindex, rfl⟩, hread, rfl⟩
  · rw [kind, hsig, Option.map_some]
  · rw [emitReadIndex, emit_select D.ranges D.read_bounds, hsig]
    rfl

/-- Writing through a select. -/
theorem Writes.of_select (unset : Unset D.S) {expr1 : D.S} {selExpr : Option (SelExpr D.S)}
    {width : Nat} {sig : SMTSignal D.S} {st : SigState D.S} {ρ : Valuation}
    {v : BitVec a.indexWidth}
    (hsig : emitExprSelect (D.ranges expr1) expr1 selExpr width = some sig)
    (hindex : Denotes ρ (sig.evalTerm D.decl st .curr) v) :
    D.Writes (if sig.isWhole D.decl ∨ sig.isIndexTerm = true then .whole else .part)
      v.toNat v.toNat := by
  refine ⟨.select expr1 selExpr width, unset, ⟨D.mem, true, expr1, unset.arrayIndex⟩,
    .leaf (.signal sig), st, ρ, v, ?_, ?_, ⟨_, v, hindex, rfl⟩, hindex, rfl⟩
  · rw [kind, hsig, Option.map_some]
  · rw [emitWriteIndex, emit_select D.ranges D.write_bounds, hsig]
    rfl

end ArrayDesign

/-! ## Accesses of every form -/

/-- The array, a signal as wide as its index, and one that is wider by a bit. -/
inductive IndexSig where
  | mem | addr | wide
  deriving DecidableEq, Repr

namespace IndexSig

def num : IndexSig → Nat
  | mem => 0
  | addr => 1
  | wide => 2

variable (a : ArrayDecl)

def decl : IndexSig → SigDecl
  | mem => a.toSigDecl
  | addr => { width := a.indexWidth, isInput := true, indexCount := 1 }
  | wide => { width := a.indexWidth + 1, isInput := true, indexCount := 1 }

def ranges : (s : IndexSig) → SigRange (decl a s).width
  | mem => a.range
  | addr => ⟨a.indexWidth - 1, 0, by have := a.indexWidth_pos; simp only [decl]; omega⟩
  | wide => ⟨a.indexWidth, 0, by simp only [decl]; omega⟩

def design : ArrayDesign a where
  S := IndexSig
  decl := decl a
  ranges := ranges a
  mem := mem
  decl_mem := rfl

/-- One term for each signal. -/
def state : SigState IndexSig where
  core := fun s =>
    { termStack := [s.num]
      currVersion := 0
      nextVersion := 0
      versionAtClock := fun _ => 0 }
  fresh := 3

/-- Every bit-vector variable has the value `k`. -/
def allAt (k : Nat) : Valuation
  | .bool, _ => false
  | .bv w, _ => BitVec.ofNat w k
  | .fn _ _, _ => fun _ => 0

/-- What the allocator left in the members is `x`. -/
def unset (x : Nat) : Unset IndexSig := ⟨mem, x, .leaf .unspecified⟩

/-- The number `k` with 32 digits. -/
def constIndex (k : Nat) : IndexExpr IndexSig :=
  .number ((bits (BitVec.ofNat 32 k)).map Digit.ofBit) false

def addrIndex : IndexExpr IndexSig := .select addr none a.indexWidth

def wideIndex : IndexExpr IndexSig := .select wide none a.indexWidth

/-- The lowest bit of the address. -/
def bitIndex : IndexExpr IndexSig := .select addr none 1

/-- `addr & addr`. -/
def binaryIndex : IndexExpr IndexSig :=
  let oper : SMTExpr IndexSig := .leaf (.signal (SMTSignal.new (ranges a addr) addr))
  .binary '&' false false oper oper

variable {a} {k : Nat}

theorem toNat_constIndex (hk : k < 2 ^ 31) :
    toNat ((bits (BitVec.ofNat 32 k)).map Digit.ofBit) = k := by
  rw [toNat_bits, BitVec.toNat_ofNat, Nat.mod_eq_of_lt (by omega)]

theorem int64_constIndex (hk : k < 2 ^ 31) :
    int64FromNumber ((bits (BitVec.ofNat 32 k)).map Digit.ofBit) false = some (k : Int) := by
  have hlength : ((bits (BitVec.ofNat 32 k)).map Digit.ofBit).length = 32 := by simp [bits]
  have hvalid := getInt64FromNumber_unsigned (by omega) (by omega)
    (known_map_ofBit (bits (BitVec.ofNat 32 k)))
  rw [toNat_constIndex hk] at hvalid
  have hint : (BitVec.ofNat 64 k).toInt = k := by
    rw [toInt_ofNat (by omega), if_pos (by omega)]
  rw [int64FromNumber, hvalid]
  exact congrArg some hint

theorem denotes_addr : Denotes (allAt k) (sigTerm (decl a) state addr .curr)
    (BitVec.ofNat a.indexWidth k) := rfl

theorem denotes_wide : Denotes (allAt k) (sigTerm (decl a) state wide .curr)
    (BitVec.ofNat (a.indexWidth + 1) k) := rfl

theorem reads_constant (hk : k < a.indexCount) :
    (design a).Reads .constant k ((k + a.base) % 2 ^ a.indexWidth).toNat := by
  have hint : k < 2 ^ 31 := Nat.lt_trans hk a.lt_int
  refine ⟨constIndex k, unset 0, _, _, state, allAt 0,
    BitVec.ofNat a.indexWidth (arrayIndexArg (k + a.base)), rfl,
    emit_number (ranges a) (design a).read_bounds (int64_constIndex hint), int64_constIndex hint,
    denotes_const _ _, ?_⟩
  rw [BitVec.toNat_ofNat]
  exact arrayIndexArg_mod (SigDecl.indexWidth_le a.lt_int) _

theorem writes_constant (hk : k < a.indexCount) :
    (design a).Writes .constant k (k % 2 ^ a.indexWidth) := by
  have hint : k < 2 ^ 31 := Nat.lt_trans hk a.lt_int
  have hpos := a.indexWidth_pos
  refine ⟨constIndex k, unset 0, _, _, state, allAt 0,
    BitVec.ofNat a.indexWidth (toNat ((bits (BitVec.ofNat 32 k)).map Digit.ofBit)), rfl,
    emit_number (ranges a) (design a).write_bounds (int64_constIndex hint), int64_constIndex hint,
    denotes_indexNumber (by omega) _, ?_⟩
  rw [BitVec.toNat_ofNat, toNat_of_int64FromNumber (int64_constIndex hint)]

/-- What the emitter makes of the selects. -/
theorem emit_addr : emitExprSelect (ranges a addr) addr none a.indexWidth =
    some ⟨addr, a.indexWidth - 1, 0, false⟩ := by
  simp only [emitExprSelect, decl, if_neg (Nat.lt_irrefl _)]
  rfl

theorem emit_wide : emitExprSelect (ranges a wide) wide none a.indexWidth =
    some ⟨wide, a.indexWidth - 1, 0, false⟩ := by
  have hmsb : (0 : Int) ≤ a.indexWidth := by omega
  simp only [emitExprSelect, decl, if_pos (Nat.lt_succ_self _), ranges, ge_iff_le, hmsb, if_true,
    SMTSignal.new]
  simp

theorem emit_bit (h : 2 ≤ a.indexWidth) : emitExprSelect (ranges a addr) addr none 1 =
    some ⟨addr, 0, 0, false⟩ := by
  have hmsb : (0 : Int) ≤ a.indexWidth - 1 := by omega
  simp only [emitExprSelect, decl, if_pos (Nat.lt_of_succ_le h), ranges, ge_iff_le, hmsb,
    if_true, SMTSignal.new]
  simp

/-- The reads and writes through the whole address. -/
theorem whole_addr : (if (⟨addr, a.indexWidth - 1, 0, false⟩ : SMTSignal IndexSig).isWhole
    (decl a) ∨ false = true then IndexKind.whole else .part) = .whole := by
  refine if_pos (.inl ?_)
  unfold SMTSignal.isWhole
  simp [decl]

theorem denotes_signal_addr : Denotes (allAt k)
    ((⟨addr, a.indexWidth - 1, 0, false⟩ : SMTSignal IndexSig).evalTerm (decl a) state .curr)
    (BitVec.ofNat a.indexWidth k) := by
  rw [SMTSignal.evalTerm, if_neg]
  · exact denotes_addr
  · intro h
    refine h.1 ?_
    unfold SMTSignal.isWhole
    simp [decl]

theorem reads_whole (hk : k < 2 ^ a.indexWidth) : (design a).Reads .whole k k := by
  have h := ArrayDesign.Reads.of_select (D := design a) (unset 0) emit_addr denotes_signal_addr
    (denotes_addr (k := k))
  rw [BitVec.toNat_ofNat, Nat.mod_eq_of_lt hk] at h
  rwa [← whole_addr (a := a)]

theorem writes_whole (hk : k < 2 ^ a.indexWidth) : (design a).Writes .whole k k := by
  have h := ArrayDesign.Writes.of_select (D := design a) (unset 0) emit_addr
    (denotes_signal_addr (k := k))
  rw [BitVec.toNat_ofNat, Nat.mod_eq_of_lt hk] at h
  rwa [← whole_addr (a := a)]

/-- A part of the wider signal, as wide as the index. -/
theorem writes_part (hk : k < 2 ^ a.indexWidth) : (design a).Writes .part k k := by
  have hpos := a.indexWidth_pos
  have hnot : ¬ (⟨wide, a.indexWidth - 1, 0, false⟩ : SMTSignal IndexSig).isWhole (decl a) := by
    unfold SMTSignal.isWhole
    simp [decl]
  have hterm : Denotes (allAt k)
      ((⟨wide, a.indexWidth - 1, 0, false⟩ : SMTSignal IndexSig).evalTerm (decl a) state .curr)
      ((BitVec.ofNat (a.indexWidth + 1) k).extractLsb' 0 a.indexWidth) := by
    rw [SMTSignal.evalTerm, if_pos ⟨hnot, rfl⟩]
    have h := denotes_bvextract (denotes_wide (a := a) (k := k)) (show 0 < a.indexWidth by omega)
      (show InVector (a.indexWidth + 1) 0 a.indexWidth from ⟨le_rfl, by omega⟩)
    simpa using h
  have hval : ((BitVec.ofNat (a.indexWidth + 1) k).extractLsb' 0 a.indexWidth).toNat = k := by
    have hk' : k < 2 ^ (a.indexWidth + 1) := by
      rw [Nat.pow_succ]
      omega
    simp [Nat.mod_eq_of_lt hk, Nat.mod_eq_of_lt hk']
  have h := ArrayDesign.Writes.of_select (D := design a) (unset 0) emit_wide hterm
  rw [if_neg (fun hor => hor.elim hnot Bool.false_ne_true), hval] at h
  exact h

/-- The lowest bit of an address with the value 2. -/
theorem reads_part (h : 2 ≤ a.indexWidth) : (design a).Reads .part 0 2 := by
  have hnot : ¬ (⟨addr, 0, 0, false⟩ : SMTSignal IndexSig).isWhole (decl a) := by
    unfold SMTSignal.isWhole
    simp only [decl]
    omega
  have hterm : Denotes (allAt 2)
      ((⟨addr, 0, 0, false⟩ : SMTSignal IndexSig).evalTerm (decl a) state .curr)
      ((BitVec.ofNat a.indexWidth 2).extractLsb' 0 1) := by
    rw [SMTSignal.evalTerm, if_pos ⟨hnot, rfl⟩]
    have h := denotes_bvextract (denotes_addr (a := a) (k := 2)) (show 0 < 1 by decide)
      (show InVector a.indexWidth 0 1 from ⟨le_rfl, by omega⟩)
    simpa using h
  have htwo : 2 < 2 ^ a.indexWidth :=
    Nat.lt_of_lt_of_le (by decide) (Nat.pow_le_pow_right (by omega) h)
  have hval : (BitVec.ofNat a.indexWidth 2).toNat = 2 := by
    rw [BitVec.toNat_ofNat, Nat.mod_eq_of_lt htwo]
  have hbit : ((BitVec.ofNat a.indexWidth 2).extractLsb' 0 1).toNat = 0 := by
    simp [Nat.mod_eq_of_lt htwo]
  have hreads := ArrayDesign.Reads.of_select (D := design a) (unset 0) (emit_bit h) hterm
    denotes_addr
  rw [if_neg (fun hor => hor.elim hnot Bool.false_ne_true), hval, hbit] at hreads
  exact hreads

/-- `addr & addr` has the value of the address. -/
theorem denotes_binary : Denotes (allAt k)
    ((SMTExpr.node (.binary (emitExprBinary '&' false false))
      [.leaf (.signal (SMTSignal.new (ranges a addr) addr)),
        .leaf (.signal (SMTSignal.new (ranges a addr) addr))]).evalTerm (decl a) state .curr)
    (BitVec.ofNat a.indexWidth k) := by
  have haddr : Denotes (allAt k)
      ((SMTExpr.leaf (.signal (SMTSignal.new (ranges a addr) addr))).evalTerm (decl a) state
        .curr) (BitVec.ofNat a.indexWidth k) := denotes_signal_addr
  have hand := Denotes.op2 .and haddr haddr
  rw [Op2.apply, BitVec.and_self] at hand
  rw [SMTExpr.evalTerm_node]
  exact hand

/-- The member that the read takes was never filled. -/
theorem reads_binary : (design a).Reads .binary 0 1 := by
  have hone : 1 < 2 ^ a.indexWidth := Nat.one_lt_two_pow (by have := a.indexWidth_pos; omega)
  refine ⟨binaryIndex a, unset 1, ⟨mem, false, mem, 1⟩, _, state, allAt 0,
    BitVec.ofNat a.indexWidth 1, rfl, emit_binary (ranges a) (design a).read_bounds,
    ⟨_, _, denotes_binary, ?_⟩, denotes_const _ _, ?_⟩
  · simp
  · rw [BitVec.toNat_ofNat, Nat.mod_eq_of_lt hone]

theorem writes_binary (hk : k < 2 ^ a.indexWidth) : (design a).Writes .binary k k := by
  have hval : (BitVec.ofNat a.indexWidth k).toNat = k := by
    rw [BitVec.toNat_ofNat, Nat.mod_eq_of_lt hk]
  exact ⟨binaryIndex a, unset 0, ⟨mem, false, mem, 0⟩, _, state, allAt k,
    BitVec.ofNat a.indexWidth k, rfl, emit_binary (ranges a) (design a).write_bounds,
    ⟨_, _, denotes_binary, hval⟩, denotes_binary, hval⟩

/-- A write of every form takes the element of its number, if the index can
hold it. -/
theorem writes (form : IndexKind) (hk : k < 2 ^ a.indexWidth) (hcount : k < a.indexCount) :
    (design a).Writes form k k := by
  cases form with
  | constant =>
      have h := writes_constant hcount
      rwa [Nat.mod_eq_of_lt hk] at h
  | whole => exact writes_whole hk
  | part => exact writes_part hk
  | binary => exact writes_binary hk

end IndexSig

/-! ## Agreement -/

/-- When a read takes the element of its index: through a number, if the base is
a multiple of what the index counts; through a select, if it is the whole signal
(an index of one bit has no parts); through an operator, never. -/
def ArrayDecl.ReadsFit (a : ArrayDecl) : IndexKind → Prop
  | .constant => (2 ^ a.indexWidth : Int) ∣ a.base
  | .whole => True
  | .part => a.indexWidth < 2
  | .binary => False

/-- The read takes its element, and where one of the two indices is a number, the
array has no more elements than the index counts. -/
def ArrayDecl.AddressesFit (a : ArrayDecl) (readForm writeForm : IndexKind) : Prop :=
  a.ReadsFit readForm ∧
    (readForm = .constant ∨ (readForm = .whole ∧ writeForm = .constant) →
      a.indexCount ≤ 2 ^ a.indexWidth)

theorem ArrayDesign.Writes.eq {a : ArrayDecl} {D : ArrayDesign a} {form : IndexKind} {j y : Nat}
    (h : D.Writes form j y) (hj : form = .constant → j < 2 ^ a.indexWidth) : y = j := by
  by_cases hform : form = .constant
  · subst hform
    rw [h.constant, Nat.mod_eq_of_lt (hj rfl)]
  · exact (h.value hform).1

namespace ArrayDecl

variable {a : ArrayDecl} {readForm writeForm : IndexKind}

/-- With an aligned base the declared index and the position have the same low
bits. -/
theorem index_of_aligned (h : (2 ^ a.indexWidth : Int) ∣ a.base) (i : Nat) :
    (((i : Int) + a.base) % 2 ^ a.indexWidth).toNat = i % 2 ^ a.indexWidth := by
  obtain ⟨c, hc⟩ := h
  rw [hc, Int.add_mul_emod_self_left]
  have hcast : ((i % 2 ^ a.indexWidth : Nat) : Int) = (i : Int) % 2 ^ a.indexWidth := by
    push_cast
    rfl
  omega

theorem agrees_of_fit (h : a.AddressesFit readForm writeForm) : a.Agrees readForm writeForm := by
  intro D i j x y hi hj hread hwrite
  obtain ⟨hfit, hcount⟩ := h
  cases readForm with
  | constant =>
      have hn := hcount (.inl rfl)
      have hx := hread.constant
      rw [index_of_aligned hfit, Nat.mod_eq_of_lt (by omega)] at hx
      have hy := hwrite.eq fun _ => by omega
      rw [hx, hy]
  | whole =>
      have hx := hread.whole.1
      have hy := hwrite.eq fun hform => by
        have hn := hcount (.inr ⟨rfl, hform⟩)
        omega
      rw [hx, hy]
  | part => exact absurd hread (ArrayDesign.not_reads_part hfit)
  | binary => exact hfit.elim

/-- The first condition, from the accesses to one element or two. -/
theorem readsFit_of_agrees (h : a.Agrees readForm writeForm) : a.ReadsFit readForm := by
  have hn := a.two_le
  cases readForm with
  | constant =>
      have hread := IndexSig.reads_constant (a := a) (k := 0) (by omega)
      have hwrite := IndexSig.writes (a := a) (k := 0) writeForm (by positivity) (by omega)
      have heq := (h _ 0 0 _ _ (by omega) (by omega) hread hwrite).mpr rfl
      have hpos : (0 : Int) < 2 ^ a.indexWidth := by positivity
      have hnonneg := Int.emod_nonneg a.base (ne_of_gt hpos)
      refine Int.dvd_of_emod_eq_zero ?_
      simp only [Nat.cast_zero, Int.zero_add] at heq
      omega
  | whole => trivial
  | part =>
      show a.indexWidth < 2
      by_contra htwo
      have htwo' : 2 ≤ a.indexWidth := by omega
      have hfour : 2 ^ 2 ≤ 2 ^ a.indexWidth := Nat.pow_le_pow_right (by omega) htwo'
      have hlt := two_lt htwo'
      have hwrite := IndexSig.writes (a := a) (k := 2) writeForm (by omega) hlt
      have heq := (h _ 0 2 2 2 (by omega) hlt (IndexSig.reads_part htwo') hwrite).mp rfl
      omega
  | binary =>
      have hone : 1 < 2 ^ a.indexWidth := Nat.one_lt_two_pow (by have := a.indexWidth_pos; omega)
      have hwrite := IndexSig.writes (a := a) (k := 1) writeForm hone (by omega)
      have heq := (h _ 0 1 1 1 (by omega) (by omega) IndexSig.reads_binary hwrite).mp rfl
      omega

theorem fit_of_agrees (h : a.Agrees readForm writeForm) :
    a.AddressesFit readForm writeForm := by
  have hfit := readsFit_of_agrees h
  refine ⟨hfit, fun hforms => ?_⟩
  by_contra hcount
  have hpos : 0 < 2 ^ a.indexWidth := by positivity
  rcases hforms with rfl | ⟨rfl, rfl⟩
  · have hread := IndexSig.reads_constant (a := a) (k := 2 ^ a.indexWidth) (by omega)
    rw [index_of_aligned hfit, Nat.mod_self] at hread
    have hwrite := IndexSig.writes (a := a) (k := 0) writeForm hpos (by omega)
    have heq := (h _ _ 0 0 0 (by omega) (by omega) hread hwrite).mp rfl
    omega
  · have hwrite := IndexSig.writes_constant (a := a) (k := 2 ^ a.indexWidth) (by omega)
    rw [Nat.mod_self] at hwrite
    have heq := (h _ 0 _ 0 0 (by omega) (by omega) (IndexSig.reads_whole hpos) hwrite).mp rfl
    omega

/-- **Array accesses.** For every array and every two forms of an index, reads
and writes agree on the elements exactly when the addresses fit. -/
theorem agrees_iff (a : ArrayDecl) (readForm writeForm : IndexKind) :
    a.Agrees readForm writeForm ↔ a.AddressesFit readForm writeForm :=
  ⟨fit_of_agrees, agrees_of_fit⟩

end ArrayDecl

/-- `reg [7:0] mem [1:4]`. -/
def baseOne : ArrayDecl where
  width := 8
  isInput := false
  indexCount := 4
  base := 1
  range := ⟨7, 0, rfl⟩
  two_le := by decide
  lt_int := by decide

/-- `mem[1]` is read from the element 1 of the solver's function and written to
the element 0. -/
theorem baseOne_differs :
    (IndexSig.design baseOne).Reads .constant 0 1 ∧
      (IndexSig.design baseOne).Writes .constant 0 0 ∧
      ¬ ∀ readForm writeForm, baseOne.Agrees readForm writeForm := by
  have hread : (IndexSig.design baseOne).Reads .constant 0 1 :=
    IndexSig.reads_constant (a := baseOne) (k := 0) (by decide)
  have hwrite : (IndexSig.design baseOne).Writes .constant 0 0 :=
    IndexSig.writes_constant (a := baseOne) (k := 0) (by decide)
  refine ⟨hread, hwrite, fun h => ?_⟩
  have heq := (h .constant .constant _ 0 0 1 0 (by decide) (by decide) hread hwrite).mpr rfl
  exact absurd heq (by decide)

end Conquest
