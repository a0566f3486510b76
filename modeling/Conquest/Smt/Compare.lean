import Conquest.Smt.Narrow

/-!
# Compare — a signal against a wider constant

For `signal op constant` Icarus extends the signal with zeros to the width of
the constant. The translator drops the extension and cuts the constant to the
width of the signal, in the term for the solver as well as in the instrumented
design. The two comparisons are one where the constant survives the cut.
-/

namespace Conquest

open Bv Digits Text

/-! ## Comparisons of numbers -/

/-- A comparison of unsigned numbers. -/
def VRel.cmp : VRel → Nat → Nat → Bool
  | .eq, a, b => a = b
  | .ne, a, b => a ≠ b
  | .lt, a, b => a < b
  | .le, a, b => a ≤ b
  | .gt, a, b => b < a
  | .ge, a, b => b ≤ a

theorem VRel.eval_false {w : Nat} (op : VRel) (a b : BitVec w) :
    op.eval false a b = op.cmp a.toNat b.toNat := by
  cases op <;> simp [VRel.eval, VRel.cmp, BitVec.toNat_inj]

/-- A comparison that a number of `w` bits passes or fails against all greater
ones as against the greatest. -/
def VRel.saturates : VRel → Bool
  | .le | .gt => true
  | _ => false

/-- Two constants compare alike with all numbers below `k`. -/
theorem VRel.cmp_congr_iff {k a : Nat} (op : VRel) (ha : a < k) (b : Nat) :
    (∀ x < k, op.cmp x a = op.cmp x b) ↔
      a = b ∨ op.saturates = true ∧ a = k - 1 ∧ k ≤ b := by
  -- the values to look at are the constants and the greatest number
  have hlt : (∀ x < k, (x < a ↔ x < b)) ↔ a = b := by
    constructor
    · intro h
      have h1 := h a ha
      by_cases hb : b < k
      · have h2 := h b hb
        omega
      · omega
    · rintro rfl x -
      exact Iff.rfl
  have hle : (∀ x < k, (x ≤ a ↔ x ≤ b)) ↔ a = b ∨ a = k - 1 ∧ k ≤ b := by
    constructor
    · intro h
      have h1 := h a ha
      have h2 := h (k - 1) (by omega)
      by_cases hb : b < k
      · have h3 := h b hb
        omega
      · omega
    · intro h x hx
      omega
  have heq : (∀ x < k, (x = a ↔ x = b)) ↔ a = b := by
    constructor
    · intro h
      exact (h a ha).mp rfl
    · rintro rfl x -
      exact Iff.rfl
  cases op with
  | eq => simpa [VRel.cmp, VRel.saturates] using heq
  | ne => simpa [VRel.cmp, VRel.saturates, not_iff_not] using heq
  | lt => simpa [VRel.cmp, VRel.saturates] using hlt
  | le => simpa [VRel.cmp, VRel.saturates] using hle
  | gt =>
      have hgt : (∀ x < k, (a < x ↔ b < x)) ↔ a = b ∨ a = k - 1 ∧ k ≤ b := by
        refine (forall₂_congr fun x _ => ?_).trans hle
        rw [← Nat.not_le, ← Nat.not_le, not_iff_not]
      simpa [VRel.cmp, VRel.saturates] using hgt
  | ge =>
      have hge : (∀ x < k, (a ≤ x ↔ b ≤ x)) ↔ a = b := by
        refine (forall₂_congr fun x _ => ?_).trans hlt
        rw [← Nat.not_lt, ← Nat.not_lt, not_iff_not]
      simpa [VRel.cmp, VRel.saturates] using hge

/-! ## The digits that are read -/

/-- A character as a digit; what is no bit counts as undefined. -/
def digitOf (c : Char) : Digit := if c = '0' then .zero else if c = '1' then .one else .x

theorem fill_digitOf (c : Char) : (digitOf c).fill = decide (c = '1') := by
  unfold digitOf
  by_cases h0 : c = '0'
  · subst h0
    decide
  · rw [if_neg h0]
    by_cases h1 : c = '1'
    · rw [if_pos h1, decide_eq_true h1]
      rfl
    · rw [if_neg h1, decide_eq_false h1]
      rfl

theorem fill_digitOf_digitChar (d : Digit) : (digitOf (digitChar d)).fill = d.fill := by
  cases d <;> decide

/-- The digits of `w` characters. -/
def readDigits (m : Memory) (s : Line) (w : Nat) : List Digit :=
  (List.range w).map fun i => digitOf (charAt m s i)

theorem length_readDigits (m : Memory) (s : Line) (w : Nat) : (readDigits m s w).length = w := by
  simp [readDigits]

theorem NumberFields.new_eq (m : Memory) (s : Line) (w : Nat) (isSigned : Bool) :
    (NumberFields.new m s w isSigned).toSMTNumber = SMTNumber.new (readDigits m s w) := by
  have hdigit : ∀ c : Char, (if c ≠ '0' ∧ c ≠ '1' then '0' else c) =
      if digitChar (digitOf c) ≠ '0' ∧ digitChar (digitOf c) ≠ '1' then '0'
      else digitChar (digitOf c) := by
    intro c
    unfold digitOf
    by_cases h0 : c = '0'
    · subst h0
      decide
    · by_cases h1 : c = '1'
      · subst h1
        decide
      · rw [if_neg h0, if_neg h1, if_pos ⟨h0, h1⟩]
        rfl
  rw [SMTNumber.new, readDigits, ← List.map_reverse, List.map_map]
  unfold NumberFields.new
  rw [SMTNumber.mk.injEq]
  exact List.map_congr_left fun i _ => hdigit (charAt m s i)

/-- What the copy of `n - w` characters holds: the lowest bits, a zero for the
terminator, and what is behind it. -/
theorem testBit_readDigits {bits : List Digit} {w i : Nat} (m : Memory) (hlt : w < bits.length) :
    (toNat (readDigits m (left (ivlExprBits bits) (bits.length - w)) w)).testBit i =
      (decide (i < w) && if i < bits.length - w then (toNat bits).testBit i
        else decide (bits.length - w < i ∧ m i = '1')) := by
  have hlength : (left (ivlExprBits bits) (bits.length - w)).length = bits.length - w := by
    rw [length_left, length_ivlExprBits]
    omega
  rw [testBit_toNat]
  by_cases hi : i < w
  · have hget : ((readDigits m (left (ivlExprBits bits) (bits.length - w)) w).map
        Digit.fill).getD i false =
        (digitOf (charAt m (left (ivlExprBits bits) (bits.length - w)) i)).fill := by
      simp [readDigits, List.getD_eq_getElem?_getD, hi]
    rw [hget, decide_eq_true hi, Bool.true_and]
    split
    · rename_i hn
      have hbits : i < bits.length := by omega
      rw [charAt_left hn (by rw [length_ivlExprBits]; exact hbits), testBit_toNat]
      simp [ivlExprBits, fill_digitOf_digitChar, hbits]
    · rename_i hn
      rw [fill_digitOf]
      rcases Nat.lt_or_eq_of_le (Nat.le_of_not_lt hn) with hgt | heq
      · rw [charAt_of_gt (by omega)]
        simp [hgt]
      · have hend : i = (left (ivlExprBits bits) (bits.length - w)).length := by omega
        have hterm : charAt m (left (ivlExprBits bits) (bits.length - w)) i = terminator := by
          rw [hend]
          exact charAt_length
        have hne : ¬ terminator = '1' := by decide
        have hnot : ¬ (bits.length - w < i ∧ m i = '1') := fun h => by omega
        rw [hterm, decide_eq_false hne, decide_eq_false hnot]
  · rw [decide_eq_false hi, Bool.false_and]
    refine List.getD_eq_default _ _ ?_
    rw [List.length_map, length_readDigits]
    omega

/-! ## What the constant becomes -/

section Narrowed

variable {bits : List Digit} {w : Nat}

/-- The constant as it is compared with. -/
def narrowed (m : Memory) (bits : List Digit) (w : Nat) : Nat :=
  toNat (readDigits m (left (ivlExprBits bits) (bits.length - w)) w)

theorem narrowed_lt (m : Memory) (bits : List Digit) (w : Nat) : narrowed m bits w < 2 ^ w := by
  have hlt := toNat_lt (readDigits m (left (ivlExprBits bits) (bits.length - w)) w)
  rw [length_readDigits] at hlt
  exact hlt

/-- Enough is copied. -/
theorem narrowed_of_le (m : Memory) (hlt : w < bits.length) (h : 2 * w ≤ bits.length) :
    narrowed m bits w = toNat bits % 2 ^ w := by
  refine Nat.eq_of_testBit_eq fun i => ?_
  rw [narrowed, testBit_readDigits m hlt, Nat.testBit_mod_two_pow]
  by_cases hi : i < w
  · rw [if_pos (by omega)]
  · rw [decide_eq_false hi, Bool.false_and, Bool.false_and]

/-- The terminator is read for the top bit. -/
theorem narrowed_of_eq (m : Memory) (hlt : w < bits.length) (h : 2 * w = bits.length + 1) :
    narrowed m bits w = toNat bits % 2 ^ (w - 1) := by
  refine Nat.eq_of_testBit_eq fun i => ?_
  rw [narrowed, testBit_readDigits m hlt, Nat.testBit_mod_two_pow]
  by_cases hi : i < w - 1
  · rw [if_pos (by omega), decide_eq_true hi, decide_eq_true (by omega)]
  · rw [if_neg (by omega), decide_eq_false hi, Bool.false_and]
    by_cases hw : i < w
    · have hend : ¬ (bits.length - w < i ∧ m i = '1') := fun h => by omega
      rw [decide_eq_false hend, Bool.and_false]
    · rw [decide_eq_false hw, Bool.false_and]

/-- Memory is read for the top bit. -/
theorem testBit_narrowed_of_lt (m : Memory) (hlt : w < bits.length)
    (h : bits.length + 1 < 2 * w) :
    (narrowed m bits w).testBit (w - 1) = decide (m (w - 1) = '1') := by
  rw [narrowed, testBit_readDigits m hlt, decide_eq_true (by omega), Bool.true_and,
    if_neg (by omega)]
  exact decide_eq_decide.mpr (and_iff_right (by omega))

/-- The bit of the terminator. -/
theorem testBit_narrowed_terminator (m : Memory) (hlt : w < bits.length) :
    (narrowed m bits w).testBit (bits.length - w) = false := by
  have hend : ¬ (bits.length - w < bits.length - w ∧ m (bits.length - w) = '1') :=
    fun h => Nat.lt_irrefl _ h.1
  rw [narrowed, testBit_readDigits m hlt, if_neg (Nat.lt_irrefl _), decide_eq_false hend,
    Bool.and_false]

/-- A constant that survives the cut, with any memory behind the copy. -/
def Survives (op : VRel) (w n c : Nat) : Prop :=
  2 * w ≤ n ∧ (c < 2 ^ w ∨ op.saturates = true ∧ c % 2 ^ w = 2 ^ w - 1) ∨
    2 * w = n + 1 ∧ c < 2 ^ (w - 1)

theorem survives_iff (op : VRel) (hw : 0 < w) (hlt : w < bits.length) :
    (∀ m x, x < 2 ^ w → op.cmp x (narrowed m bits w) = op.cmp x (toNat bits)) ↔
      Survives op w bits.length (toNat bits) := by
  have hpow : 2 ^ (w - 1) < 2 ^ w := Nat.pow_lt_pow_right (by decide) (by omega)
  have hcmp : ∀ m, (∀ x < 2 ^ w, op.cmp x (narrowed m bits w) = op.cmp x (toNat bits)) ↔ _ :=
    fun m => op.cmp_congr_iff (narrowed_lt m bits w) (toNat bits)
  simp only [hcmp]
  unfold Survives
  rcases Nat.lt_trichotomy (bits.length + 1) (2 * w) with hshort | heq | hlong
  · -- two memories make two constants, neither of them all ones
    refine iff_of_false (fun h => ?_) (by omega)
    have hbit : ∀ m : Memory, (toNat bits).testBit (w - 1) = decide (m (w - 1) = '1') := by
      intro m
      rcases h m with hval | ⟨-, hones, -⟩
      · rw [← hval]
        exact testBit_narrowed_of_lt m hlt hshort
      · have hterm := testBit_narrowed_terminator m hlt
        rw [hones, Nat.testBit_two_pow_sub_one, decide_eq_false_iff_not] at hterm
        omega
    have hzero := hbit fun _ => '0'
    have hone := hbit fun _ => '1'
    rw [hzero] at hone
    exact absurd hone (by decide)
  · have hnarrowed : ∀ m, narrowed m bits w = toNat bits % 2 ^ (w - 1) :=
      fun m => narrowed_of_eq m hlt heq.symm
    have hmod : toNat bits % 2 ^ (w - 1) < 2 ^ (w - 1) := Nat.mod_lt _ (Nat.two_pow_pos _)
    simp only [hnarrowed, forall_const]
    constructor
    · rintro (hval | ⟨-, hones, -⟩)
      · refine .inr ⟨heq.symm, ?_⟩
        omega
      · omega
    · rintro (⟨hle, -⟩ | ⟨-, hc⟩)
      · omega
      · exact .inl (Nat.mod_eq_of_lt hc)
  · have hnarrowed : ∀ m, narrowed m bits w = toNat bits % 2 ^ w :=
      fun m => narrowed_of_le m hlt (by omega)
    have hmod : toNat bits % 2 ^ w < 2 ^ w := Nat.mod_lt _ (Nat.two_pow_pos _)
    simp only [hnarrowed, forall_const]
    constructor
    · rintro (hval | ⟨hop, hones, -⟩)
      · refine .inl ⟨by omega, .inl ?_⟩
        omega
      · exact .inl ⟨by omega, .inr ⟨hop, hones⟩⟩
    · rintro (⟨-, hc | ⟨hop, hones⟩⟩ | ⟨hle, -⟩)
      · exact .inl (Nat.mod_eq_of_lt hc)
      · by_cases hc : toNat bits < 2 ^ w
        · exact .inl (Nat.mod_eq_of_lt hc)
        · exact .inr ⟨hop, hones, Nat.le_of_not_lt hc⟩
      · omega

end Narrowed

/-! ## The comparison -/

/-- The value of the comparison in the source: of `bits.length` bits, unsigned. -/
def verilogComparison (op : VRel) (bits : List Digit) {w : Nat} (x : BitVec w) : BitVec 1 :=
  BitVec.ofBool (op.eval false (x.setWidth bits.length) (fill bits))

/-- The term of `emit_expr_binary` for the comparison of an unsigned signal with
a constant. -/
def comparisonTerm (c : Char) (constSigned : Bool) (m : Memory) (bits : List Digit) (w : Nat)
    (s : TermT) : TermT :=
  (emitExprBinary c false constSigned).evalTerm s
    (parseBvbin (emitComparison m (ivlExprBits bits) w false constSigned).valueBin)

/-- The value of what `emit_expr_binary` prints for it. -/
def emittedComparison (op : VRel) (constSigned : Bool) (m : Memory) (bits : List Digit) {w : Nat}
    (x : BitVec w) : BitVec 1 :=
  let number := emitComparison m (ivlExprBits bits) w false constSigned
  (EmittedOper.plain (.rel op)).eval false number.isSigned x (fill number.emitVerilogValue.read)

/-- The term and the print of the comparison have its value, whatever the
memory holds. -/
def ComparesAs (c : Char) (op : VRel) (bits : List Digit) (w : Nat) : Prop :=
  ∀ (m : Memory) (constSigned : Bool) (ρ : Valuation) (s : TermT) (x : BitVec w), Denotes ρ s x →
    Denotes ρ (comparisonTerm c constSigned m bits w s) (verilogComparison op bits x) ∧
      emittedComparison op constSigned m bits x = verilogComparison op bits x

section Comparison

variable {c : Char} {op : VRel} {bits : List Digit} {w : Nat}

theorem verilogComparison_eq (hlt : w < bits.length) (x : BitVec w) :
    verilogComparison op bits x = BitVec.ofBool (op.cmp x.toNat (toNat bits)) := by
  have hx : (x.setWidth bits.length).toNat = x.toNat := by
    rw [BitVec.toNat_setWidth]
    exact Nat.mod_eq_of_lt (x.isLt.trans (Nat.pow_lt_pow_right (by decide) hlt))
  have hbits : (fill bits).toNat = toNat bits := by
    rw [fill, BitVec.toNat_ofNat]
    exact Nat.mod_eq_of_lt (toNat_lt bits)
  rw [verilogComparison, VRel.eval_false, hx, hbits]

theorem emitComparison_eq (m : Memory) (constSigned : Bool) (hlt : w < bits.length) :
    (emitComparison m (ivlExprBits bits) w false constSigned).toSMTNumber =
      SMTNumber.new (readDigits m (left (ivlExprBits bits) (bits.length - w)) w) := by
  rw [emitComparison, emitConstant_of_gt _ _ _ _ hlt, NumberFields.new_eq]

/-- Digits of the width of the signal are compared as their number. -/
theorem eval_plain_rel {ds : List Digit} {signed : Bool} (x : BitVec w) (hw : ds.length = w) :
    (EmittedOper.plain (.rel op)).eval false signed x (fill ds) =
      BitVec.ofBool (op.cmp x.toNat (toNat ds)) := by
  have hds : ((fill ds).setWidth w).toNat = toNat ds := by
    rw [BitVec.toNat_setWidth, fill, BitVec.toNat_ofNat, hw]
    rw [Nat.mod_mod, Nat.mod_eq_of_lt (hw ▸ toNat_lt ds)]
  show BitVec.ofBool (op.eval (false && signed) x ((fill ds).setWidth w)) = _
  rw [Bool.false_and, VRel.eval_false, hds]

theorem emittedComparison_eq (m : Memory) (constSigned : Bool) (hlt : w < bits.length)
    (x : BitVec w) : emittedComparison op constSigned m bits x =
      BitVec.ofBool (op.cmp x.toNat (narrowed m bits w)) := by
  unfold emittedComparison
  dsimp only
  rw [emitComparison_eq m constSigned hlt, read_emitVerilogValue, eval_plain_rel, toNat_ofBits]
  · rfl
  · rw [List.length_map, List.length_map, length_readDigits]

theorem denotes_comparisonTerm (hc : emittedOper c = some (.plain (.rel op))) (m : Memory)
    (constSigned : Bool) (hw : 0 < w) (hlt : w < bits.length) {ρ : Valuation} {s : TermT}
    {x : BitVec w} (hs : Denotes ρ s x) :
    Denotes ρ (comparisonTerm c constSigned m bits w s)
      (BitVec.ofBool (op.cmp x.toNat (narrowed m bits w))) := by
  have hlength := length_readDigits m (left (ivlExprBits bits) (bits.length - w)) w
  have hne : readDigits m (left (ivlExprBits bits) (bits.length - w)) w ≠ [] := by
    intro hnil
    rw [hnil] at hlength
    exact absurd hlength (by simp only [List.length_nil]; omega)
  have hval : Denotes ρ ((emitExprBinary c false constSigned).evalTerm s (mkConst (fill _)))
      ((EmittedOper.plain (.rel op)).eval false constSigned x (fill _)) :=
    binary_denotes hc (fun _ => hlength) trivial hs (denotes_const ρ (fill _))
      (by intro h; cases h)
  rw [eval_plain_rel x hlength] at hval
  unfold comparisonTerm
  rw [emitComparison_eq m constSigned hlt, parseBvbin_new hne]
  exact hval

/-- **A signal against a wider constant.** For an unsigned signal of `w` bits and
a constant of more, in each comparison, the solver's term and the expression in
the instrumented design have the value of the comparison exactly when the
constant survives: it has at least `2 * w` bits and fits into `w` of them, or its
lowest `w` bits are all ones and the comparison is `<=` or `>`; or it has
`2 * w - 1` bits and fits into `w - 1`. -/
theorem comparison_exact_iff (hc : emittedOper c = some (.plain (.rel op))) (hw : 0 < w)
    (hlt : w < bits.length) : ComparesAs c op bits w ↔ Survives op w bits.length (toNat bits) := by
  rw [← survives_iff op hw hlt]
  constructor
  · intro h m x hx
    have hval := (h m false Valuation.zero (mkConst (BitVec.ofNat w x)) (BitVec.ofNat w x)
      (denotes_const _ _)).2
    rw [emittedComparison_eq m false hlt, verilogComparison_eq hlt, BitVec.toNat_ofNat,
      Nat.mod_eq_of_lt hx] at hval
    have hinj : ∀ a b : Bool, BitVec.ofBool a = BitVec.ofBool b → a = b := by decide
    exact hinj _ _ hval
  · intro h m constSigned ρ s x hs
    rw [emittedComparison_eq m constSigned hlt, verilogComparison_eq hlt, ← h m x.toNat x.isLt]
    exact ⟨denotes_comparisonTerm hc m constSigned hw hlt hs, rfl⟩

end Comparison

/-- The constant `40`, which Icarus gives 32 bits. -/
def forty : List Digit := (Digits.bits 40#32).map Digit.ofBit

theorem forty_length : forty.length = 32 := by decide

theorem forty_toNat : toNat forty = 40 := by decide

/-- `a == 40` and `a <= 40` of a signal of four bits: the constant does not
survive. -/
theorem forty_compares_iff :
    (ComparesAs 'e' .eq forty 4 ↔ Survives .eq 4 forty.length (toNat forty)) ∧
      ¬ Survives .eq 4 forty.length (toNat forty) ∧
      ¬ Survives .le 4 forty.length (toNat forty) := by
  have hc : emittedOper 'e' = some (.plain (.rel .eq)) := rfl
  have hlt : 4 < forty.length := by decide
  refine ⟨comparison_exact_iff hc (by decide) hlt, ?_, ?_⟩
  · rw [forty_length, forty_toNat]
    simp [Survives, VRel.saturates]
  · rw [forty_length, forty_toNat]
    simp [Survives]

/-- With `a` eight, `a == 40` is false, and the term and the print are true:
they compare with the four lowest bits of the constant. -/
theorem eight_equals_forty (m : Memory) :
    verilogComparison .eq forty 8#4 = 0#1 ∧ emittedComparison .eq false m forty 8#4 = 1#1 ∧
      Denotes Valuation.zero (comparisonTerm 'e' false m forty 4 (mkConst 8#4)) 1#1 := by
  have hlt : 4 < forty.length := by decide
  have hnarrowed : narrowed m forty 4 = 8 := by
    rw [narrowed_of_le m hlt (by decide), forty_toNat]
    rfl
  refine ⟨?_, ?_, ?_⟩
  · rw [verilogComparison_eq hlt, forty_toNat]
    decide
  · rw [emittedComparison_eq m false hlt, hnarrowed]
    decide
  · have hc : emittedOper 'e' = some (.plain (.rel .eq)) := rfl
    have hterm := denotes_comparisonTerm hc m false (by decide) hlt
      (denotes_const Valuation.zero 8#4)
    rw [hnarrowed] at hterm
    exact hterm

theorem forty_not_compared : ¬ ComparesAs 'e' .eq forty 4 := by
  intro h
  obtain ⟨hverilog, hprint, -⟩ := eight_equals_forty fun _ => terminator
  have hval := (h (fun _ => terminator) false Valuation.zero (mkConst 8#4) 8#4
    (denotes_const _ _)).2
  rw [hprint, hverilog] at hval
  exact absurd hval (by decide)

end Conquest
