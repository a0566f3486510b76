import Conquest.Smt.Number

/-!
# Int64 — the integer of a constant

`get_int64_from_number` trims the bits above the highest one that differs from
the sign, keeps one of them, and cuts off at 64. A constant without a sign that
has no bit above its highest one keeps none.
-/

namespace Conquest

open Digits

/-! ## The function -/

/-- A constant of Icarus, the lowest digit first; widths are of 32 bits. -/
structure NumberExpr where
  bits : List Digit
  isSigned : Bool
  width_pos : 0 < bits.length
  width_lt : bits.length < 2 ^ 32

/-- The value, or why there is none: the digits that are left are too many, or an
undefined one is among them. -/
inductive Int64Result where
  | valid (value : BitVec 64)
  | tooLarge (trimWid : Nat)
  | undefined (resultType : Int)
  deriving DecidableEq, Repr

namespace Int64Result

/-- The `int64_t` that is returned. -/
def value : Int64Result → BitVec 64
  | valid value => value
  | _ => 0

/-- `*result_type`; a number of digits becomes an `int`. -/
def resultType : Int64Result → Int
  | valid _ => 0
  | tooLarge trimWid => (BitVec.ofNat 32 trimWid).toInt
  | undefined resultType => resultType

end Int64Result

/-- The loop that trims duplicate digits, from the index `trimWid`. -/
def trimLoop (msb : Digit) (bits : List Digit) : Nat → Nat
  | 0 => 0
  | trimWid + 1 =>
      if bits[trimWid + 1]? ≠ some msb then trimWid + 1 + 1 else trimLoop msb bits trimWid

/-- `trim_wid` after both corrections. -/
def trimWidth (msb : Digit) (bits : List Digit) : Nat :=
  let trimWid := trimLoop msb bits (bits.length - 1)
  if trimWid < bits.length then trimWid + 1 else trimWid

/-- The result type of an undefined digit. -/
def undefinedType (trimWid : Nat) (d : Digit) : Int :=
  if trimWid = 1 then if d = .x then -3 else -2 else -1

/-- The loop that builds the value. -/
def valueLoop (trimWid : Nat) : Nat → BitVec 64 → List Digit → Int64Result
  | _, value, [] => .valid value
  | idx, value, d :: ds =>
      if d = .one then valueLoop trimWid (idx + 1) (value ||| 1#64 <<< idx) ds
      else if d ≠ .zero then .undefined (undefinedType trimWid d)
      else valueLoop trimWid (idx + 1) value ds

/-- `msb`: the highest digit of a signed constant. -/
def msbDigit (bits : List Digit) (isSigned : Bool) : Digit :=
  if isSigned then bits.getLastD .zero else .zero

/-- The sign above the digits that are left. -/
def extendSign (msb : Digit) (isSigned : Bool) (trimWid : Nat) : Int64Result → Int64Result
  | .valid value =>
      if isSigned = true ∧ msb = .one ∧ trimWid < 64 then
        .valid (value ||| ~~~(1#64 <<< trimWid - 1#64))
      else .valid value
  | r => r

/-- `get_int64_from_number`. -/
def getInt64FromNumber (bits : List Digit) (isSigned : Bool) : Int64Result :=
  let msb := msbDigit bits isSigned
  let trimWid := trimWidth msb bits
  if 64 < trimWid then .tooLarge trimWid
  else extendSign msb isSigned trimWid (valueLoop trimWid 0 0#64 (bits.take trimWid))

/-! ## What it is for -/

namespace NumberExpr

/-- Two's complement of a signed constant, plain binary of another. -/
def value (n : NumberExpr) : Int :=
  if n.isSigned then (Digits.fill n.bits).toInt else toNat n.bits

def FitsInt64 (n : NumberExpr) : Prop := -2 ^ 63 ≤ n.value ∧ n.value < 2 ^ 63

/-- A valid result is the value, and a positive result type is of a value that does
not fit. -/
def Exact (n : NumberExpr) : Prop :=
  ((getInt64FromNumber n.bits n.isSigned).resultType = 0 →
      n.FitsInt64 ∧ (getInt64FromNumber n.bits n.isSigned).value.toInt = n.value) ∧
    (0 < (getInt64FromNumber n.bits n.isSigned).resultType → ¬ n.FitsInt64)

end NumberExpr

/-! ## Trimming -/

section Trim

variable {msb : Digit} {bits : List Digit}

theorem trimLoop_spec (msb : Digit) (bits : List Digit) (t : Nat) :
    (trimLoop msb bits t = 0 ∧ ∀ i, 0 < i → i ≤ t → bits[i]? = some msb) ∨
      ∃ s, 0 < s ∧ s ≤ t ∧ trimLoop msb bits t = s + 1 ∧ bits[s]? ≠ some msb ∧
        ∀ i, s < i → i ≤ t → bits[i]? = some msb := by
  induction t with
  | zero => exact .inl ⟨rfl, fun i hi hle => by omega⟩
  | succ t ih =>
      rw [trimLoop]
      split
      · rename_i hne
        exact .inr ⟨t + 1, by omega, le_rfl, rfl, hne, fun i hi hle => by omega⟩
      · rename_i heq
        rw [not_not] at heq
        rcases ih with ⟨hzero, hall⟩ | ⟨s, hpos, hle, hs, hne, hall⟩
        · refine .inl ⟨hzero, ?_⟩
          intro i hi hit
          rcases Nat.le_succ_iff.mp hit with hit | rfl
          · exact hall i hi hit
          · exact heq
        · refine .inr ⟨s, hpos, by omega, hs, hne, ?_⟩
          intro i hi hit
          rcases Nat.le_succ_iff.mp hit with hit | rfl
          · exact hall i hi hit
          · exact heq

/-- The digits from the index `t` on are the sign. -/
def Trimmed (msb : Digit) (bits : List Digit) (t : Nat) : Prop :=
  0 < t ∧ t ≤ bits.length ∧ ∀ i, t ≤ i → i < bits.length → bits[i]? = some msb

/-- One digit is left; or one sign is kept above the highest digit that differs; or
this is the highest of all. -/
theorem trimWidth_spec (msb : Digit) (hpos : 0 < bits.length) :
    Trimmed msb bits (trimWidth msb bits) ∧
      (trimWidth msb bits = 1 ∨
        (∃ s, trimWidth msb bits = s + 2 ∧ bits[s]? ≠ some msb ∧ bits[s + 1]? = some msb) ∨
        ∃ s, trimWidth msb bits = s + 1 ∧ bits.length = s + 1 ∧ bits[s]? ≠ some msb) := by
  unfold trimWidth
  rcases trimLoop_spec msb bits (bits.length - 1) with ⟨hzero, hall⟩ | ⟨s, hs, hle, htrim, hne, hall⟩
  · simp only [hzero, if_pos hpos]
    exact ⟨⟨by omega, by omega, fun i hi hlt => hall i (by omega) (by omega)⟩, .inl trivial⟩
  · simp only [htrim]
    split
    · rename_i hlt
      refine ⟨⟨by omega, by omega, fun i hi hlt => hall i (by omega) (by omega)⟩, ?_⟩
      exact .inr (.inl ⟨s, rfl, hne, hall (s + 1) (by omega) (by omega)⟩)
    · rename_i hge
      refine ⟨⟨by omega, by omega, fun i hi hlt => by omega⟩, ?_⟩
      exact .inr (.inr ⟨s, rfl, by omega, hne⟩)

end Trim

/-! ## The lowest digits -/

section Lowest

variable {bits : List Digit}

theorem toNat_take_lt (bits : List Digit) (t : Nat) : toNat (bits.take t) < 2 ^ t := by
  rw [toNat_take]
  exact Nat.mod_lt _ (by positivity)

/-- One more digit counts with its power. -/
theorem toNat_take_succ {d : Digit} {k : Nat} (h : bits[k]? = some d) :
    toNat (bits.take (k + 1)) = toNat (bits.take k) + 2 ^ k * d.fill.toNat := by
  have hbit : (toNat bits).testBit k = d.fill := by
    rw [testBit_toNat, List.getD_eq_getElem?_getD, List.getElem?_map, h]
    rfl
  rw [toNat_take, toNat_take, Nat.mod_pow_succ, ← Nat.toNat_testBit, hbit]

/-- Above a trimmed number all digits are the sign. -/
theorem toNat_of_trimmed {msb : Digit} {t : Nat} (h : Trimmed msb bits t) :
    toNat bits = toNat (bits.take t) + 2 ^ t * if msb.fill then 2 ^ (bits.length - t) - 1 else 0 := by
  obtain ⟨-, hle, hall⟩ := h
  have hdiv : toNat bits / 2 ^ t = if msb.fill then 2 ^ (bits.length - t) - 1 else 0 := by
    apply Nat.eq_of_testBit_eq
    intro j
    rw [Nat.testBit_div_two_pow, testBit_toNat, List.getD_eq_getElem?_getD, List.getElem?_map]
    by_cases hj : j < bits.length - t
    · rw [hall (j + t) (by omega) (by omega)]
      cases hmsb : msb.fill with
      | false => simp [hmsb]
      | true => simp [hmsb, hj]
    · rw [List.getElem?_eq_none (by omega)]
      cases hmsb : msb.fill with
      | false => simp
      | true => simp [hj]
  rw [toNat_take, ← hdiv]
  exact (Nat.mod_add_div _ _).symm

theorem known_take (h : Known bits) (t : Nat) : Known (bits.take t) :=
  fun d hd => h d (List.mem_of_mem_take hd)

/-- Of two defined digits that differ one is set. -/
theorem eq_zero_or_one {d : Digit} (h : d.bit?.isSome) : d = .zero ∨ d = .one := by
  cases d with
  | zero => exact .inl rfl
  | one => exact .inr rfl
  | x => cases h
  | z => cases h

end Lowest

/-! ## Building -/

section Build

theorem toNat_one_shiftLeft {idx : Nat} (h : idx < 64) : (1#64 <<< idx).toNat = 2 ^ idx := by
  have hpow : 2 ^ idx < 2 ^ 64 := Nat.pow_lt_pow_right (by omega) h
  rw [BitVec.toNat_shiftLeft, Nat.shiftLeft_eq]
  exact (congrArg (· % 2 ^ 64) (Nat.one_mul _)).trans (Nat.mod_eq_of_lt hpow)

theorem ofNat_or_shiftLeft {a idx : Nat} (ha : a < 2 ^ idx) (hidx : idx < 64) :
    BitVec.ofNat 64 a ||| 1#64 <<< idx = BitVec.ofNat 64 (a + 2 ^ idx) := by
  have hpow : 2 ^ (idx + 1) ≤ 2 ^ 64 := Nat.pow_le_pow_right (by omega) hidx
  have hsucc : 2 ^ (idx + 1) = 2 * 2 ^ idx := Nat.pow_succ'
  have hor : 2 ^ idx * 1 + a = 2 ^ idx * 1 ||| a := Nat.two_pow_add_eq_or_of_lt ha 1
  apply BitVec.eq_of_toNat_eq
  rw [BitVec.toNat_or, toNat_one_shiftLeft hidx, BitVec.toNat_ofNat, BitVec.toNat_ofNat, Nat.mod_eq_of_lt (by omega),
    Nat.mod_eq_of_lt (by omega), Nat.or_comm]
  rw [Nat.mul_one] at hor
  rw [← hor, Nat.add_comm]

/-- Defined digits build their number, above the digits so far. -/
theorem valueLoop_known (trimWid : Nat) {ds : List Digit} (h : Known ds) (idx : Nat) {a : Nat}
    (ha : a < 2 ^ idx) (hidx : idx + ds.length ≤ 64) :
    valueLoop trimWid idx (BitVec.ofNat 64 a) ds =
      .valid (BitVec.ofNat 64 (a + 2 ^ idx * toNat ds)) := by
  induction ds generalizing idx a with
  | nil => simp [valueLoop, Digits.toNat]
  | cons d ds ih =>
      obtain ⟨hd, hds⟩ := List.forall_mem_cons.mp h
      rw [List.length_cons] at hidx
      have hsucc : 2 ^ (idx + 1) = 2 * 2 ^ idx := Nat.pow_succ'
      have hcons : toNat (d :: ds) = 2 * toNat ds + d.fill.toNat := rfl
      rw [valueLoop, hcons]
      rcases eq_zero_or_one hd with rfl | rfl
      · have hnumber : a + 2 ^ (idx + 1) * toNat ds =
            a + 2 ^ idx * (2 * toNat ds + Digit.zero.fill.toNat) := by
          simp only [Digit.fill, Digit.bit?, Option.getD_some, Bool.toNat_false]
          ring
        rw [if_neg (by decide), if_neg (by decide), ih hds _ (by omega) (by omega), hnumber]
      · have hnumber : a + 2 ^ idx + 2 ^ (idx + 1) * toNat ds =
            a + 2 ^ idx * (2 * toNat ds + Digit.one.fill.toNat) := by
          simp only [Digit.fill, Digit.bit?, Option.getD_some, Bool.toNat_true]
          ring
        rw [if_pos rfl, ofNat_or_shiftLeft ha (by omega), ih hds _ (by omega) (by omega), hnumber]

theorem known_of_valueLoop {trimWid : Nat} {ds : List Digit} {idx : Nat}
    {value value' : BitVec 64} (h : valueLoop trimWid idx value ds = .valid value') : Known ds := by
  induction ds generalizing idx value with
  | nil =>
      intro d hd
      cases hd
  | cons d ds ih =>
      rw [valueLoop] at h
      split at h
      · rename_i hone
        exact List.forall_mem_cons.mpr ⟨by rw [hone]; rfl, ih h⟩
      · split at h
        · cases h
        · rename_i hzero
          rw [not_not] at hzero
          exact List.forall_mem_cons.mpr ⟨by rw [hzero]; rfl, ih h⟩

/-- Sign extension from `t` digits. -/
theorem toInt_signExtend {a t : Nat} (ha : a < 2 ^ t) (ht : t < 64) :
    (BitVec.ofNat 64 a ||| ~~~(1#64 <<< t - 1#64)).toInt = (a : Int) - (2 ^ t : Nat) := by
  have hpow : 2 ^ (t + 1) ≤ 2 ^ 64 := Nat.pow_le_pow_right (by omega) ht
  have hsucc : 2 ^ (t + 1) = 2 * 2 ^ t := Nat.pow_succ'
  have hpos : 0 < 2 ^ t := by positivity
  have hsplit : 2 ^ t * (2 ^ (64 - t) - 1) = 2 ^ 64 - 2 ^ t := by
    rw [Nat.mul_sub, ← Nat.pow_add, Nat.add_sub_cancel' (by omega), Nat.mul_one]
  have hmask : (~~~(1#64 <<< t - 1#64)).toNat = 2 ^ t * (2 ^ (64 - t) - 1) := by
    have hle : 1#64 ≤ 1#64 <<< t := by
      rw [BitVec.le_def, toNat_one_shiftLeft ht]
      exact hpos
    rw [BitVec.toNat_not, BitVec.toNat_sub_of_le hle, toNat_one_shiftLeft ht, hsplit]
    have hone : (1#64).toNat = 1 := rfl
    omega
  have hor := Nat.two_pow_add_eq_or_of_lt ha (2 ^ (64 - t) - 1)
  rw [BitVec.toInt_eq_toNat_cond, BitVec.toNat_or, hmask, BitVec.toNat_ofNat,
    Nat.mod_eq_of_lt (by omega), Nat.or_comm, ← hor, hsplit]
  split
  · omega
  · omega

/-- Sixty-four bits are the number that they make unless the highest is set. -/
theorem toInt_ofNat {k : Nat} (hk : k < 2 ^ 64) :
    (BitVec.ofNat 64 k).toInt = if k < 2 ^ 63 then (k : Int) else (k : Int) - (2 ^ 64 : Nat) := by
  rw [BitVec.toInt_eq_toNat_cond, BitVec.toNat_ofNat, Nat.mod_eq_of_lt hk]
  split
  · rw [if_pos (by omega)]
  · rw [if_neg (by omega)]

end Build

/-! ## The result -/

section Result

/-- The number of digits that are left. -/
def keptWidth (bits : List Digit) (isSigned : Bool) : Nat := trimWidth (msbDigit bits isSigned) bits

/-- The number that they make. -/
def keptNumber (bits : List Digit) (isSigned : Bool) : Nat :=
  toNat (bits.take (keptWidth bits isSigned))

variable {bits : List Digit} {isSigned : Bool}

theorem keptNumber_lt (bits : List Digit) (isSigned : Bool) :
    keptNumber bits isSigned < 2 ^ keptWidth bits isSigned := toNat_take_lt _ _

theorem getInt64FromNumber_eq (bits : List Digit) (isSigned : Bool) :
    getInt64FromNumber bits isSigned =
      if 64 < keptWidth bits isSigned then .tooLarge (keptWidth bits isSigned)
      else
        extendSign (msbDigit bits isSigned) isSigned (keptWidth bits isSigned)
          (valueLoop (keptWidth bits isSigned) 0 0#64 (bits.take (keptWidth bits isSigned))) := rfl

theorem signed_of_msbDigit (h : msbDigit bits isSigned = .one) : isSigned = true := by
  by_contra hsigned
  rw [msbDigit, if_neg hsigned] at h
  cases h

/-- Up to 64 digits that are defined make the result. -/
theorem getInt64FromNumber_of_known (hle : keptWidth bits isSigned ≤ 64)
    (hknown : Known (bits.take (keptWidth bits isSigned))) :
    getInt64FromNumber bits isSigned =
      if msbDigit bits isSigned = .one ∧ keptWidth bits isSigned < 64 then
        .valid (BitVec.ofNat 64 (keptNumber bits isSigned) |||
          ~~~(1#64 <<< keptWidth bits isSigned - 1#64))
      else .valid (BitVec.ofNat 64 (keptNumber bits isSigned)) := by
  have hloop := valueLoop_known (keptWidth bits isSigned) hknown 0 (a := 0) (by omega)
    (by rw [List.length_take]; omega)
  rw [Nat.pow_zero, Nat.zero_add, Nat.one_mul] at hloop
  have hsigned : isSigned = true ∧ msbDigit bits isSigned = .one ∧ keptWidth bits isSigned < 64 ↔
      msbDigit bits isSigned = .one ∧ keptWidth bits isSigned < 64 :=
    and_iff_right_of_imp fun h => signed_of_msbDigit h.1
  rw [getInt64FromNumber_eq, if_neg (Nat.not_lt.mpr hle), hloop, extendSign, keptNumber]
  simp only [hsigned]

/-- A valid result has at most 64 digits, all of them defined. -/
theorem known_of_valid {value : BitVec 64} (h : getInt64FromNumber bits isSigned = .valid value) :
    keptWidth bits isSigned ≤ 64 ∧ Known (bits.take (keptWidth bits isSigned)) := by
  rw [getInt64FromNumber_eq] at h
  split at h
  · cases h
  · rename_i hle
    refine ⟨Nat.le_of_not_lt hle, ?_⟩
    cases hloop : valueLoop (keptWidth bits isSigned) 0 0#64
        (bits.take (keptWidth bits isSigned)) with
    | valid value' => exact known_of_valueLoop hloop
    | tooLarge trimWid =>
        rw [hloop] at h
        cases h
    | undefined resultType =>
        rw [hloop] at h
        cases h

/-- The result as an integer. -/
theorem toInt_getInt64FromNumber (hle : keptWidth bits isSigned ≤ 64)
    (hknown : Known (bits.take (keptWidth bits isSigned))) :
    ∃ value, getInt64FromNumber bits isSigned = .valid value ∧
      value.toInt =
        if msbDigit bits isSigned = .one ∧ keptWidth bits isSigned < 64 then
          (keptNumber bits isSigned : Int) - (2 ^ keptWidth bits isSigned : Nat)
        else (BitVec.ofNat 64 (keptNumber bits isSigned)).toInt := by
  rw [getInt64FromNumber_of_known hle hknown]
  split
  · rename_i h
    exact ⟨_, rfl, toInt_signExtend (keptNumber_lt bits isSigned) h.2⟩
  · exact ⟨_, rfl, rfl⟩

theorem msbDigit_last (hpos : 0 < bits.length) (h : isSigned = true) :
    bits[bits.length - 1]? = some (msbDigit bits isSigned) := by
  have hne : bits ≠ [] := List.ne_nil_of_length_pos hpos
  rw [msbDigit, if_pos h, List.getLastD_eq_getLast?, ← List.getLast?_eq_getElem?,
    List.getLast?_eq_some_getLast hne]
  rfl

theorem fill_eq_true_iff {d : Digit} : d.fill = true ↔ d = .one := by cases d <;> decide

/-- The number of a constant is that of the digits that are left, but for the sign. -/
theorem toNat_eq_keptNumber (isSigned : Bool) (hpos : 0 < bits.length) :
    toNat bits + (if msbDigit bits isSigned = .one then 2 ^ keptWidth bits isSigned else 0) =
      keptNumber bits isSigned + if msbDigit bits isSigned = .one then 2 ^ bits.length else 0 := by
  have htrimmed : Trimmed (msbDigit bits isSigned) bits (keptWidth bits isSigned) :=
    (trimWidth_spec (msbDigit bits isSigned) hpos).1
  have hsplit : 2 ^ keptWidth bits isSigned * 2 ^ (bits.length - keptWidth bits isSigned) =
      2 ^ bits.length := by
    rw [← Nat.pow_add, Nat.add_sub_cancel' htrimmed.2.1]
  have hle : 2 ^ keptWidth bits isSigned ≤ 2 ^ bits.length :=
    Nat.pow_le_pow_right (by omega) htrimmed.2.1
  rw [toNat_of_trimmed htrimmed, keptNumber]
  simp only [fill_eq_true_iff]
  split
  · rw [Nat.mul_sub, hsplit, Nat.mul_one]
    omega
  · omega

/-- The last two of the digits that are left. -/
theorem keptNumber_of_last {s : Nat} {d e : Digit} (hs : keptWidth bits isSigned = s + 2)
    (hd : bits[s]? = some d) (he : bits[s + 1]? = some e) :
    keptNumber bits isSigned =
      toNat (bits.take s) + 2 ^ s * d.fill.toNat + 2 ^ (s + 1) * e.fill.toNat := by
  rw [keptNumber, hs, toNat_take_succ he, toNat_take_succ hd]

/-- A valid result that is not negative is the number of the digits. -/
theorem toNat_of_valid {value : BitVec 64} (h : getInt64FromNumber bits isSigned = .valid value)
    {i : Nat} (hi : value.toInt = i) : toNat bits = i := by
  obtain ⟨hle, hknown⟩ := known_of_valid h
  obtain ⟨value', hvalid, hint⟩ := toInt_getInt64FromNumber hle hknown
  obtain rfl := Int64Result.valid.inj (hvalid.symm.trans h)
  have hlt := keptNumber_lt bits isSigned
  have hpow : 2 ^ keptWidth bits isSigned ≤ 2 ^ 64 := Nat.pow_le_pow_right (by omega) hle
  rcases Nat.eq_zero_or_pos bits.length with hnil | hpos
  · obtain rfl := List.length_eq_zero_iff.mp hnil
    have hzero : value'.toInt = 0 := by
      cases isSigned <;> exact congrArg BitVec.toInt (Int64Result.valid.inj hvalid).symm
    have hnat : toNat [] = 0 := rfl
    omega
  · have hkept := toNat_eq_keptNumber isSigned hpos
    by_cases hm : msbDigit bits isSigned = .one
    · -- a sign that is set makes the result negative
      exfalso
      rcases Nat.lt_or_eq_of_le hle with hshort | hfull
      · rw [if_pos ⟨hm, hshort⟩] at hint
        omega
      · rw [if_neg (by omega), toInt_ofNat (by omega)] at hint
        have hsigned := signed_of_msbDigit hm
        have htop : keptNumber bits isSigned =
            toNat (bits.take 63) + 2 ^ 63 * (msbDigit bits isSigned).fill.toNat := by
          obtain ⟨-, hone | ⟨s, hs, hne, hlast⟩ | ⟨s, hs, hlength, hne⟩⟩ :=
            trimWidth_spec (msbDigit bits isSigned) hpos
          · exact absurd (hfull.symm.trans hone) (by decide)
          · obtain rfl : s = 62 := by
              have hwidth := hfull.symm.trans hs
              omega
            rw [keptNumber, hfull, toNat_take_succ hlast]
          · have hlast := msbDigit_last hpos hsigned
            rw [hlength] at hlast
            exact absurd hlast hne
        have hone : (msbDigit bits isSigned).fill.toNat = 1 := by
          rw [hm]
          rfl
        rw [hone] at htop
        rw [if_neg (by omega)] at hint
        omega
    · have hnot : ¬ (msbDigit bits isSigned = .one ∧ keptWidth bits isSigned < 64) :=
        fun hall => hm hall.1
      rw [if_neg hnot, toInt_ofNat (by omega)] at hint
      rw [if_neg hm, if_neg hm] at hkept
      split at hint
      · omega
      · omega

/-- The result of defined bits without a sign. -/
theorem getInt64FromNumber_unsigned (hpos : 0 < bits.length) (hlength : bits.length ≤ 64)
    (hknown : Known bits) :
    getInt64FromNumber bits false = .valid (BitVec.ofNat 64 (toNat bits)) := by
  have hle : keptWidth bits false ≤ bits.length :=
    (trimWidth_spec (msbDigit bits false) hpos).1.2.1
  have hkept := toNat_eq_keptNumber false hpos
  have hm : msbDigit bits false ≠ .one := by
    show Digit.zero ≠ .one
    decide
  rw [if_neg hm, if_neg hm] at hkept
  rw [getInt64FromNumber_of_known (hle.trans hlength) (known_take hknown _),
    if_neg (fun hall => hm hall.1)]
  have heq : keptNumber bits false = toNat bits := by omega
  rw [heq]

end Result

/-! ## Where it is exact -/

namespace NumberExpr

variable {n : NumberExpr}

theorem msbDigit_known (hknown : Known n.bits) :
    msbDigit n.bits n.isSigned = .zero ∨ msbDigit n.bits n.isSigned = .one := by
  cases hsigned : n.isSigned with
  | false => exact .inl rfl
  | true =>
      have hlast := msbDigit_last n.width_pos hsigned
      rw [hsigned] at hlast
      exact eq_zero_or_one (hknown _ (List.mem_of_getElem? hlast))

/-- The value is the number of the digits that are left, with the sign. -/
theorem value_eq (n : NumberExpr) :
    n.value = (keptNumber n.bits n.isSigned : Int) -
      if msbDigit n.bits n.isSigned = .one then ((2 ^ keptWidth n.bits n.isSigned : Nat) : Int)
      else 0 := by
  have hkept := toNat_eq_keptNumber n.isSigned n.width_pos
  unfold value
  cases hsigned : n.isSigned with
  | false =>
      rw [hsigned] at hkept
      simp only [msbDigit, Bool.false_eq_true, if_false, reduceCtorEq] at hkept ⊢
      omega
  | true =>
      have hmsb : (Digits.fill n.bits).msb = true ↔ msbDigit n.bits true = .one := by
        have hlast := msbDigit_last n.width_pos hsigned
        rw [hsigned] at hlast
        rw [BitVec.msb_eq_getLsbD_last, Digits.fill, BitVec.getLsbD_ofNat, testBit_toNat,
          List.getD_eq_getElem?_getD, List.getElem?_map, hlast]
        have hpos := n.width_pos
        simp [fill_eq_true_iff, hpos]
      have hfill : (Digits.fill n.bits).toNat = toNat n.bits := by
        rw [Digits.fill, BitVec.toNat_ofNat, Nat.mod_eq_of_lt (toNat_lt n.bits)]
      rw [hsigned] at hkept
      rw [if_pos rfl, BitVec.toInt_eq_msb_cond, hfill]
      simp only [hmsb]
      split at hkept
      · rename_i hone
        rw [if_pos hone, if_pos hone]
        omega
      · rename_i hone
        rw [if_neg hone, if_neg hone]
        omega

theorem value_of_zero (hm : msbDigit n.bits n.isSigned = .zero) :
    n.value = (keptNumber n.bits n.isSigned : Int) := by
  rw [value_eq, hm]
  exact Int.sub_zero _

theorem value_of_one (hm : msbDigit n.bits n.isSigned = .one) :
    n.value = (keptNumber n.bits n.isSigned : Int) - (2 ^ keptWidth n.bits n.isSigned : Nat) := by
  rw [value_eq, if_pos hm]

theorem exact_iff_of_valid {value : BitVec 64}
    (h : getInt64FromNumber n.bits n.isSigned = .valid value) :
    n.Exact ↔ value.toInt = n.value := by
  have hlow := value.le_toInt
  have hhigh := value.toInt_lt
  unfold Exact FitsInt64
  rw [h]
  simp only [Int64Result.resultType, Int64Result.value, forall_const, lt_irrefl, false_implies,
    and_true]
  constructor
  · exact fun hall => hall.2
  · intro heq
    refine ⟨⟨?_, ?_⟩, heq⟩
    · rw [← heq]
      exact hlow
    · rw [← heq]
      exact hhigh

/-- What is left after the trimming: one digit; or a sign above a digit that differs from
it; or all digits of a constant without a sign, the highest set. -/
theorem keptWidth_cases (hknown : Known n.bits) :
    keptWidth n.bits n.isSigned = 1 ∨
      (∃ s d, keptWidth n.bits n.isSigned = s + 2 ∧ n.bits[s]? = some d ∧
        n.bits[s + 1]? = some (msbDigit n.bits n.isSigned) ∧
        d.fill = !(msbDigit n.bits n.isSigned).fill) ∨
      (keptWidth n.bits n.isSigned = n.bits.length ∧ n.isSigned = false ∧
        n.bits[n.bits.length - 1]? = some .one) := by
  have hother : ∀ s, s < n.bits.length → n.bits[s]? ≠ some (msbDigit n.bits n.isSigned) →
      ∃ d, n.bits[s]? = some d ∧ d.fill = !(msbDigit n.bits n.isSigned).fill := by
    intro s hlt hne
    have hs : n.bits[s]? = some n.bits[s] := List.getElem?_eq_getElem hlt
    refine ⟨n.bits[s], hs, ?_⟩
    rw [hs] at hne
    rcases eq_zero_or_one (hknown _ (List.getElem_mem hlt)) with hd | hd
    · rcases msbDigit_known hknown with hm | hm
      · exact absurd (congrArg some (hd.trans hm.symm)) hne
      · rw [hd, hm]
        rfl
    · rcases msbDigit_known hknown with hm | hm
      · rw [hd, hm]
        rfl
      · exact absurd (congrArg some (hd.trans hm.symm)) hne
  obtain ⟨htrimmed, hone | ⟨s, hs, hne, hlast⟩ | ⟨s, hs, hlength, hne⟩⟩ :=
    trimWidth_spec (msbDigit n.bits n.isSigned) n.width_pos
  · exact .inl hone
  · obtain ⟨d, hd, hfill⟩ := hother s (by have := htrimmed.2.1; omega) hne
    exact .inr (.inl ⟨s, d, hs, hd, hlast, hfill⟩)
  · -- with a sign the highest digit is the sign, and would have been trimmed
    have hsigned : n.isSigned = false := by
      by_contra hsigned
      have hmsb := msbDigit_last n.width_pos (Bool.eq_true_of_not_eq_false hsigned)
      rw [hlength] at hmsb
      exact hne hmsb
    obtain ⟨d, hd, hfill⟩ := hother s (by omega) hne
    rw [hsigned] at hfill
    obtain rfl := fill_eq_true_iff.mp hfill
    rw [← hlength] at hs
    refine .inr (.inr ⟨hs, hsigned, ?_⟩)
    rw [hlength]
    exact hd

/-- The digits that are left, with the last two set apart. -/
theorem keptNumber_eq {s : Nat} {d : Digit} (hs : keptWidth n.bits n.isSigned = s + 2)
    (hd : n.bits[s]? = some d) (hlast : n.bits[s + 1]? = some (msbDigit n.bits n.isSigned))
    (hfill : d.fill = !(msbDigit n.bits n.isSigned).fill) :
    keptNumber n.bits n.isSigned = toNat (n.bits.take s) +
      if msbDigit n.bits n.isSigned = .one then 2 ^ (s + 1) else 2 ^ s := by
  rw [keptNumber_of_last hs hd hlast, hfill]
  split
  · rename_i hm
    simp [hm, Digit.fill, Digit.bit?]
  · rename_i hm
    have hzero : (msbDigit n.bits n.isSigned).fill = false := by
      rw [← Bool.not_eq_true, fill_eq_true_iff]
      exact hm
    simp [hzero]

theorem keptNumber_of_full (hall : keptWidth n.bits n.isSigned = n.bits.length)
    (hlast : n.bits[n.bits.length - 1]? = some .one) :
    keptNumber n.bits n.isSigned =
      toNat (n.bits.take (n.bits.length - 1)) + 2 ^ (n.bits.length - 1) := by
  have hpos := n.width_pos
  have hwidth : keptWidth n.bits n.isSigned = n.bits.length - 1 + 1 := by omega
  rw [keptNumber, hwidth, toNat_take_succ hlast]
  exact congrArg _ (Nat.mul_one _)

/-- More digits than 64 are of a value that does not fit. -/
theorem not_fitsInt64_of_gt (hknown : Known n.bits) (h : 64 < keptWidth n.bits n.isSigned) :
    ¬ n.FitsInt64 := by
  unfold FitsInt64
  rcases keptWidth_cases hknown with hone | ⟨s, d, hs, hd, hlast, hfill⟩ | ⟨hall, hsigned, hlast⟩
  · omega
  · have hkept := keptNumber_eq hs hd hlast hfill
    have hlow := toNat_take_lt n.bits s
    have hpow : 2 ^ 63 ≤ 2 ^ s := Nat.pow_le_pow_right (by omega) (by omega)
    have hsucc : 2 ^ (s + 1) = 2 * 2 ^ s := Nat.pow_succ'
    have hsucc' : 2 ^ (s + 2) = 2 * 2 ^ (s + 1) := Nat.pow_succ'
    -- the last digit that is not the sign is at `s`, above bit 62
    rcases msbDigit_known hknown with hm | hm
    · rw [hm, if_neg (by decide)] at hkept
      rw [value_of_zero hm]
      omega
    · rw [if_pos hm] at hkept
      rw [value_of_one hm, hs]
      omega
  · have hmsb : msbDigit n.bits n.isSigned = .zero := by
      rw [hsigned]
      rfl
    have hkept := keptNumber_of_full hall hlast
    have hpow : 2 ^ 63 ≤ 2 ^ (n.bits.length - 1) := Nat.pow_le_pow_right (by omega) (by omega)
    rw [value_of_zero hmsb]
    omega

/-- The top bit of a full width without a sign. -/
def TopBitSet (n : NumberExpr) : Prop :=
  n.isSigned = false ∧ n.bits.length = 64 ∧ n.bits.getLast? = some .one

theorem exact_of_gt (hknown : Known n.bits) (h : 64 < keptWidth n.bits n.isSigned) :
    n.Exact ∧ ¬ n.TopBitSet := by
  have hle : keptWidth n.bits n.isSigned ≤ n.bits.length :=
    (trimWidth_spec (msbDigit n.bits n.isSigned) n.width_pos).1.2.1
  have hlt := n.width_lt
  constructor
  · unfold Exact
    rw [getInt64FromNumber_eq, if_pos h]
    refine ⟨?_, fun _ => not_fitsInt64_of_gt hknown h⟩
    intro hzero
    have hbits : BitVec.ofNat 32 (keptWidth n.bits n.isSigned) = 0#32 := BitVec.toInt_inj.mp hzero
    have hmod := congrArg BitVec.toNat hbits
    rw [BitVec.toNat_ofNat, BitVec.toNat_ofNat] at hmod
    omega
  · rintro ⟨-, hlength, -⟩
    omega

/-- A signed constant of at most 64 digits that are left. -/
theorem exact_of_one (hknown : Known n.bits) (hle : keptWidth n.bits n.isSigned ≤ 64)
    (hm : msbDigit n.bits n.isSigned = .one) : n.Exact := by
  obtain ⟨value, hvalid, hint⟩ := toInt_getInt64FromNumber hle (known_take hknown _)
  rw [exact_iff_of_valid hvalid, hint, value_of_one hm]
  have hlt := keptNumber_lt n.bits n.isSigned
  rcases Nat.lt_or_eq_of_le hle with hshort | hfull
  · rw [if_pos ⟨hm, hshort⟩]
  · rw [if_neg (by omega), toInt_ofNat (hfull ▸ hlt), hfull]
    rcases keptWidth_cases hknown with hone | ⟨s, d, hs, hd, hlast, hfill⟩ | ⟨-, hsigned, -⟩
    · omega
    · have hkept := keptNumber_eq hs hd hlast hfill
      obtain rfl : s = 62 := by omega
      rw [if_pos hm] at hkept
      rw [if_neg (by omega)]
    · rw [signed_of_msbDigit hm] at hsigned
      cases hsigned

/-- A constant without a sign, or with a zero for it. -/
theorem exact_iff_of_zero (hknown : Known n.bits) (hle : keptWidth n.bits n.isSigned ≤ 64)
    (hm : msbDigit n.bits n.isSigned = .zero) :
    n.Exact ↔ keptNumber n.bits n.isSigned < 2 ^ 63 := by
  obtain ⟨value, hvalid, hint⟩ := toInt_getInt64FromNumber hle (known_take hknown _)
  have hlt := keptNumber_lt n.bits n.isSigned
  have hpow : 2 ^ keptWidth n.bits n.isSigned ≤ 2 ^ 64 := Nat.pow_le_pow_right (by omega) hle
  have hnot : ¬ (msbDigit n.bits n.isSigned = .one ∧ keptWidth n.bits n.isSigned < 64) := by
    rw [hm]
    rintro ⟨h, -⟩
    cases h
  rw [exact_iff_of_valid hvalid, hint, value_of_zero hm, if_neg hnot, toInt_ofNat (by omega)]
  split
  · rename_i hsmall
    exact iff_of_true rfl hsmall
  · rename_i hlarge
    exact iff_of_false (by omega) hlarge

/-- Where a digit was trimmed or kept for the sign, the highest digit is the sign. -/
theorem not_topBitSet {t : Nat} (ht : t < n.bits.length)
    (hall : ∀ i, t ≤ i → i < n.bits.length → n.bits[i]? = some .zero) : ¬ n.TopBitSet := by
  rintro ⟨-, -, hlast⟩
  rw [List.getLast?_eq_getElem?, hall _ (by omega) (by omega)] at hlast
  cases hlast

/-- **Exact integers.** Of defined bits the result is exact unless they are 64 without
a sign, the highest set. -/
theorem exact_iff_not_topBitSet (n : NumberExpr) (hknown : Known n.bits) : n.Exact ↔ ¬ n.TopBitSet := by
  rcases Nat.lt_or_ge 64 (keptWidth n.bits n.isSigned) with hgt | hle
  · obtain ⟨hexact, htop⟩ := exact_of_gt hknown hgt
    exact iff_of_true hexact htop
  · rcases msbDigit_known hknown with hm | hm
    · -- no sign: what matters is whether the digits left are below `2 ^ 63`
      rw [exact_iff_of_zero hknown hle hm]
      have hlt := keptNumber_lt n.bits n.isSigned
      have htrimmed : Trimmed (msbDigit n.bits n.isSigned) n.bits (keptWidth n.bits n.isSigned) :=
        (trimWidth_spec (msbDigit n.bits n.isSigned) n.width_pos).1
      rw [hm] at htrimmed
      obtain ⟨-, hlength, hall⟩ := htrimmed
      rcases keptWidth_cases hknown with hone | ⟨s, d, hs, hd, hlast, hfill⟩ | ⟨hwidth, hsigned, hlast⟩
      · refine iff_of_true (by rw [hone] at hlt; omega) ?_
        rcases Nat.lt_or_eq_of_le hlength with hmore | heq
        · exact not_topBitSet hmore hall
        · rintro ⟨-, hfull, -⟩
          omega
      · have hkept := keptNumber_eq hs hd hlast hfill
        have hlow := toNat_take_lt n.bits s
        have hpow : 2 ^ (s + 1) ≤ 2 ^ 63 := Nat.pow_le_pow_right (by omega) (by omega)
        have hsucc : 2 ^ (s + 1) = 2 * 2 ^ s := Nat.pow_succ'
        rw [hm, if_neg (by decide)] at hkept
        -- a zero was kept above the set digit, so the highest of all is zero
        refine iff_of_true (by omega) (not_topBitSet (t := s + 1) (by omega) ?_)
        intro i hi hlt
        rcases Nat.lt_or_eq_of_le hi with hi | rfl
        · exact hall i (by omega) hlt
        · rw [hlast, hm]
      · have hkept := keptNumber_of_full hwidth hlast
        rw [hwidth] at hlt hle
        rcases Nat.lt_or_eq_of_le hle with hless | hfull
        · have hpow : 2 ^ n.bits.length ≤ 2 ^ 63 := Nat.pow_le_pow_right (by omega) (by omega)
          refine iff_of_true (by omega) ?_
          rintro ⟨-, hfull, -⟩
          omega
        · -- 64 digits without a sign, none trimmed: the defect
          rw [hfull] at hkept
          refine iff_of_false (by omega) (not_not.mpr ⟨hsigned, hfull, ?_⟩)
          rw [List.getLast?_eq_getElem?]
          exact hlast
    · refine iff_of_true (exact_of_one hknown hle hm) ?_
      rintro ⟨hsigned, -, -⟩
      rw [signed_of_msbDigit hm] at hsigned
      cases hsigned

/-- `64'h8000000000000000`. -/
def twoPow63 : NumberExpr where
  bits := List.replicate 63 .zero ++ [.one]
  isSigned := false
  width_pos := by decide
  width_lt := by decide

theorem exact_counterexample : ¬ ∀ n : NumberExpr, Known n.bits → n.Exact := by
  intro h
  have hknown : Known twoPow63.bits := by
    unfold Known
    decide
  have hvalid := (h twoPow63 hknown).1 (by decide)
  revert hvalid
  unfold FitsInt64
  decide +kernel

/-- `-2` in 65 bits. -/
def minusTwo : NumberExpr where
  bits := .zero :: List.replicate 64 .one
  isSigned := true
  width_pos := by decide
  width_lt := by decide

theorem exact_iff_minusTwo : minusTwo.Exact ↔ ¬ minusTwo.TopBitSet :=
  exact_iff_not_topBitSet minusTwo (by unfold Known; decide)

end NumberExpr

end Conquest
