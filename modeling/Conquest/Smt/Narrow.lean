import Conquest.Smt.Number

/-!
# Narrow — constants next to narrower signals

Icarus gives most constants 32 bits. Where one stands next to a signal, in five
places, it is cut to the signal's width: `_left` copies the lowest characters
of its string, and the constructor of `SMTNumber` reads as many as the signal is
wide. Four of the places copy as many characters as are cut off, not as many as
are read. What a copy leaves unread is no matter, but what is read after its end
is the terminator and the memory behind it.
-/

namespace Conquest

open Bv Digits Text

/-! ## Strings -/

/-- The memory behind the terminators of the strings. -/
abbrev Memory := Nat → Char

def terminator : Char := Char.ofNat 0

/-- `s[i]`. -/
def charAt (m : Memory) (s : Line) (i : Nat) : Char :=
  if h : i < s.length then s.get ⟨i, h⟩ else if i = s.length then terminator else m i

/-- `_left`, up to the terminator of the copy. -/
def left (s : Line) (n : Nat) : Line := s.take n

/-- The characters of a constant, the lowest first: `ivl_expr_bits`. -/
def ivlExprBits (bits : List Digit) : Line := bits.map digitChar

/-! ## `SMTNumber` -/

/-- The fields of an `SMTNumber` that the constructor sets; the width is the
number of digits. -/
structure NumberFields extends SMTNumber where
  isSigned : Bool
  hasUndef : Bool
  deriving DecidableEq, Repr

/-- `SMTNumber::SMTNumber`, which reads `bitWidth` characters of a string. -/
def NumberFields.new (m : Memory) (bits : Line) (bitWidth : Nat) (isSigned : Bool) :
    NumberFields where
  valueBin := (List.range bitWidth).reverse.map fun i =>
    if charAt m bits i ≠ '0' ∧ charAt m bits i ≠ '1' then '0' else charAt m bits i
  isSigned := isSigned
  hasUndef := (List.range bitWidth).any fun i =>
    charAt m bits i ≠ '0' ∧ charAt m bits i ≠ '1'

/-! ## The places -/

/-- The number for a constant next to a signal of `width` bits: the constant is
cut off, taken as it is, or emitted by itself. -/
def emitConstant (leftLength : Nat → Nat → Nat) (m : Memory) (bits : Line) (width : Nat)
    (sigSigned constSigned : Bool) : NumberFields :=
  if bits.length > width then
    .new m (left bits (leftLength bits.length width)) width sigSigned
  else if bits.length = width then .new m bits width sigSigned
  else .new m bits bits.length constSigned

/-- `emit_expr_binary`, the cases of `+`, `-`, `*`, `/` and `%`. -/
def emitArithmetic := emitConstant fun n width => n - width

/-- `emit_expr_binary`, the cases of the comparisons, `&&` and `||`. -/
def emitComparison := emitConstant fun n width => n - width

/-- `emit_expr_binary`, the case of `**`. -/
def emitPower := emitConstant fun n width => n - width

/-- `emit_assign_and_opt_opcode`. -/
def emitAssignAndOptOpcode := emitConstant fun _ width => width

/-- `emit_stmt_assign_nb`. -/
def emitStmtAssignNb := emitConstant fun n width => n - width

/-- The places that narrow constants. -/
inductive Place where
  | arithmetic | comparison | power | blocking | nonBlocking
  deriving DecidableEq, Repr

/-- The place with its source. -/
def Place.emit : Place → Memory → Line → Nat → Bool → Bool → NumberFields
  | .arithmetic => emitArithmetic
  | .comparison => emitComparison
  | .power => emitPower
  | .blocking => emitAssignAndOptOpcode
  | .nonBlocking => emitStmtAssignNb

/-- The second argument of `_left`. -/
def Place.leftLength : Place → Nat → Nat → Nat
  | .blocking, _, width => width
  | _, n, width => n - width

theorem Place.emit_eq (p : Place) : p.emit = emitConstant p.leftLength := by
  cases p <;> rfl

section Reads

variable {m : Memory} {s : Line} {bits : List Digit} {w : Nat}

theorem charAt_of_lt {i : Nat} (h : i < s.length) : charAt m s i = s[i] := dif_pos h

theorem charAt_length : charAt m s s.length = terminator := by
  unfold charAt
  rw [dif_neg (Nat.lt_irrefl _), if_pos rfl]

theorem charAt_of_gt {i : Nat} (h : s.length < i) : charAt m s i = m i := by
  unfold charAt
  rw [dif_neg (by omega), if_neg (by omega)]

theorem length_left (s : Line) (n : Nat) : (left s n).length = min n s.length := List.length_take

theorem length_ivlExprBits (bits : List Digit) : (ivlExprBits bits).length = bits.length :=
  List.length_map _

/-- Within its length a copy has the characters of the string. -/
theorem charAt_left {n i : Nat} (hn : i < n) (hs : i < s.length) :
    charAt m (left s n) i = s[i] := by
  have hi : i < (left s n).length := by
    rw [length_left]
    omega
  rw [charAt_of_lt hi]
  exact List.getElem_take

/-- The constructor depends on the characters that it reads. -/
theorem NumberFields.new_congr {m' : Memory} {s' : Line} (isSigned : Bool)
    (h : ∀ i < w, charAt m s i = charAt m' s' i) :
    NumberFields.new m s w isSigned = NumberFields.new m' s' w isSigned := by
  have hbin : (NumberFields.new m s w isSigned).valueBin =
      (NumberFields.new m' s' w isSigned).valueBin := by
    refine List.map_congr_left fun i hi => ?_
    rw [h i (List.mem_range.mp (List.mem_reverse.mp hi))]
  have hundef : (NumberFields.new m s w isSigned).hasUndef =
      (NumberFields.new m' s' w isSigned).hasUndef := by
    simp only [NumberFields.new]
    refine Bool.eq_iff_iff.mpr ?_
    simp only [List.any_eq_true, List.mem_range]
    constructor
    · rintro ⟨i, hi, hc⟩
      exact ⟨i, hi, h i hi ▸ hc⟩
    · rintro ⟨i, hi, hc⟩
      exact ⟨i, hi, (h i hi).symm ▸ hc⟩
  unfold NumberFields.new at hbin hundef ⊢
  simp only [NumberFields.mk.injEq, SMTNumber.mk.injEq]
  exact ⟨hbin, trivial, hundef⟩

/-- A string of as many characters as are read gives one number, whatever is
behind it. -/
theorem NumberFields.new_left (m m' : Memory) {n : Nat} (isSigned : Bool) (hn : w ≤ n)
    (hs : w ≤ s.length) :
    NumberFields.new m (left s n) w isSigned = NumberFields.new m' (left s w) w isSigned := by
  refine NumberFields.new_congr isSigned fun i hi => ?_
  rw [charAt_left (by omega) (by omega), charAt_left hi (by omega)]

/-- Reading the terminator leaves a trace. -/
theorem hasUndef_of_short (isSigned : Bool) (h : s.length < w) :
    (NumberFields.new m s w isSigned).hasUndef = true := by
  refine List.any_eq_true.mpr ⟨s.length, List.mem_range.mpr h, ?_⟩
  rw [charAt_length]
  decide

theorem hasUndef_of_known (isSigned : Bool) (hknown : Known bits) (h : w ≤ bits.length) :
    (NumberFields.new m (ivlExprBits bits) w isSigned).hasUndef = false := by
  refine List.any_eq_false.mpr fun i hi => ?_
  have hi : i < bits.length := (List.mem_range.mp hi).trans_le h
  rw [charAt_of_lt (by rw [length_ivlExprBits]; exact hi)]
  have hbit := hknown _ (List.getElem_mem hi)
  simp only [ivlExprBits, List.getElem_map]
  cases hd : bits[i] with
  | zero => decide
  | one => decide
  | x => rw [hd] at hbit; cases hbit
  | z => rw [hd] at hbit; cases hbit

end Reads

/-! ## Exact narrowing -/

/-- A place makes the number of the constant's `w` lowest bits, and reads within
the string that it passes. -/
def Place.Narrows (p : Place) (bits : List Digit) (w : Nat) : Prop :=
  ∀ (m : Memory) (sigSigned constSigned : Bool),
    p.emit m (ivlExprBits bits) w sigSigned constSigned =
      .new m (ivlExprBits (bits.take w)) w sigSigned ∧
    ∀ i < w, i < (left (ivlExprBits bits) (p.leftLength bits.length w)).length

/-- The two kinds of assignments make one number of a constant. -/
def AssignsAgree (bits : List Digit) (w : Nat) : Prop :=
  ∀ (m m' : Memory) (sigSigned constSigned : Bool),
    emitAssignAndOptOpcode m (ivlExprBits bits) w sigSigned constSigned =
      emitStmtAssignNb m' (ivlExprBits bits) w sigSigned constSigned

section Exact

variable {bits : List Digit} {w : Nat}

theorem ivlExprBits_take (bits : List Digit) (w : Nat) :
    ivlExprBits (bits.take w) = left (ivlExprBits bits) w := List.map_take

theorem emitConstant_of_gt (leftLength : Nat → Nat → Nat) (m : Memory)
    (sigSigned constSigned : Bool) (hlt : w < bits.length) :
    emitConstant leftLength m (ivlExprBits bits) w sigSigned constSigned =
      .new m (left (ivlExprBits bits) (leftLength bits.length w)) w sigSigned := by
  unfold emitConstant
  rw [length_ivlExprBits, if_pos hlt]

/-- A place is exact where it copies as many characters as are read. -/
theorem emitConstant_eq_iff {leftLength : Nat → Nat → Nat} {m m' : Memory}
    {sigSigned constSigned : Bool} (hknown : Known bits) (hlt : w < bits.length) :
    emitConstant leftLength m (ivlExprBits bits) w sigSigned constSigned =
        .new m' (ivlExprBits (bits.take w)) w sigSigned ↔
      w ≤ leftLength bits.length w := by
  have hlength : w ≤ (ivlExprBits bits).length := by
    rw [length_ivlExprBits]
    omega
  rw [emitConstant_of_gt _ _ _ _ hlt, ivlExprBits_take]
  constructor
  · intro heq
    by_contra hshort
    have hcopy : (left (ivlExprBits bits) (leftLength bits.length w)).length < w := by
      rw [length_left]
      omega
    have hundef := hasUndef_of_short (m := m) sigSigned hcopy
    have htake : Known (bits.take w) := fun d hd => hknown d (List.mem_of_mem_take hd)
    rw [heq, ← ivlExprBits_take, hasUndef_of_known sigSigned htake
      (by rw [List.length_take]; omega)] at hundef
    cases hundef
  · intro hlong
    exact NumberFields.new_left _ _ _ hlong hlength

theorem Place.narrows_iff (p : Place) (hknown : Known bits) (hlt : w < bits.length) :
    p.Narrows bits w ↔ p = .blocking ∨ 2 * w ≤ bits.length := by
  have hlength : w ≤ p.leftLength bits.length w ↔ p = .blocking ∨ 2 * w ≤ bits.length := by
    cases p <;> simp [Place.leftLength] <;> omega
  rw [← hlength]
  constructor
  · intro h
    have heq := (h (fun _ => terminator) false false).1
    rw [p.emit_eq] at heq
    exact (emitConstant_eq_iff hknown hlt).mp heq
  · intro hlong m sigSigned constSigned
    rw [p.emit_eq]
    refine ⟨(emitConstant_eq_iff hknown hlt).mpr hlong, fun i hi => ?_⟩
    rw [length_left, length_ivlExprBits]
    omega

theorem assignsAgree_iff (hknown : Known bits) (hlt : w < bits.length) :
    AssignsAgree bits w ↔ 2 * w ≤ bits.length := by
  have hblocking : ∀ m sigSigned constSigned,
      emitAssignAndOptOpcode m (ivlExprBits bits) w sigSigned constSigned =
        .new m (ivlExprBits (bits.take w)) w sigSigned := by
    intro m sigSigned constSigned
    exact (emitConstant_eq_iff hknown hlt).mpr le_rfl
  constructor
  · intro h
    have heq := (h (fun _ => terminator) (fun _ => terminator) false false).symm
    rw [hblocking] at heq
    have hlong := (emitConstant_eq_iff hknown hlt).mp heq
    omega
  · intro hlong m m' sigSigned constSigned
    rw [hblocking]
    exact ((emitConstant_eq_iff hknown hlt).mpr (by omega)).symm

/-- **Five places narrow constants.** Of a constant of more than `w` defined
bits, all of them make the number of its `w` lowest bits, without reading outside
their strings, and blocking and non-blocking assignments agree, exactly when the
constant has at least twice as many bits as are kept. -/
theorem narrowing_exact_iff (hknown : Known bits) (hlt : w < bits.length) :
    (∀ p : Place, p.Narrows bits w) ∧ AssignsAgree bits w ↔ 2 * w ≤ bits.length := by
  constructor
  · intro h
    exact (assignsAgree_iff hknown hlt).mp h.2
  · intro hlong
    refine ⟨fun p => ?_, (assignsAgree_iff hknown hlt).mpr hlong⟩
    exact (p.narrows_iff hknown hlt).mpr (.inr hlong)

end Exact

/-- Thirty-two bits are enough for a signal of four. -/
theorem narrowing_exact_four :
    (∀ p : Place, p.Narrows (List.replicate 32 .one) 4) ∧
      AssignsAgree (List.replicate 32 .one) 4 ↔ 2 * 4 ≤ 32 := by
  have hknown : Known (List.replicate 32 Digit.one) := by
    intro d hd
    obtain rfl := List.eq_of_mem_replicate hd
    rfl
  have hlt : 4 < (List.replicate 32 Digit.one).length := by decide
  exact narrowing_exact_iff hknown hlt

/-- `5'b00111` into a signal of three bits: the blocking assignment gives it
`111`, the non-blocking one reads a terminator and gives it `011`. -/
theorem narrowing_five_to_three (m : Memory) :
    (emitAssignAndOptOpcode m ['1', '1', '1', '0', '0'] 3 false false).valueBin =
        ['1', '1', '1'] ∧
      (emitStmtAssignNb m ['1', '1', '1', '0', '0'] 3 false false).valueBin = ['0', '1', '1'] := by
  exact ⟨rfl, rfl⟩

/-- The constant has five bits, which is not twice three. -/
theorem narrowing_fails :
    Known [.one, .one, .one, .zero, .zero] ∧
      ¬ AssignsAgree [.one, .one, .one, .zero, .zero] 3 ∧
      ¬ Place.nonBlocking.Narrows [.one, .one, .one, .zero, .zero] 3 := by
  have hknown : Known [.one, .one, .one, .zero, .zero] :=
    known_map_ofBit [true, true, true, false, false]
  refine ⟨hknown, fun h => ?_, fun h => ?_⟩
  · have heq := congrArg (fun n => n.valueBin)
      (h (fun _ => terminator) (fun _ => terminator) false false)
    obtain ⟨hblocking, hnonBlocking⟩ := narrowing_five_to_three fun _ => terminator
    rw [show ivlExprBits [.one, .one, .one, .zero, .zero] = ['1', '1', '1', '0', '0'] from rfl,
      hblocking, hnonBlocking] at heq
    exact absurd heq (by decide)
  · rcases (Place.nonBlocking.narrows_iff hknown (by decide)).mp h with hblocking | hlong
    · cases hblocking
    · exact absurd hlong (by decide)

end Conquest
