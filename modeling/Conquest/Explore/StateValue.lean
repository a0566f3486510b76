import Conquest.Explore.Resync

/-!
# StateValue — the value of a register as the scan records it

The design prints a register in binary, and `build_stack` reads the digits as a
decimal number. Up to 20 digits no two values become the same `unsigned int`;
longer ones are out of the range of `strtoul`, which has one answer for all.
-/

namespace Conquest

open Text Scanf Digits

/-! ## Binary digits as a decimal number -/

def asDecimal (n : Nat) : Nat := Nat.ofDigits 10 (Nat.digits 2 n)

/-- The `unsigned int` of `%u`. -/
def decimalValue (n : Nat) : BitVec 32 := BitVec.ofNat 32 (min (asDecimal n) (2 ^ 64 - 1))

section Decimal

theorem asDecimal_eq (n : Nat) : asDecimal n = n % 2 + 10 * asDecimal (n / 2) := by
  cases n with
  | zero => rfl
  | succ n => rw [asDecimal, Nat.digits_def' (by omega) (by omega), Nat.ofDigits_cons, asDecimal]

theorem asDecimal_two_mul_add (n : Nat) (b : Bool) :
    asDecimal (2 * n + b.toNat) = 10 * asDecimal n + b.toNat := by
  have hb : b.toNat < 2 := b.toNat_lt
  have hhalf : (2 * n + b.toNat) / 2 = n := by omega
  rw [asDecimal_eq, hhalf]
  omega

theorem asDecimal_lt {n k : Nat} (h : n < 2 ^ k) : 9 * asDecimal n < 10 ^ k := by
  induction k generalizing n with
  | zero =>
      obtain rfl : n = 0 := by omega
      decide
  | succ k ih =>
      have hhalf := ih (n := n / 2) (by omega)
      rw [asDecimal_eq]
      omega

theorem self_le_asDecimal (n : Nat) : n ≤ asDecimal n := by
  induction n using Nat.strong_induction_on with
  | _ n ih =>
      rw [asDecimal_eq]
      cases n with
      | zero => omega
      | succ n =>
          have hhalf := ih ((n + 1) / 2) (by omega)
          omega

theorem le_asDecimal {n k : Nat} (h : 2 ^ k ≤ n) : 10 ^ k ≤ asDecimal n := by
  induction k generalizing n with
  | zero => exact h.trans (self_le_asDecimal n)
  | succ k ih =>
      have hhalf := ih (n := n / 2) (by omega)
      rw [asDecimal_eq]
      omega

/-- The lowest bits of the decimal number tell the binary digits, one by one. -/
theorem asDecimal_inj {m n k : Nat} (hm : m < 2 ^ k) (hn : n < 2 ^ k)
    (h : asDecimal m ≡ asDecimal n [MOD 2 ^ k]) : m = n := by
  induction k generalizing m n with
  | zero => omega
  | succ k ih =>
      rw [asDecimal_eq m, asDecimal_eq n] at h
      have hodd : m % 2 = n % 2 := by
        have htwo := h.of_dvd ⟨2 ^ k, Nat.pow_succ'⟩
        unfold Nat.ModEq at htwo
        omega
      have hhalf : asDecimal (m / 2) ≡ asDecimal (n / 2) [MOD 2 ^ k] := by
        rw [hodd] at h
        have hten := h.add_left_cancel'
        have hfive : 5 * asDecimal (m / 2) ≡ 5 * asDecimal (n / 2) [MOD 2 ^ k] := by
          refine Nat.ModEq.mul_left_cancel' two_ne_zero ?_
          rw [← mul_assoc, ← mul_assoc, ← Nat.pow_succ']
          exact hten
        have hcoprime : Nat.gcd (2 ^ k) 5 = 1 := Nat.Coprime.pow_left k (by decide)
        exact Nat.ModEq.cancel_left_of_coprime hcoprime hfive
      have heq : m / 2 = n / 2 := ih (by omega) (by omega) hhalf
      omega

theorem decimalValue_of_lt {n : Nat} (h : n < 2 ^ 20) :
    decimalValue n = BitVec.ofNat 32 (asDecimal n) := by
  have hlt := asDecimal_lt h
  rw [decimalValue, min_eq_left (by omega)]

theorem decimalValue_of_ge {n : Nat} (h : 2 ^ 20 ≤ n) : decimalValue n = BitVec.allOnes 32 := by
  have hle := le_asDecimal h
  rw [decimalValue, min_eq_right (by omega)]
  rfl

/-- The only candidate for the greatest `unsigned int` is 170647, by its lowest bits. -/
theorem decimalValue_ne_allOnes {n : Nat} (h : n < 2 ^ 20) :
    decimalValue n ≠ BitVec.allOnes 32 := by
  rw [decimalValue_of_lt h]
  intro heq
  have hmod : asDecimal n % 2 ^ 32 = 2 ^ 32 - 1 := congrArg BitVec.toNat heq
  have hcandidate : asDecimal 170647 % 2 ^ 20 = 2 ^ 20 - 1 := by decide +kernel
  obtain rfl : n = 170647 := by
    refine asDecimal_inj h (by omega) ?_
    unfold Nat.ModEq
    omega
  have hwrong : asDecimal 170647 % 2 ^ 32 ≠ 2 ^ 32 - 1 := by decide +kernel
  exact hwrong hmod

/-- Two numbers are read as two values unless both have more than 20 digits. -/
theorem decimalValue_ne_iff {m n : Nat} (hne : m ≠ n) :
    decimalValue m ≠ decimalValue n ↔ m < 2 ^ 20 ∨ n < 2 ^ 20 := by
  constructor
  · intro h
    by_contra hlarge
    push Not at hlarge
    exact h ((decimalValue_of_ge hlarge.1).trans (decimalValue_of_ge hlarge.2).symm)
  · intro h heq
    by_cases hm : m < 2 ^ 20
    · by_cases hn : n < 2 ^ 20
      · rw [decimalValue_of_lt hm, decimalValue_of_lt hn] at heq
        have hmod : asDecimal m ≡ asDecimal n [MOD 2 ^ 32] := congrArg BitVec.toNat heq
        exact hne (asDecimal_inj hm hn (hmod.of_dvd ⟨2 ^ 12, by norm_num⟩))
      · rw [decimalValue_of_ge (Nat.le_of_not_lt hn)] at heq
        exact decimalValue_ne_allOnes hm heq
    · have hn : n < 2 ^ 20 := h.resolve_left hm
      rw [decimalValue_of_ge (Nat.le_of_not_lt hm)] at heq
      exact decimalValue_ne_allOnes hn heq.symm

end Decimal

/-! ## What `%b` prints -/

theorem digits_ne_nil {w : Nat} (hw : 0 < w) (v : BitVec w) :
    (bits v).reverse.map Digit.ofBit ≠ [] := by
  apply List.ne_nil_of_length_pos
  simpa [bits] using hw

/-- A value without `x` and `z`, of a register of `w` bits. -/
def LogValue.ofBits {w : Nat} (hw : 0 < w) (v : BitVec w) : LogValue where
  digits := (bits v).reverse.map Digit.ofBit
  ne_nil := digits_ne_nil hw v

section Binary

theorem digitChar_ofBit (b : Bool) : digitChar (Digit.ofBit b) = bitChar b := by cases b <;> rfl

theorem ofDigitChars_bitChar (bs : List Bool) :
    Nat.ofDigitChars 10 (bs.reverse.map bitChar) 0 = asDecimal (toNat (bs.map Digit.ofBit)) := by
  induction bs with
  | nil => rfl
  | cons b bs ih =>
      have hcons : toNat ((b :: bs).map Digit.ofBit) = 2 * toNat (bs.map Digit.ofBit) + b.toNat := by
        simp [Digits.toNat]
      rw [List.reverse_cons, List.map_append, Nat.ofDigitChars_append, ih, hcons,
        asDecimal_two_mul_add]
      cases b <;> rfl

/-- `%u` reads the whole value. -/
theorem number_ofBits {w : Nat} (hw : 0 < w) (v : BitVec w) :
    number (LogValue.ofBits hw v).chars = some (decimalValue v.toNat) := by
  have hchars : (LogValue.ofBits hw v).chars = (bits v).reverse.map bitChar := by
    rw [LogValue.chars, LogValue.ofBits, List.map_map]
    exact List.map_congr_left fun b _ => digitChar_ofBit b
  have hdigit : ∀ c ∈ (bits v).reverse.map bitChar, c.isDigit := by
    refine List.forall_mem_map.mpr ?_
    intro b _
    cases b <;> rfl
  rw [hchars, number_digits (hchars ▸ (LogValue.ofBits hw v).chars_ne_nil) hdigit,
    ofDigitChars_bitChar, toNat_bits]
  rfl

end Binary

/-! ## The recorded value -/

/-- The value that a call of `add_state` gets as an `int`, if it is set. -/
def Call.stateValue? : Call → Option (Option Int)
  | .addState _ stateValue _ => some (stateValue.map BitVec.toInt)
  | _ => none

/-- The value of the `k`-th call of `add_state`. -/
def recordedValue (calls : List Call) (k : Nat) : Option Int :=
  ((calls.filterMap Call.stateValue?)[k]?).join

def LogLine.isState : LogLine → Bool
  | .state _ _ => true
  | _ => false

/-- The place of a record of a register in a log that is scanned to its end. -/
structure StatePlace where
  simClk : BitVec 32
  before : List LogLine
  stateName : Word
  after : List LogLine
  not_stopped : ∀ l ∈ LogLine.clock 9 0 :: before, l.isStop simClk = false
  identifier : afterNumber stateName.chars = stateName.chars
  harmless : ∀ t, .other t ∈ before ++ after → t.Harmless
  stops : Stops simClk after

namespace StatePlace

/-- The log with a value in the place. -/
def log (p : StatePlace) (v : LogValue) : List LogLine :=
  p.before ++ .state p.stateName v :: p.after

/-- The number of the call of `add_state` that records the value. -/
def index (p : StatePlace) : Nat := p.before.countP LogLine.isState

/-- The values that the scan records for the register are distinct. -/
def RecordedApart (p : StatePlace) {w : Nat} (hw : 0 < w) (u v : BitVec w) : Prop :=
  ∀ tag val, ∃ n, ∀ m ≥ n, ∃ a b,
    recordedValue (scanLog p.simClk tag val (logText (p.log (.ofBits hw u))) m).calls p.index =
        some a ∧
      recordedValue (scanLog p.simClk tag val (logText (p.log (.ofBits hw v))) m).calls p.index =
        some b ∧ a ≠ b

end StatePlace

section RecordedApart

theorem length_stateValue (l : LogLine) (clock : BitVec 32) :
    ((l.calls clock).filterMap Call.stateValue?).length = if l.isState then 1 else 0 := by
  cases l with
  | clock blanks n => rfl
  | input v => rfl
  | assign id => rfl
  | state stateName v =>
      rw [LogLine.calls]
      split <;> rfl
  | other t => rfl

theorem recordedValue_append {calls : List Call} {k : Nat}
    (h : (calls.filterMap Call.stateValue?).length = k) (calls' : List Call) (j : Nat) :
    recordedValue (calls ++ calls') (k + j) = recordedValue calls' j := by
  rw [recordedValue, List.filterMap_append, List.getElem?_append_right (by omega), h,
    Nat.add_sub_cancel_left]
  rfl

/-- The calls of the lines in front of a place are counted. -/
theorem recordedValue_itemTrace {simClk : BitVec 32} {before : List LogLine}
    (h : ∀ l ∈ before, l.isStop simClk = false) (taken : Bool) (clock : BitVec 32)
    (items : List Item) :
    ∃ taken' clock', ∀ j,
      recordedValue
          (itemTrace simClk taken clock (before.flatMap LogLine.items ++ items)).calls
          (before.countP LogLine.isState + j) =
        recordedValue (itemTrace simClk taken' clock' items).calls j := by
  induction before generalizing taken clock with
  | nil =>
      refine ⟨taken, clock, ?_⟩
      intro j
      rw [List.countP_nil, Nat.zero_add]
      rfl
  | cons l before ih =>
      obtain ⟨hl, hbefore⟩ := List.forall_mem_cons.mp h
      obtain ⟨takenl, htrace⟩ := itemTrace_line hl taken clock
        (before.flatMap LogLine.items ++ items)
      obtain ⟨taken', clock', hrest⟩ := ih hbefore takenl (l.clockAfter clock)
      refine ⟨taken', clock', ?_⟩
      intro j
      have hcount : (l :: before).countP LogLine.isState + j =
          (if l.isState then 1 else 0) + (before.countP LogLine.isState + j) := by
        rw [List.countP_cons]
        omega
      rw [List.flatMap_cons, List.append_assoc, htrace, hcount, ← hrest]
      exact recordedValue_append (length_stateValue l clock) _ _

namespace StatePlace

variable {w : Nat}

/-- Enough rounds record the number of the value. -/
theorem recordedValue_scanLog (p : StatePlace) (v : LogValue) (tag : Line) (val : BitVec 32) :
    ∃ n, ∀ m ≥ n,
      recordedValue (scanLog p.simClk tag val (logText (p.log v)) m).calls p.index =
        (number v.chars).map BitVec.toInt := by
  have hstops : Stops p.simClk (p.log v) := by
    obtain ⟨blanks, hmem⟩ := p.stops
    exact ⟨blanks, List.mem_append_right _ (List.mem_cons_of_mem _ hmem)⟩
  have hharmless : ∀ t, .other t ∈ p.log v → t.Harmless := by
    intro t ht
    refine p.harmless t ?_
    simpa [log] using ht
  obtain ⟨n, hn⟩ := scanLog_logTrace hharmless p.simClk tag val
  refine ⟨n, ?_⟩
  intro m hm
  obtain ⟨-, hscan⟩ := hn m hm
  rw [hscan (itemTrace_pushes (hstops.cons _) false 0).1]
  -- the log up to the line of the value, that line, and the rest
  have hfile : (LogLine.clock 9 0 :: p.log v).flatMap LogLine.items =
      (LogLine.clock 9 0 :: p.before).flatMap LogLine.items ++
        ((LogLine.state p.stateName v).items ++ p.after.flatMap LogLine.items) := by
    simp [log]
  have hindex : p.index = (LogLine.clock 9 0 :: p.before).countP LogLine.isState + 0 := by
    rw [List.countP_cons_of_neg (by simp [LogLine.isState])]
    rfl
  obtain ⟨taken, clock, hcalls⟩ := recordedValue_itemTrace p.not_stopped false 0
    ((LogLine.state p.stateName v).items ++ p.after.flatMap LogLine.items)
  have hline : (LogLine.state p.stateName v).isStop p.simClk = false := rfl
  obtain ⟨taken', htrace⟩ := itemTrace_line hline taken clock (p.after.flatMap LogLine.items)
  rw [logTrace, hfile, hindex, hcalls, htrace, LogLine.calls, p.identifier,
    if_neg p.stateName.ne_nil]
  cases number v.chars <;> rfl

/-- The recorded values are those of `%u`. -/
theorem recordedApart_iff (p : StatePlace) (hw : 0 < w) (u v : BitVec w) :
    p.RecordedApart hw u v ↔ decimalValue u.toNat ≠ decimalValue v.toNat := by
  have hne : (decimalValue u.toNat).toInt ≠ (decimalValue v.toNat).toInt ↔
      decimalValue u.toNat ≠ decimalValue v.toNat := not_congr BitVec.toInt_inj
  constructor
  · intro h
    obtain ⟨n, hn⟩ := h [] 0
    obtain ⟨i, hi⟩ := p.recordedValue_scanLog (.ofBits hw u) [] 0
    obtain ⟨j, hj⟩ := p.recordedValue_scanLog (.ofBits hw v) [] 0
    obtain ⟨a, b, ha, hb, hab⟩ := hn (n + i + j) (by omega)
    rw [hi _ (by omega), number_ofBits] at ha
    rw [hj _ (by omega), number_ofBits] at hb
    obtain rfl := Option.some.inj ha
    obtain rfl := Option.some.inj hb
    exact hne.mp hab
  · intro h tag val
    obtain ⟨i, hi⟩ := p.recordedValue_scanLog (.ofBits hw u) tag val
    obtain ⟨j, hj⟩ := p.recordedValue_scanLog (.ofBits hw v) tag val
    refine ⟨i + j, ?_⟩
    intro m hm
    refine ⟨_, _, ?_, ?_, hne.mpr h⟩
    · rw [hi m (by omega), number_ofBits]
      rfl
    · rw [hj m (by omega), number_ofBits]
      rfl

/-- **Distinct values.** Two values of a register are recorded as distinct ones unless
both have more than 20 digits. -/
theorem recordedApart_iff_lt (p : StatePlace) (hw : 0 < w) {u v : BitVec w} (huv : u ≠ v) :
    p.RecordedApart hw u v ↔ u.toNat < 2 ^ 20 ∨ v.toNat < 2 ^ 20 := by
  rw [recordedApart_iff]
  exact decimalValue_ne_iff fun h => huv (BitVec.toNat_inj.mp h)

end StatePlace

/-- The record of `out` in a log of one line. -/
def outPlace : StatePlace where
  simClk := 0
  before := []
  stateName := ⟨['o', 'u', 't'], by decide, by decide, by decide⟩
  after := [.clock 9 1]
  not_stopped := fun _ h => by rw [List.mem_singleton.mp h]; rfl
  identifier := rfl
  harmless := fun _ h => LogLine.noConfusion (List.mem_singleton.mp h)
  stops := ⟨9, List.mem_singleton.mpr rfl⟩

theorem recordedApart_witness :
    outPlace.RecordedApart (w := 8) (by decide) 100 101 ↔
      (100 : BitVec 8).toNat < 2 ^ 20 ∨ (101 : BitVec 8).toNat < 2 ^ 20 :=
  outPlace.recordedApart_iff_lt (by decide) (by decide)

/-- A register of 21 bits with the highest one set. -/
theorem recordedApart_counterexample :
    ¬ ∀ (p : StatePlace) (w : Nat) (hw : 0 < w) (u v : BitVec w), w ≤ 32 → u ≠ v →
      p.RecordedApart hw u v := by
  intro h
  have hapart := h outPlace 21 (by decide) 1048576 1048577 (by decide) (by decide)
  rw [StatePlace.recordedApart_iff, decimalValue_of_ge (by decide), decimalValue_of_ge (by decide)]
    at hapart
  exact hapart rfl

end RecordedApart

end Conquest
