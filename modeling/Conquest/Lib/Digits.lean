import Mathlib.Data.Nat.Bitwise

/-!
# Digits — four-state constants and the items of case statements

A constant of a hardware description has digits that are zero, one, unknown or
high impedance, here least significant first. A case statement compares the
digits of an item with a two-state value; `casez` and `casex` skip wildcards.
`fill` is the value with a zero for every digit that is not a bit.
-/

namespace Digits

inductive Digit where
  | zero | one | x | z
  deriving DecidableEq, Repr

/-- The kinds of case statements. -/
inductive CaseKind where
  | plain | casez | casex
  deriving DecidableEq, Repr

namespace Digit

def bit? : Digit → Option Bool
  | zero => some false
  | one => some true
  | x => none
  | z => none

def ofBit (b : Bool) : Digit := if b then one else zero

/-- The digit, with zero for what is not a bit. -/
def fill (d : Digit) : Bool := d.bit?.getD false

/-- A digit that is skipped. -/
def isWild : CaseKind → Digit → Bool
  | .plain, _ => false
  | .casez, d => d = z
  | .casex, d => d = x ∨ d = z

/-- The digit of an item against a bit of the value. -/
def accepts (kind : CaseKind) (d : Digit) (b : Bool) : Bool := d.isWild kind || d.bit? = some b

@[simp] theorem bit?_ofBit (b : Bool) : (ofBit b).bit? = some b := by cases b <;> rfl

@[simp] theorem fill_ofBit (b : Bool) : (ofBit b).fill = b := by cases b <;> rfl

end Digit

/-! ## Items -/

/-- Digit by digit; an item of another length matches nothing. -/
def accepts (kind : CaseKind) : List Digit → List Bool → Bool
  | [], [] => true
  | d :: ds, b :: bs => d.accepts kind b && accepts kind ds bs
  | _, _ => false

/-- No digit that is not a bit stands over a one. -/
def Clear : List Digit → List Bool → Prop
  | d :: ds, b :: bs => (d.bit? = none → b = false) ∧ Clear ds bs
  | _, _ => True

/-- All digits are bits. -/
def Known (ds : List Digit) : Prop := ∀ d ∈ ds, d.bit?.isSome

instance (ds : List Digit) : Decidable (Known ds) :=
  inferInstanceAs (Decidable (∀ d ∈ ds, d.bit?.isSome))

instance : (ds : List Digit) → (bs : List Bool) → Decidable (Clear ds bs)
  | d :: ds, b :: bs =>
      have := instDecidableClear ds bs
      inferInstanceAs (Decidable ((d.bit? = none → b = false) ∧ Clear ds bs))
  | [], _ => inferInstanceAs (Decidable True)
  | _ :: _, [] => inferInstanceAs (Decidable True)

section Items

variable {kind : CaseKind} {ds : List Digit} {bs : List Bool}

/-- An item that matches a value is filled to it where its wildcards stand over
zeros, and only there. -/
theorem fill_eq_iff_clear (h : accepts kind ds bs) : ds.map Digit.fill = bs ↔ Clear ds bs := by
  induction ds generalizing bs with
  | nil =>
      cases bs with
      | nil => exact iff_of_true rfl trivial
      | cons b bs => cases h
  | cons d ds ih =>
      cases bs with
      | nil => cases h
      | cons b bs =>
          rw [accepts, Bool.and_eq_true] at h
          obtain ⟨hd, hds⟩ := h
          rw [List.map_cons, List.cons.injEq, ih hds, Clear]
          refine and_congr_left fun _ => ?_
          cases hbit : d.bit? with
          | none => simp [Digit.fill, hbit, eq_comm]
          | some c =>
              have hwild : d.isWild kind = false := by
                cases d <;> cases kind <;> first | rfl | cases hbit
              rw [Digit.accepts, hwild, hbit] at hd
              have hcb : c = b := by simpa using hd
              simp [Digit.fill, hbit, hcb]

/-- An item of bits matches the value it is filled to. -/
theorem accepts_iff_fill_eq (h : Known ds) : accepts kind ds bs ↔ ds.map Digit.fill = bs := by
  induction ds generalizing bs with
  | nil => cases bs <;> simp [accepts]
  | cons d ds ih =>
      obtain ⟨hd, hds⟩ := List.forall_mem_cons.mp h
      obtain ⟨c, hc⟩ := Option.isSome_iff_exists.mp hd
      cases bs with
      | nil => simp [accepts]
      | cons b bs =>
          have hwild : d.isWild kind = false := by
            cases d <;> cases kind <;> first | rfl | cases hc
          rw [accepts, Bool.and_eq_true, ih hds, List.map_cons, List.cons.injEq]
          simp [Digit.accepts, hwild, hc, Digit.fill]

theorem known_map_ofBit (bs : List Bool) : Known (bs.map Digit.ofBit) := by
  intro d hd
  obtain ⟨b, -, rfl⟩ := List.mem_map.mp hd
  rw [Digit.bit?_ofBit]
  rfl

/-- Without wildcards only an item of bits matches. -/
theorem known_of_accepts (h : accepts .plain ds bs) : Known ds := by
  induction ds generalizing bs with
  | nil => exact fun d hd => absurd hd List.not_mem_nil
  | cons d ds ih =>
      cases bs with
      | nil => cases h
      | cons b bs =>
          rw [accepts, Bool.and_eq_true] at h
          refine List.forall_mem_cons.mpr ⟨?_, ih h.2⟩
          have hbit : d.bit? = some b := by simpa [Digit.accepts, Digit.isWild] using h.1
          rw [hbit]
          rfl

end Items

/-! ## Values -/

/-- The bits of a value, least significant first. -/
def bits {w : Nat} (v : BitVec w) : List Bool := (List.range w).map v.getLsbD

theorem bits_inj {w : Nat} {u v : BitVec w} (h : bits u = bits v) : u = v := by
  apply BitVec.eq_of_getLsbD_eq
  intro i hi
  exact List.map_inj_left.mp h i (List.mem_range.mpr hi)

/-- The number of the digits, filled. -/
def toNat (ds : List Digit) : Nat := ds.foldr (fun d n => 2 * n + d.fill.toNat) 0

theorem toNat_lt (ds : List Digit) : toNat ds < 2 ^ ds.length := by
  induction ds with
  | nil => exact Nat.one_pos
  | cons d ds ih =>
      have hd : d.fill.toNat ≤ 1 := Bool.toNat_le _
      show 2 * toNat ds + d.fill.toNat < _
      rw [List.length_cons, Nat.pow_succ]
      omega

/-- The value of the digits, filled. -/
def fill (ds : List Digit) : BitVec ds.length := BitVec.ofNat ds.length (toNat ds)

theorem testBit_toNat (ds : List Digit) (i : Nat) :
    (toNat ds).testBit i = (ds.map Digit.fill).getD i false := by
  induction ds generalizing i with
  | nil => simp [toNat]
  | cons d ds ih =>
      have hcons : toNat (d :: ds) = Nat.bit d.fill (toNat ds) := by
        rw [Nat.bit_val]
        rfl
      rw [hcons]
      cases i with
      | zero => simp
      | succ i => simpa [Nat.testBit_bit_succ] using ih i

/-- The lowest digits have the value modulo their power. -/
theorem toNat_take (ds : List Digit) (k : Nat) : toNat (ds.take k) = toNat ds % 2 ^ k := by
  refine Nat.eq_of_testBit_eq fun i => ?_
  rw [testBit_toNat, Nat.testBit_mod_two_pow, testBit_toNat, List.map_take]
  by_cases hi : i < k
  · simp [hi, List.getD_eq_getElem?_getD]
  · have hlen : ((ds.map Digit.fill).take k).length ≤ i := by
      rw [List.length_take]
      omega
    rw [List.getD_eq_default _ _ hlen]
    simp [hi]

/-- Zeros at the top do not count. -/
theorem toNat_append_zeros (ds : List Digit) (k : Nat) :
    toNat (ds ++ List.replicate k Digit.zero) = toNat ds := by
  refine Nat.eq_of_testBit_eq fun i => ?_
  have hzeros : ∀ j, (List.replicate k Digit.zero.fill).getD j false = false := fun j => by
    by_cases hj : j < k
    · rw [List.getD_replicate _ hj]
      rfl
    · exact List.getD_eq_default _ _ (by simpa using hj)
  rw [testBit_toNat, testBit_toNat, List.map_append, List.map_replicate]
  by_cases hi : i < (ds.map Digit.fill).length
  · rw [List.getD_append _ _ _ _ hi]
  · have hlen : (ds.map Digit.fill).length ≤ i := Nat.le_of_not_lt hi
    rw [List.getD_append_right _ _ _ _ hlen, List.getD_eq_default _ _ hlen, hzeros]

theorem bits_fill (ds : List Digit) : bits (fill ds) = ds.map Digit.fill := by
  apply List.ext_getElem
  · simp [bits]
  · intro i hi hi'
    have hlt : i < ds.length := by simpa using hi'
    simp only [bits, fill, List.getElem_map, List.getElem_range, BitVec.getLsbD_ofNat, hlt,
      decide_true, Bool.true_and, testBit_toNat]
    simp [hlt]

/-- The digits of a value are its number. -/
theorem toNat_bits {w : Nat} (v : BitVec w) : toNat ((bits v).map Digit.ofBit) = v.toNat := by
  apply Nat.eq_of_testBit_eq
  intro i
  have hfill : ((bits v).map Digit.ofBit).map Digit.fill = bits v := by
    rw [List.map_map]
    exact (List.map_congr_left fun b _ => Digit.fill_ofBit b).trans (List.map_id _)
  rw [testBit_toNat, hfill, bits, List.getD_eq_getElem?_getD, List.getElem?_map]
  by_cases hi : i < w
  · rw [List.getElem?_range hi]
    rfl
  · rw [List.getElem?_eq_none (by simpa using hi)]
    exact (BitVec.getLsbD_of_ge v i (Nat.le_of_not_lt hi)).symm

theorem toNat_ofBits (ds : List Digit) :
    toNat ((ds.map Digit.fill).map Digit.ofBit) = toNat ds := by
  induction ds with
  | nil => rfl
  | cons d ds ih =>
      simp only [List.map_cons, toNat, List.foldr_cons, Digit.fill_ofBit] at ih ⊢
      rw [ih]

end Digits
