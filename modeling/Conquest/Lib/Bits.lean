import Conquest.Lib.Bv

/-!
# Bits — vectors bit by bit

A vector is given by its bits, and a part of it by fewer of them. With it, the
valuations that differ in one variable.
-/

namespace Bv

/-- There is a vector of any bits. -/
theorem exists_bits {w : Nat} (f : Nat → Bool) : ∃ x : BitVec w, ∀ i < w, x.getLsbD i = f i := by
  refine ⟨(BitVec.ofBoolListLE ((List.range w).map f)).setWidth w, fun i hi => ?_⟩
  rw [BitVec.getLsbD_setWidth, BitVec.getLsbD_ofBoolListLE]
  simp [hi]

/-- A bit of a vector can be another one. -/
theorem exists_flip {w j : Nat} (x : BitVec w) (hj : j < w) :
    ∃ y : BitVec w, y ≠ x ∧ ∀ i, i ≠ j → y.getLsbD i = x.getLsbD i := by
  refine ⟨x ^^^ BitVec.twoPow w j, fun heq => ?_, fun i hi => ?_⟩
  · have hbit := congrArg (·.getLsbD j) heq
    simp [hj] at hbit
  · simp [BitVec.getLsbD_twoPow, Ne.symm hi]

/-- Fewer bits of a vector are not all of it. -/
theorem exists_bit_outside {w width : Nat} (lo : Nat) (hlt : width < w) :
    ∃ j < w, j < lo ∨ lo + width ≤ j := by
  by_cases hlo : lo = 0
  · exact ⟨width, hlt, .inr (by omega)⟩
  · exact ⟨0, by omega, .inl (by omega)⟩

/-- The same bits are taken from vectors that agree in them. -/
theorem denote_mkExtract_congr {ρ ρ' : Valuation} {t : TermT} {w lo hi : Nat} {x y : BitVec w}
    (h : Denotes ρ t x) (h' : Denotes ρ' t y)
    (hbits : ∀ i, lo ≤ i → i ≤ hi → x.getLsbD i = y.getLsbD i) :
    denote ρ (mkExtract lo hi t) = denote ρ' (mkExtract lo hi t) := by
  obtain ⟨a, rfl, rfl⟩ := h.exists_term
  obtain ⟨b, hb, rfl⟩ := h'.exists_term
  obtain rfl : a = b := by simpa using hb
  rw [mkExtract, onBv]
  split
  · rename_i hrange
    rw [denote_some, denote_some, Term.eval, Term.eval]
    congr 2
    refine BitVec.eq_of_getLsbD_eq fun i hi => ?_
    rw [BitVec.getLsbD_extractLsb', BitVec.getLsbD_extractLsb', hbits _ (by omega) (by omega)]
  · rfl

/-- A handle has one width and one value. -/
theorem Denotes.toNat_eq {ρ : Valuation} {t : TermT} {w v : Nat} {x : BitVec w} {y : BitVec v}
    (hx : Denotes ρ t x) (hy : Denotes ρ t y) : w = v ∧ x.toNat = y.toNat := by
  have heq := hx.symm.trans hy
  rw [Option.some.injEq, Sigma.mk.injEq, Ty.bv.injEq] at heq
  obtain ⟨rfl, hxy⟩ := heq
  exact ⟨rfl, congrArg BitVec.toNat (eq_of_heq hxy)⟩

/-- An equality of vectors needs one width. -/
theorem Denotes.holds_mkEq_iff {ρ : Valuation} {s t : TermT} {w v : Nat} {x : BitVec w}
    {y : BitVec v} (hs : Denotes ρ s x) (ht : Denotes ρ t y) :
    Holds ρ (mkEq s t) ↔ (⟨.bv w, x⟩ : Sigma Ty.Carrier) = ⟨.bv v, y⟩ := by
  rw [Bv.holds_mkEq_iff, hs, ht]
  simp

/-! ## One variable -/

/-- The variable has another value. -/
def Valuation.set (ρ : Valuation) (τ : Ty) (id : Nat) (x : τ.Carrier) : Valuation :=
  fun σ id' => if h : τ = σ ∧ id' = id then h.1 ▸ x else ρ σ id'

theorem denote_mkVar_set (ρ : Valuation) (τ : Ty) (id : Nat) (x : τ.Carrier) :
    denote (ρ.set τ id x) (mkVar τ id) = some ⟨τ, x⟩ := by
  have hset : ρ.set τ id x τ id = x := dif_pos ⟨rfl, rfl⟩
  rw [mkVar, denote_some, Term.eval, hset]

theorem denotes_mkVar_set (ρ : Valuation) {w : Nat} (id : Nat) (x : BitVec w) :
    Denotes (ρ.set (.bv w) id x) (mkVar (.bv w) id) x := denote_mkVar_set ρ (.bv w) id x

theorem denote_mkVar_set_of_ne (ρ : Valuation) {τ σ : Ty} {id id' : Nat} (x : τ.Carrier)
    (h : id' ≠ id) : denote (ρ.set τ id x) (mkVar σ id') = denote ρ (mkVar σ id') := by
  have hset : ρ.set τ id x σ id' = ρ σ id' := dif_neg fun heq => h heq.2
  rw [mkVar, denote_some, denote_some, Term.eval, Term.eval, hset]

end Bv
