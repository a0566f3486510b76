import Conquest.Lib.Bv

/-!
# Vars — the variables of a term

A checked constructor uses the variables of its arguments and no others, unless
it returns the null term.
-/

namespace Bv

/-- Every variable of the term satisfies `p`. -/
@[simp] def Term.Over (p : Nat → Prop) : {τ : Ty} → Term τ → Prop
  | _, .var _ id => p id
  | _, .bool _ => True
  | _, .const _ => True
  | _, .not a => a.Over p
  | _, .and a b => a.Over p ∧ b.Over p
  | _, .eq a b => a.Over p ∧ b.Over p
  | _, .ite c a b => c.Over p ∧ a.Over p ∧ b.Over p
  | _, .op1 _ a => a.Over p
  | _, .op2 _ a b => a.Over p ∧ b.Over p
  | _, .red _ a => a.Over p
  | _, .rel _ a b => a.Over p ∧ b.Over p
  | _, .comp a b => a.Over p ∧ b.Over p
  | _, .ofBool a => a.Over p
  | _, .extract _ _ a => a.Over p
  | _, .concat a b => a.Over p ∧ b.Over p
  | _, .rep _ a => a.Over p
  | _, .zeroExtend _ a => a.Over p
  | _, .app f i => f.Over p ∧ i.Over p
  | _, .update f i x => f.Over p ∧ i.Over p ∧ x.Over p

/-- The same for a handle; the null term has no variables. -/
@[simp] def Over (p : Nat → Prop) : TermT → Prop
  | none => True
  | some ⟨_, a⟩ => a.Over p

theorem Term.Over.mono {p q : Nat → Prop} (hpq : ∀ id, p id → q id) {τ : Ty} {a : Term τ}
    (h : a.Over p) : a.Over q := by
  induction a with
  | var τ id => exact hpq id h
  | bool | const => trivial
  | not a ih | op1 f a ih | red f a ih | ofBool a ih | extract lo len a ih | rep n a ih
  | zeroExtend n a ih => exact ih h
  | and a b iha ihb | eq a b iha ihb | op2 f a b iha ihb | rel f a b iha ihb | comp a b iha ihb
  | concat a b iha ihb | app a b iha ihb => exact ⟨iha h.1, ihb h.2⟩
  | ite a b c iha ihb ihc | update a b c iha ihb ihc => exact ⟨iha h.1, ihb h.2.1, ihc h.2.2⟩

theorem Over.mono {p q : Nat → Prop} (hpq : ∀ id, p id → q id) {t : TermT} (h : Over p t) :
    Over q t := by
  rcases t with _ | ⟨τ, a⟩
  · trivial
  · exact Term.Over.mono hpq h

section Over

variable {p : Nat → Prop} {s t c : TermT}

@[simp] theorem over_none : Over p none := trivial

@[simp] theorem over_mkVar (τ : Ty) (id : Nat) : Over p (mkVar τ id) ↔ p id := Iff.rfl

@[simp] theorem over_mkConst {w : Nat} (x : BitVec w) : Over p (mkConst x) := trivial

@[simp] theorem over_mkBool (b : Bool) : Over p (mkBool b) := trivial

theorem over_mkNot_iff : Over p (mkNot s) ↔ ((mkNot s).isSome → Over p s) := by
  rcases s with _ | ⟨τ, a⟩
  · simp [mkNot]
  · cases τ <;> simp [mkNot]

theorem over_mkAnd2_iff : Over p (mkAnd2 s t) ↔ ((mkAnd2 s t).isSome → Over p s ∧ Over p t) := by
  rcases s with _ | ⟨τ, a⟩
  · simp [mkAnd2]
  rcases t with _ | ⟨σ, b⟩
  · cases τ <;> simp [mkAnd2]
  · cases τ <;> cases σ <;> simp [mkAnd2]

theorem over_mkEq_iff : Over p (mkEq s t) ↔ ((mkEq s t).isSome → Over p s ∧ Over p t) := by
  rcases s with _ | ⟨τ, a⟩
  · simp [mkEq]
  rcases t with _ | ⟨σ, b⟩
  · simp [mkEq]
  by_cases hτ : σ = τ
  · subst hτ
    simp [mkEq]
  · simp [mkEq, hτ]

theorem over_mkIte_iff :
    Over p (mkIte c s t) ↔ ((mkIte c s t).isSome → Over p c ∧ Over p s ∧ Over p t) := by
  rcases c with _ | ⟨υ, e⟩
  · simp [mkIte]
  rcases s with _ | ⟨τ, a⟩
  · cases υ <;> simp [mkIte]
  rcases t with _ | ⟨σ, b⟩
  · cases υ <;> simp [mkIte]
  cases υ <;> try simp [mkIte]
  by_cases hτ : σ = τ
  · subst hτ
    simp
  · simp [hτ]

theorem over_onBv {k : {w : Nat} → Term (.bv w) → TermT}
    (hk : ∀ {w : Nat} (a : Term (.bv w)), Over p (k a) ↔ ((k a).isSome → a.Over p)) :
    Over p (onBv k s) ↔ ((onBv k s).isSome → Over p s) := by
  rcases s with _ | ⟨τ, a⟩
  · simp [onBv]
  · cases τ with
    | bool => simp [onBv]
    | fn d c => simp [onBv]
    | bv w => exact hk a

theorem over_onBv2 {k : {w : Nat} → Term (.bv w) → Term (.bv w) → TermT}
    (hk : ∀ {w : Nat} (a b : Term (.bv w)),
      Over p (k a b) ↔ ((k a b).isSome → a.Over p ∧ b.Over p)) :
    Over p (onBv2 k s t) ↔ ((onBv2 k s t).isSome → Over p s ∧ Over p t) := by
  rcases s with _ | ⟨τ, a⟩
  · simp [onBv2]
  rcases t with _ | ⟨σ, b⟩
  · cases τ <;> simp [onBv2]
  cases τ <;> cases σ <;> try (simp [onBv2]; done)
  rename_i w v
  by_cases hv : v = w
  · subst hv
    rw [onBv2_some]
    exact hk a b
  · simp [onBv2_eq_none a b hv]

theorem over_mkOp1_iff (f : Op1) : Over p (mkOp1 f s) ↔ ((mkOp1 f s).isSome → Over p s) :=
  over_onBv fun a => by simp

/-- Only the null term makes the null term. -/
theorem isSome_of_mkOp1 {f : Op1} (h : (mkOp1 f s).isSome) : s.isSome := by
  cases s with
  | none => cases h
  | some a => rfl

theorem isSome_of_mkOp2 {f : Op2} (h : (mkOp2 f s t).isSome) : s.isSome ∧ t.isSome := by
  rcases s with _ | ⟨τ, a⟩
  · cases h
  rcases t with _ | b
  · cases τ <;> cases h
  · exact ⟨rfl, rfl⟩

theorem over_mkRed_iff (f : Red) : Over p (mkRed f s) ↔ ((mkRed f s).isSome → Over p s) :=
  over_onBv fun a => by simp

theorem over_mkRep_iff (n : Nat) : Over p (mkRep n s) ↔ ((mkRep n s).isSome → Over p s) :=
  over_onBv fun a => by by_cases hn : 0 < n <;> simp [hn]

theorem over_mkExtract_iff (lo hi : Nat) :
    Over p (mkExtract lo hi s) ↔ ((mkExtract lo hi s).isSome → Over p s) := by
  refine over_onBv fun {w} a => ?_
  by_cases hbits : lo ≤ hi ∧ hi < w <;> simp [hbits]

theorem over_mkZeroExtend_iff (n : Nat) :
    Over p (mkZeroExtend n s) ↔ ((mkZeroExtend n s).isSome → Over p s) :=
  over_onBv fun a => by simp

theorem over_mkOp2_iff (f : Op2) :
    Over p (mkOp2 f s t) ↔ ((mkOp2 f s t).isSome → Over p s ∧ Over p t) :=
  over_onBv2 fun a b => by simp

theorem over_mkRel_iff (f : Rel) :
    Over p (mkRel f s t) ↔ ((mkRel f s t).isSome → Over p s ∧ Over p t) :=
  over_onBv2 fun a b => by simp

theorem over_mkComp_iff : Over p (mkComp s t) ↔ ((mkComp s t).isSome → Over p s ∧ Over p t) :=
  over_onBv2 fun a b => by simp

theorem over_mkOfBool_iff : Over p (mkOfBool s) ↔ ((mkOfBool s).isSome → Over p s) := by
  rcases s with _ | ⟨τ, a⟩
  · simp [mkOfBool]
  · cases τ <;> simp [mkOfBool]

theorem over_mkConcat2_iff :
    Over p (mkConcat2 s t) ↔ ((mkConcat2 s t).isSome → Over p s ∧ Over p t) := by
  rcases s with _ | ⟨τ, a⟩
  · simp [mkConcat2]
  rcases t with _ | ⟨σ, b⟩
  · cases τ <;> simp [mkConcat2]
  · cases τ <;> cases σ <;> simp [mkConcat2]

theorem over_mkApp_iff : Over p (mkApp s t) ↔ ((mkApp s t).isSome → Over p s ∧ Over p t) := by
  rcases s with _ | ⟨τ, a⟩
  · simp [mkApp]
  rcases t with _ | ⟨σ, b⟩
  · cases τ <;> simp [mkApp]
  cases τ <;> cases σ <;> try simp [mkApp]
  rename_i d c w
  by_cases hw : w = d
  · subst hw
    simp
  · simp [hw]

theorem over_mkUpdate_iff :
    Over p (mkUpdate c s t) ↔ ((mkUpdate c s t).isSome → Over p c ∧ Over p s ∧ Over p t) := by
  rcases c with _ | ⟨υ, f⟩
  · simp [mkUpdate]
  rcases s with _ | ⟨τ, a⟩
  · cases υ <;> simp [mkUpdate]
  rcases t with _ | ⟨σ, b⟩
  · cases υ <;> cases τ <;> simp [mkUpdate]
  cases υ <;> cases τ <;> cases σ <;> try (simp [mkUpdate]; done)
  rename_i d c w v
  by_cases hw : w = d ∧ v = c
  · obtain ⟨rfl, rfl⟩ := hw
    simp [mkUpdate]
  · have hnone : mkUpdate (some ⟨_, f⟩) (some ⟨_, a⟩) (some ⟨_, b⟩) = none := dif_neg hw
    simp [hnone]

theorem over_mkAnd {ts : List TermT} (h : ∀ t ∈ ts, Over p t) : Over p (mkAnd ts) := by
  induction ts with
  | nil => trivial
  | cons t ts ih =>
      obtain ⟨hhead, htail⟩ := List.forall_mem_cons.mp h
      exact over_mkAnd2_iff.mpr fun _ => ⟨hhead, ih htail⟩

theorem over_mkConcat {ts : List TermT} (h : ∀ t ∈ ts, Over p t) : Over p (mkConcat ts) := by
  have hfold : ∀ {ts : List TermT} {s : TermT}, Over p s → (∀ t ∈ ts, Over p t) →
      Over p (ts.foldl mkConcat2 s) := by
    intro ts
    induction ts with
    | nil => exact fun hs _ => hs
    | cons t ts ih =>
        intro s hs hts
        obtain ⟨hhead, htail⟩ := List.forall_mem_cons.mp hts
        exact ih (over_mkConcat2_iff.mpr fun _ => ⟨hs, hhead⟩) htail
  cases ts with
  | nil => trivial
  | cons t ts =>
      obtain ⟨hhead, htail⟩ := List.forall_mem_cons.mp h
      exact hfold hhead htail

end Over

end Bv
