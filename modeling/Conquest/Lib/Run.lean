import Mathlib.Logic.Relation

/-!
# Run — properties of runs

Runs of a machine, given as the list of its inputs, with the rules that carry a
fact about one step to whole runs.
-/

namespace Run

variable {σ α : Type*}

section Deterministic

variable (step : σ → α → σ)

/-- The state after a list of inputs. -/
def exec (s : σ) (as : List α) : σ := as.foldl step s

/-- `P` holds of every step of the run: of the state before it and its input. -/
def AllSteps (P : σ → α → Prop) : σ → List α → Prop
  | _, [] => True
  | s, a :: as => P s a ∧ AllSteps P (step s a) as

theorem exec_append (s : σ) (as bs : List α) :
    exec step s (as ++ bs) = exec step (exec step s as) bs := List.foldl_append

variable {step}

theorem allSteps_append {P : σ → α → Prop} {s : σ} {as bs : List α} :
    AllSteps step P s (as ++ bs) ↔
      AllSteps step P s as ∧ AllSteps step P (exec step s as) bs := by
  induction as generalizing s with
  | nil => exact (and_iff_right trivial).symm
  | cons a as ih =>
      rw [List.cons_append]
      exact (and_congr_right fun _ => ih).trans and_assoc.symm

/-- Every input of the run is one of its steps. -/
theorem AllSteps.exists_of_mem {P : σ → α → Prop} {s : σ} {as : List α}
    (h : AllSteps step P s as) {a : α} (ha : a ∈ as) : ∃ s', P s' a := by
  induction as generalizing s with
  | nil => exact absurd ha List.not_mem_nil
  | cons b as ih =>
      rcases List.mem_cons.mp ha with rfl | ha
      · exact ⟨s, h.1⟩
      · exact ih h.2 ha

/-- A property of every step from an invariant that the steps keep. -/
theorem allSteps_of_inv (Inv : σ → Prop) {P : σ → α → Prop}
    (hstep : ∀ s a, Inv s → P s a ∧ Inv (step s a)) {s : σ} (hs : Inv s) (as : List α) :
    AllSteps step P s as := by
  induction as generalizing s with
  | nil => trivial
  | cons a as ih => exact ⟨(hstep s a hs).1, ih (hstep s a hs).2⟩

/-- An invariant of every step holds after every run. -/
theorem exec_inv {Inv : σ → Prop} (hstep : ∀ s a, Inv s → Inv (step s a)) {s : σ}
    (hs : Inv s) (as : List α) : Inv (exec step s as) := by
  induction as generalizing s with
  | nil => exact hs
  | cons a as ih => exact ih (hstep s a hs)

/-- Two step properties that agree wherever the invariant holds agree on runs;
the invariant needs to be kept only by steps with the property. -/
theorem allSteps_iff {Inv : σ → Prop} {P Q : σ → α → Prop}
    (hiff : ∀ s a, Inv s → (P s a ↔ Q s a)) (hinv : ∀ s a, Inv s → P s a → Inv (step s a))
    {s : σ} (hs : Inv s) (as : List α) : AllSteps step P s as ↔ AllSteps step Q s as := by
  induction as generalizing s with
  | nil => exact Iff.rfl
  | cons a as ih =>
      constructor
      · rintro ⟨hp, hrest⟩
        exact ⟨(hiff s a hs).mp hp, (ih (hinv s a hs hp)).mp hrest⟩
      · rintro ⟨hq, hrest⟩
        have hp := (hiff s a hs).mpr hq
        exact ⟨hp, (ih (hinv s a hs hp)).mpr hrest⟩

end Deterministic

section Partial

variable {step : σ → α → Option σ} {P : σ → α → Prop}

/-- The states reached by steps with the property `P`. -/
inductive Reach (step : σ → α → Option σ) (P : σ → α → Prop) (s : σ) : σ → Prop
  | start : Reach step P s s
  | step {t u : σ} {a : α} (h : Reach step P s t) (hp : P t a) (hu : step t a = some u) :
      Reach step P s u

/-- An invariant of the steps with the property holds in the states they reach. -/
theorem Reach.inv {Inv : σ → Prop} {s t : σ} (h : Reach step P s t) (hs : Inv s)
    (hstep : ∀ t u a, Inv t → P t a → step t a = some u → Inv u) : Inv t := by
  induction h with
  | start => exact hs
  | step _ hp hu ih => exact hstep _ _ _ ih hp hu

/-- A run of inputs that have the property in every state. -/
theorem Reach.run {s t u : σ} (h : Reach step P s t) {as : List α} (hp : ∀ v, ∀ a ∈ as, P v a)
    (hu : as.foldlM step t = some u) : Reach step P s u := by
  induction as generalizing t with
  | nil =>
      cases hu
      exact h
  | cons a as ih =>
      obtain ⟨v, hv, hu⟩ := Option.bind_eq_some_iff.mp hu
      exact ih (h.step (hp t a List.mem_cons_self) hv)
        (fun v b hb => hp v b (List.mem_cons_of_mem _ hb)) hu

/-- An invariant of the steps holds at the end of a run that does not stop. -/
theorem foldlM_inv (Inv : σ → Prop) {s u : σ} {as : List α} (h : as.foldlM step s = some u)
    (hs : Inv s) (hstep : ∀ t, ∀ a ∈ as, ∀ v, Inv t → step t a = some v → Inv v) : Inv u := by
  induction as generalizing s with
  | nil =>
      cases h
      exact hs
  | cons a as ih =>
      obtain ⟨v, hv, h⟩ := Option.bind_eq_some_iff.mp h
      exact ih h (hstep s a List.mem_cons_self v hs hv)
        fun t b hb => hstep t b (List.mem_cons_of_mem _ hb)

/-- A run whose steps never stop where the invariant holds. -/
theorem exists_foldlM (Inv : σ → Prop) {s : σ} {as : List α} (hs : Inv s)
    (hstep : ∀ t, ∀ a ∈ as, Inv t → ∃ v, step t a = some v ∧ Inv v) :
    ∃ u, as.foldlM step s = some u ∧ Inv u := by
  induction as generalizing s with
  | nil => exact ⟨s, rfl, hs⟩
  | cons a as ih =>
      obtain ⟨v, hv, hinv⟩ := hstep s a List.mem_cons_self hs
      obtain ⟨u, hu, hlast⟩ := ih hinv fun t b hb => hstep t b (List.mem_cons_of_mem _ hb)
      exact ⟨u, Option.bind_eq_some_iff.mpr ⟨v, hv, hu⟩, hlast⟩

/-- What one input establishes and all steps keep holds at the end. -/
theorem foldlM_of_mem (Inv : σ → Prop) {s u : σ} {as : List α} (h : as.foldlM step s = some u)
    {a : α} (ha : a ∈ as) (hset : ∀ t v, step t a = some v → Inv v)
    (hkeep : ∀ t b v, Inv t → step t b = some v → Inv v) : Inv u := by
  induction as generalizing s with
  | nil => cases ha
  | cons b as ih =>
      obtain ⟨v, hv, hrest⟩ := Option.bind_eq_some_iff.mp h
      rcases List.mem_cons.mp ha with rfl | ha
      · exact foldlM_inv _ hrest (hset s v hv) fun t b _ => hkeep t b
      · exact ih hrest ha

end Partial

section Observed

variable {ε : Type*} (step : σ → α → Option (σ × List ε))

/-- The run of a machine that may stop, with the events it shows. -/
def observe : σ → List α → Option (σ × List ε)
  | s, [] => some (s, [])
  | s, a :: as =>
      (step s a).bind fun (t, es) => (observe t as).map fun (u, es') => (u, es ++ es')

/-- `P` holds of every step that the run makes or stops at: of the state before
it and its input. -/
def ObservedSteps (P : σ → α → Prop) : σ → List α → Prop
  | _, [] => True
  | s, a :: as => P s a ∧ ∀ t es, step s a = some (t, es) → ObservedSteps P t as

variable {step}

theorem observe_cons {s u : σ} {a : α} {as : List α} {es : List ε}
    (h : observe step s (a :: as) = some (u, es)) :
    ∃ t es₁ es₂, step s a = some (t, es₁) ∧ observe step t as = some (u, es₂) ∧
      es = es₁ ++ es₂ := by
  obtain ⟨⟨t, es₁⟩, ht, h⟩ := Option.bind_eq_some_iff.mp h
  obtain ⟨⟨u, es₂⟩, hu, heq⟩ := Option.map_eq_some_iff.mp h
  cases heq
  exact ⟨t, es₁, es₂, ht, hu, rfl⟩

/-- A step before a run. -/
theorem observe_cons_of_step {s t u : σ} {a : α} {as : List α} {es es' : List ε}
    (hstep : step s a = some (t, es)) (h : observe step t as = some (u, es')) :
    observe step s (a :: as) = some (u, es ++ es') := by
  simp [observe, hstep, h]

/-- An invariant of the steps holds after every run. -/
theorem observe_inv (Inv : σ → Prop) {V : α → Prop} {s t : σ} {as : List α} {es : List ε}
    (h : observe step s as = some (t, es)) (hs : Inv s) (has : ∀ a ∈ as, V a)
    (hstep : ∀ s a t es, Inv s → V a → step s a = some (t, es) → Inv t) : Inv t := by
  induction as generalizing s es with
  | nil =>
      cases h
      exact hs
  | cons a as ih =>
      obtain ⟨u, es₁, es₂, hu, hv, rfl⟩ := observe_cons h
      exact ih hv (hstep s a u es₁ hs (has a List.mem_cons_self) hu)
        fun b hb => has b (List.mem_cons_of_mem _ hb)

/-- An invariant of the state and the events so far. -/
theorem observe_trace (Inv : σ → List ε → Prop) {s t : σ} {as : List α} {seen es : List ε}
    (h : observe step s as = some (t, es)) (hs : Inv s seen)
    (hstep : ∀ s seen a t es, Inv s seen → step s a = some (t, es) → Inv t (seen ++ es)) :
    Inv t (seen ++ es) := by
  induction as generalizing s seen es with
  | nil =>
      cases h
      rw [List.append_nil]
      exact hs
  | cons a as ih =>
      obtain ⟨u, es₁, es₂, hu, hv, rfl⟩ := observe_cons h
      rw [← List.append_assoc]
      exact ih hv (hstep s seen a u es₁ hs hu)

/-- The step that follows some of the run. -/
theorem ObservedSteps.of_observe {P : σ → α → Prop} {s t : σ} {as bs : List α} {a : α}
    {es : List ε} (h : ObservedSteps step P s (as ++ a :: bs))
    (ht : observe step s as = some (t, es)) : P t a := by
  induction as generalizing s es with
  | nil =>
      cases ht
      exact h.1
  | cons b as ih =>
      obtain ⟨u, es₁, es₂, hu, hv, rfl⟩ := observe_cons ht
      exact ih (h.2 u es₁ hu) hv

instance ObservedSteps.decidable {P : σ → α → Prop} [∀ s a, Decidable (P s a)] :
    ∀ (s : σ) (as : List α), Decidable (ObservedSteps step P s as)
  | _, [] => isTrue trivial
  | s, a :: as =>
      match hstep : step s a with
      | none => decidable_of_iff (P s a) (by simp [ObservedSteps, hstep])
      | some (t, _) =>
          have : Decidable (ObservedSteps step P t as) := ObservedSteps.decidable t as
          decidable_of_iff (P s a ∧ ObservedSteps step P t as) (by simp [ObservedSteps, hstep])

theorem observedSteps_of_forall {P : σ → α → Prop} (h : ∀ s a, P s a) (s : σ) (as : List α) :
    ObservedSteps step P s as := by
  induction as generalizing s with
  | nil => trivial
  | cons a as ih => exact ⟨h s a, fun t _ _ => ih t⟩

/-- A property of the steps gives another one where an invariant holds that it
keeps. -/
theorem ObservedSteps.imp (Inv : σ → Prop) {V : α → Prop} {P Q : σ → α → Prop} {s : σ}
    {as : List α} (h : ObservedSteps step P s as) (hs : Inv s) (has : ∀ a ∈ as, V a)
    (himp : ∀ s a, Inv s → V a → P s a → Q s a)
    (hinv : ∀ s a t es, Inv s → V a → P s a → step s a = some (t, es) → Inv t) :
    ObservedSteps step Q s as := by
  induction as generalizing s with
  | nil => trivial
  | cons a as ih =>
      have ha := has a List.mem_cons_self
      refine ⟨himp s a hs ha h.1, fun t es ht => ?_⟩
      exact ih (h.2 t es ht) (hinv s a t es hs ha h.1 ht)
        fun b hb => has b (List.mem_cons_of_mem _ hb)

/-- Two properties of the steps agree on runs, as they do where the invariant
holds. -/
theorem observedSteps_iff (Inv : σ → Prop) {V : α → Prop} {P Q : σ → α → Prop} {s : σ}
    {as : List α} (hs : Inv s) (has : ∀ a ∈ as, V a)
    (hiff : ∀ s a, Inv s → V a → (P s a ↔ Q s a))
    (hinv : ∀ s a t es, Inv s → V a → P s a → step s a = some (t, es) → Inv t) :
    ObservedSteps step P s as ↔ ObservedSteps step Q s as := by
  constructor
  · intro h
    exact h.imp Inv hs has (fun s a hs ha => (hiff s a hs ha).mp) hinv
  · intro h
    refine h.imp Inv hs has (fun s a hs ha => (hiff s a hs ha).mpr) ?_
    exact fun s a t es hs ha hq ht => hinv s a t es hs ha ((hiff s a hs ha).mpr hq) ht

/-- What the steps of a run cost, at a price for each state. -/
def runCost (step : σ → α → Option (σ × List ε)) (cost : σ → Nat) : σ → List α → Nat
  | _, [] => 0
  | s, a :: as =>
      match step s a with
      | none => 0
      | some (t, _) => cost s + runCost step cost t as

theorem runCost_one {s t : σ} {as : List α} {es : List ε}
    (h : observe step s as = some (t, es)) : runCost step (fun _ => 1) s as = as.length := by
  induction as generalizing s es with
  | nil => rfl
  | cons a as ih =>
      obtain ⟨u, es₁, es₂, hu, hv, rfl⟩ := observe_cons h
      rw [runCost, hu]
      dsimp only
      rw [ih hv, List.length_cons, Nat.add_comm]

/-- A run costs no more than the potential that its steps pay from. -/
theorem runCost_le (Inv : σ → Prop) {P : σ → α → Prop} {cost potential : σ → Nat} {s : σ}
    {as : List α} (h : ObservedSteps step P s as) (hs : Inv s)
    (hstep : ∀ s a t es, Inv s → P s a → step s a = some (t, es) →
      Inv t ∧ cost s + potential t ≤ potential s) :
    runCost step cost s as ≤ potential s := by
  induction as generalizing s with
  | nil => exact Nat.zero_le _
  | cons a as ih =>
      rw [runCost]
      split
      · exact Nat.zero_le _
      · rename_i t es ht
        obtain ⟨hinv, hle⟩ := hstep s a t es hs h.1 ht
        have hrest := ih (h.2 t es ht) hinv
        omega

/-- What every step relates to its events, and what composes, holds of runs. -/
theorem observe_rel {R : σ → List ε → σ → Prop} (hrefl : ∀ s, R s [] s)
    (htrans : ∀ {s t u es es'}, R s es t → R t es' u → R s (es ++ es') u)
    (hstep : ∀ {s a t es}, step s a = some (t, es) → R s es t) {s t : σ} {as : List α}
    {es : List ε} (h : observe step s as = some (t, es)) : R s es t := by
  induction as generalizing s es with
  | nil =>
      cases h
      exact hrefl _
  | cons a as ih =>
      obtain ⟨u, es₁, es₂, hu, hv, rfl⟩ := observe_cons h
      exact htrans (hstep hu) (ih hv)

end Observed

end Run
