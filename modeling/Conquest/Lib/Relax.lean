import Mathlib.Algebra.BigOperators.Fin
import Mathlib.Algebra.Order.BigOperators.Group.Finset
import Mathlib.Data.ENat.Lattice

/-!
# Relax — least distances by relaxing from a queue

Labels start at a cap, at zero in the start vertex. A vertex taken from the
queue offers its label plus the weight of the edge to each of its successors; a
successor whose label is improved is queued again. The queue runs empty, and the
labels are then the least total weights of walks, or the cap.
-/

namespace Relax

variable {V : Type*}

/-! ## Walks -/

/-- A walk from `t`, with its total weight. -/
inductive Walk (next : V → List (V × Nat)) (t : V) : V → Nat → Prop
  | start : Walk next t t 0
  | step {u v : V} {n w : Nat} (h : Walk next t u n) (he : (v, w) ∈ next u) :
      Walk next t v (n + w)

/-- The least total weight of a walk, `⊤` where there is none. -/
noncomputable def least (next : V → List (V × Nat)) (t v : V) : ℕ∞ :=
  ⨅ n : {n : Nat // Walk next t v n}, (n.1 : ℕ∞)

theorem least_le {next : V → List (V × Nat)} {t v : V} {n : Nat} (h : Walk next t v n) :
    least next t v ≤ n := iInf_le (fun n : {n : Nat // Walk next t v n} => (n.1 : ℕ∞)) ⟨n, h⟩

theorem le_least {next : V → List (V × Nat)} {t v : V} {d : ℕ∞}
    (h : ∀ n, Walk next t v n → d ≤ n) : d ≤ least next t v := le_iInf fun n => h n.1 n.2

theorem Walk.mono {next next' : V → List (V × Nat)} (hsub : ∀ u, next u ⊆ next' u) {t v : V}
    {n : Nat} (h : Walk next t v n) : Walk next' t v n := by
  induction h with
  | start => exact .start
  | step _ he ih => exact ih.step (hsub _ he)

theorem least_anti {next next' : V → List (V × Nat)} (hsub : ∀ u, next u ⊆ next' u) (t v : V) :
    least next' t v ≤ least next t v := le_least fun _ h => least_le (h.mono hsub)

/-- Labels that no edge improves are below the weights of all walks. -/
theorem Walk.label_le {next : V → List (V × Nat)} {t v : V} {n : Nat} (h : Walk next t v n)
    {d : V → Nat} (hstart : d t = 0) (hedge : ∀ u, ∀ e ∈ next u, d e.1 ≤ d u + e.2) :
    d v ≤ n := by
  induction h with
  | start => exact hstart.le
  | step _ he ih => exact (hedge _ _ he).trans (Nat.add_le_add_right ih _)

/-- The least weights, capped, are what no edge improves and walks reach. -/
theorem eq_min_least {next : V → List (V × Nat)} {t : V} {cap : Nat} {d : V → Nat}
    (hstart : d t = 0) (hcap : ∀ v, d v ≤ cap) (hwalk : ∀ v, d v < cap → Walk next t v (d v))
    (hedge : ∀ u, ∀ e ∈ next u, d e.1 ≤ d u + e.2) (v : V) :
    (d v : ℕ∞) = min (cap : ℕ∞) (least next t v) := by
  refine le_antisymm (le_min (by exact_mod_cast hcap v) (le_least fun n hn => ?_)) ?_
  · exact_mod_cast hn.label_le hstart hedge
  · rcases Nat.lt_or_ge (d v) cap with hlt | hge
    · exact (min_le_right _ _).trans (least_le (hwalk v hlt))
    · exact (min_le_left _ _).trans (by exact_mod_cast hge)

theorem exists_walk {next : V → List (V × Nat)} {t v : V} {n : Nat}
    (h : least next t v = n) : Walk next t v n := by
  by_cases hne : Nonempty {n : Nat // Walk next t v n}
  · obtain ⟨⟨m, hm⟩, heq⟩ := ENat.exists_eq_iInf fun n : {n : Nat // Walk next t v n} => (n.1 : ℕ∞)
    obtain rfl : m = n := by exact_mod_cast heq.trans h
    exact hm
  · have htop : least next t v = ⊤ := by
      have hempty := not_nonempty_iff.mp hne
      exact iInf_of_empty fun n : {n : Nat // Walk next t v n} => (n.1 : ℕ∞)
    exact absurd (htop.symm.trans h) (ENat.top_ne_natCast n)

theorem least_start (next : V → List (V × Nat)) (t : V) : least next t t = 0 :=
  le_antisymm (least_le .start) zero_le

/-- The triangle inequality of one edge. -/
theorem least_step {next : V → List (V × Nat)} {t u v : V} {w : Nat} (he : (v, w) ∈ next u) :
    least next t v ≤ least next t u + w := by
  cases hu : least next t u with
  | top => exact le_top
  | coe n => exact_mod_cast least_le ((exists_walk hu).step he)

/-- **More edges.** They leave the capped least weights as they are exactly when
none of them is a shortcut. -/
theorem min_least_eq_iff {next next' : V → List (V × Nat)} (hsub : ∀ u, next u ⊆ next' u)
    (cap : ℕ∞) (t : V) :
    (∀ v, min cap (least next t v) = min cap (least next' t v)) ↔
      ∀ u, ∀ e ∈ next' u, min cap (least next t e.1) ≤ least next t u + e.2 := by
  constructor
  · intro h u e he
    have hstep : least next' t e.1 ≤ least next' t u + e.2 := least_step he
    rw [h e.1]
    exact (min_le_right _ _).trans (hstep.trans (add_le_add_left (least_anti hsub t u) _))
  · intro h v
    refine le_antisymm (le_min (min_le_left _ _) (le_least fun n hn => ?_))
      (min_le_min_left _ (least_anti hsub t v))
    -- no walk is lighter, by induction on it
    induction hn with
    | start => exact (min_le_right _ _).trans (least_start next t).le
    | @step u v n w _ he ih =>
        rw [Nat.cast_add]
        rcases min_le_iff.mp ih with hcap | hle
        · exact (min_le_left _ _).trans (hcap.trans le_self_add)
        · exact (h u (v, w) he).trans (add_le_add_left hle _)

/-! ## The loop -/

section Loop

variable [DecidableEq V]

/-- The labels and the queue. -/
abbrev State (V : Type*) := (V → Nat) × List V

def relaxEdge (base : Nat) (s : State V) (e : V × Nat) : State V :=
  if base + e.2 < s.1 e.1 then (Function.update s.1 e.1 (base + e.2), s.2 ++ [e.1]) else s

/-- The edges of a vertex whose label is `base`. -/
def relax (base : Nat) (es : List (V × Nat)) (s : State V) : State V :=
  es.foldl (relaxEdge base) s

def run (next : V → List (V × Nat)) : Nat → State V → Option (V → Nat)
  | 0, _ => none
  | _ + 1, (d, []) => some d
  | fuel + 1, (d, u :: q) => run next fuel (relax (d u) (next u) (d, q))

def start (cap : Nat) (t : V) : State V := (Function.update (fun _ => cap) t 0, [t])

theorem start_self (cap : Nat) (t : V) : (start cap t).1 t = 0 :=
  Function.update_self t 0 fun _ => cap

theorem start_of_ne (cap : Nat) {t v : V} (h : v ≠ t) : (start cap t).1 v = cap :=
  Function.update_of_ne h 0 fun _ => cap

theorem start_le (cap : Nat) (t v : V) : (start cap t).1 v ≤ cap := by
  by_cases hv : v = t
  · rw [hv, start_self]
    exact Nat.zero_le cap
  · exact (start_of_ne cap hv).le

/-! ## What relaxing does -/

/-- Labels go down, to what the edges offer, and a vertex with a new label is in
the queue. -/
structure Relaxed (base : Nat) (es : List (V × Nat)) (s s' : State V) : Prop where
  edge : ∀ e ∈ es, s'.1 e.1 ≤ base + e.2
  label : ∀ v, s'.1 v = s.1 v ∨
    s'.1 v < s.1 v ∧ v ∈ s'.2 ∧ ∃ w, (v, w) ∈ es ∧ s'.1 v = base + w
  queue : s.2 ⊆ s'.2
  added : ∀ v ∈ s'.2, v ∈ s.2 ∨ s'.1 v < s.1 v

omit [DecidableEq V] in
theorem Relaxed.le {base : Nat} {es : List (V × Nat)} {s s' : State V}
    (h : Relaxed base es s s') (v : V) : s'.1 v ≤ s.1 v := by
  rcases h.label v with heq | ⟨hlt, -⟩
  · exact heq.le
  · exact hlt.le

theorem relaxed_relaxEdge (base : Nat) (s : State V) (e : V × Nat) :
    Relaxed base [e] s (relaxEdge base s e) := by
  unfold relaxEdge
  split
  · rename_i hlt
    refine ⟨?_, fun v => ?_, List.subset_append_left _ _, fun v hv => ?_⟩
    · intro e' he'
      obtain rfl := List.mem_singleton.mp he'
      exact (Function.update_self ..).le
    · by_cases hv : v = e.1
      · subst hv
        dsimp only
        rw [Function.update_self]
        exact .inr ⟨hlt, List.mem_append_right _ List.mem_cons_self, e.2, List.mem_cons_self, rfl⟩
      · exact .inl (Function.update_of_ne hv ..)
    · rcases List.mem_append.mp hv with hv | hv
      · exact .inl hv
      · obtain rfl := List.mem_singleton.mp hv
        dsimp only
        rw [Function.update_self]
        exact .inr hlt
  · rename_i hge
    refine ⟨?_, fun v => .inl rfl, List.Subset.refl _, fun v hv => .inl hv⟩
    intro e' he'
    obtain rfl := List.mem_singleton.mp he'
    exact Nat.le_of_not_lt hge

omit [DecidableEq V] in
theorem Relaxed.trans {base : Nat} {es es' : List (V × Nat)} {s s' s'' : State V}
    (h : Relaxed base es s s') (h' : Relaxed base es' s' s'') :
    Relaxed base (es ++ es') s s'' := by
  refine ⟨?_, fun v => ?_, fun v hv => h'.queue (h.queue hv), fun v hv => ?_⟩
  · intro e he
    rcases List.mem_append.mp he with he | he
    · exact (h'.le e.1).trans (h.edge e he)
    · exact h'.edge e he
  · rcases h'.label v with heq | ⟨hlt, hmem, w, hw, heq⟩
    · rw [heq]
      refine (h.label v).imp_right ?_
      rintro ⟨hlt, hmem, w, hw, hlabel⟩
      exact ⟨hlt, h'.queue hmem, w, List.mem_append_left _ hw, hlabel⟩
    · exact .inr ⟨hlt.trans_le (h.le v), hmem, w, List.mem_append_right _ hw, heq⟩
  · rcases h'.added v hv with hv | hlt
    · exact (h.added v hv).imp_right (h'.le v).trans_lt
    · exact .inr (hlt.trans_le (h.le v))

theorem relaxed_relax (base : Nat) (es : List (V × Nat)) (s : State V) :
    Relaxed base es s (relax base es s) := by
  induction es generalizing s with
  | nil =>
      exact ⟨fun e he => absurd he List.not_mem_nil, fun v => .inl rfl, List.Subset.refl _,
        fun v hv => .inl hv⟩
  | cons e es ih => exact (relaxed_relaxEdge base s e).trans (ih _)

/-! ## The invariant -/

/-- What holds whenever a vertex is about to be taken from the queue: labels
below the cap are weights of walks, and the edges of the vertices that are not
queued improve nothing. -/
structure Inv (next : V → List (V × Nat)) (cap : Nat) (t : V) (s : State V) : Prop where
  start : s.1 t = 0
  le_cap : ∀ v, s.1 v ≤ cap
  walk : ∀ v, s.1 v < cap → Walk next t v (s.1 v)
  queued : ∀ v ∈ s.2, s.1 v < cap
  relaxed : ∀ u, u ∉ s.2 → s.1 u < cap → ∀ e ∈ next u, s.1 e.1 ≤ s.1 u + e.2

theorem inv_start {next : V → List (V × Nat)} {cap : Nat} (hcap : 0 < cap) (t : V) :
    Inv next cap t (start cap t) := by
  refine ⟨start_self cap t, start_le cap t, fun v hv => ?_, fun v hv => ?_, fun u hu hlt => ?_⟩
  · by_cases hvt : v = t
    · rw [hvt, start_self]
      exact .start
    · rw [start_of_ne cap hvt] at hv
      exact absurd hv (Nat.lt_irrefl cap)
  · obtain rfl := List.mem_singleton.mp hv
    exact (start_self cap v).trans_lt hcap
  · have hut : u ≠ t := fun h => hu (h ▸ List.mem_cons_self)
    rw [start_of_ne cap hut] at hlt
    exact absurd hlt (Nat.lt_irrefl cap)

/-- **One vertex.** -/
theorem Inv.step {next : V → List (V × Nat)} {cap : Nat} {t u : V} {d : V → Nat} {q : List V}
    (h : Inv next cap t (d, u :: q)) : Inv next cap t (relax (d u) (next u) (d, q)) := by
  have hu : d u < cap := h.queued u List.mem_cons_self
  have hrelaxed := relaxed_relax (d u) (next u) (d, q)
  generalize relax (d u) (next u) (d, q) = s at hrelaxed
  refine ⟨?_, fun v => (hrelaxed.le v).trans (h.le_cap v), fun v hv => ?_, fun v hv => ?_,
    fun x hx hlt e he => ?_⟩
  · exact Nat.le_zero.mp ((hrelaxed.le t).trans h.start.le)
  · rcases hrelaxed.label v with heq | ⟨-, -, w, hw, heq⟩
    · rw [heq] at hv ⊢
      exact h.walk v hv
    · rw [heq]
      exact (h.walk u hu).step hw
  · rcases hrelaxed.added v hv with hv | hlt
    · exact (hrelaxed.le v).trans_lt (h.queued v (List.mem_cons_of_mem _ hv))
    · exact hlt.trans_le (h.le_cap v)
  · -- a vertex that is not queued has kept its label
    have heq : s.1 x = d x := by
      rcases hrelaxed.label x with heq | ⟨-, hmem, -⟩
      · exact heq
      · exact absurd hmem hx
    rw [heq] at hlt ⊢
    by_cases hxu : x = u
    · subst hxu
      exact hrelaxed.edge e he
    · have hnot : x ∉ u :: q := by
        rintro (_ | ⟨_, hmem⟩)
        · exact hxu rfl
        · exact hx (hrelaxed.queue hmem)
      exact (hrelaxed.le e.1).trans (h.relaxed x hnot hlt e he)

omit [DecidableEq V] in
/-- With an empty queue the labels are the least weights. -/
theorem Inv.eq_least {next : V → List (V × Nat)} {cap : Nat} {t : V} {d : V → Nat}
    (h : Inv next cap t (d, [])) (v : V) : (d v : ℕ∞) = min (cap : ℕ∞) (least next t v) := by
  refine eq_min_least h.start h.le_cap h.walk (fun u e he => ?_) v
  rcases Nat.lt_or_ge (d u) cap with hlt | hge
  · exact h.relaxed u List.not_mem_nil hlt e he
  · exact (h.le_cap e.1).trans (Nat.le_add_right_of_le hge)

/-! ## Termination -/

section Finite

variable [Fintype V]

/-- Every improved label is paid for by one more entry of the queue at most. -/
def size (s : State V) : Nat := ∑ v, s.1 v + s.2.length

theorem size_relaxEdge_le (base : Nat) (s : State V) (e : V × Nat) :
    size (relaxEdge base s e) ≤ size s := by
  unfold relaxEdge
  split
  · rename_i hlt
    have hsum : ∑ v, Function.update s.1 e.1 (base + e.2) v < ∑ v, s.1 v := by
      refine Finset.sum_lt_sum (fun v _ => ?_) ⟨e.1, Finset.mem_univ _, ?_⟩
      · by_cases hv : v = e.1
        · subst hv
          rw [Function.update_self]
          exact hlt.le
        · exact (Function.update_of_ne hv ..).le
      · rw [Function.update_self]
        exact hlt
    simp only [size, List.length_append, List.length_singleton]
    omega
  · exact le_rfl

theorem size_relax_le (base : Nat) (es : List (V × Nat)) (s : State V) :
    size (relax base es s) ≤ size s := by
  induction es generalizing s with
  | nil => exact le_rfl
  | cons e es ih => exact (ih _).trans (size_relaxEdge_le base s e)

/-- The loop ends, with the least weights. -/
theorem Inv.run {next : V → List (V × Nat)} {cap : Nat} {t : V} {s : State V} {fuel : Nat}
    (h : Inv next cap t s) (hfuel : size s < fuel) :
    ∃ d, run next fuel s = some d ∧
      ∀ v, (d v : ℕ∞) = min (cap : ℕ∞) (least next t v) := by
  induction fuel generalizing s with
  | zero => exact absurd hfuel (Nat.not_lt_zero _)
  | succ fuel ih =>
      obtain ⟨d, q⟩ := s
      cases q with
      | nil => exact ⟨d, rfl, h.eq_least⟩
      | cons u q =>
          refine ih h.step ?_
          have hle := size_relax_le (d u) (next u) (d, q)
          simp only [size, List.length_cons] at hle hfuel ⊢
          omega

theorem size_start_le (cap : Nat) (t : V) :
    size (start cap t) ≤ Fintype.card V * cap + 1 := by
  have hsum := Finset.sum_le_card_nsmul Finset.univ (start cap t).1 cap
    fun v _ => start_le cap t v
  rw [Finset.card_univ, smul_eq_mul] at hsum
  exact Nat.add_le_add_right hsum 1

end Finite

end Loop

end Relax
