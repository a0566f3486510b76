import Mathlib.Data.Fintype.Card
import Mathlib.Data.Fintype.EquivFin
import Mathlib.Data.List.Forall2
import Mathlib.Logic.Relation
import Conquest.Smt.Assign

/-!
# Expand — substituting single assignments

`get_expanded` copies an expression and replaces every signal that has exactly
one assignment by the expanded right-hand side of that assignment, which is
remembered once it has been computed. The copies leave out some attributes of
their originals, and neither the bits a signal is read at nor the bits its
assignment writes enter the substitution.
-/

namespace Conquest

open Bv Relation

variable {S : Type} [DecidableEq S]

/-! ## `get_expanded` -/

/-- The attributes a node's copy keeps: `SMTUnary` loses its inversion,
`SMTBinary` its inversion and its bool wrapping, `SMTLogic` a flag that its
function already contains. -/
def SMTClass.expanded : SMTClass → SMTClass
  | .concat rep => .concat rep
  | .custom operand => .custom operand
  | .unary u => .unary { SMTUnary.new with opcode := u.opcode, func := u.func }
  | .binary b =>
      .binary { SMTBinary.new with opcode := b.opcode, func := b.func, isSigned := b.isSigned }
  | .logic l => .logic { opcode := l.opcode, isInverted := false, func := l.func }
  | .ternary => .ternary

/-- `expanded_rval` of the single assignment of each signal. -/
abbrev Memo (S : Type) := S → Option (SMTExpr S)

/-- The outcome of an expansion: the expression and the filled-in memo. -/
abbrev Expansion (S : Type) := Option (SMTExpr S × Memo S)

section GetExpanded

/-- `get_expanded_rval` of the single assignment `a` of `s`, with the expansion
of expressions it calls. -/
def getExpandedRval (expand : SMTExpr S → Memo S → Expansion S) (s : S) (a : SMTAssign S)
    (memo : Memo S) : Expansion S :=
  match memo s with
  | some e => some (e, memo)
  | none => (expand a.rval memo).map fun r => (r.1, Function.update r.2 s (some r.1))

omit [DecidableEq S] in
/-- The expansions of the elements of an `expr_list`, in order. -/
def expandList (expand : SMTExpr S → Memo S → Expansion S) :
    List (SMTExpr S) → Memo S → Option (List (SMTExpr S) × Memo S)
  | [], memo => some ([], memo)
  | e :: es, memo => do
      let (e', memo) ← expand e memo
      let (es', memo) ← expandList expand es memo
      return (e' :: es', memo)

variable (assignments : S → List (SMTAssign S))

/-- `get_expanded`, with a bound on the depth of the calls. -/
def getExpanded : Nat → SMTExpr S → Memo S → Expansion S
  | 0, _, _ => none
  | fuel + 1, .leaf (.signal sig), memo =>
      match assignments sig.parent with
      | [a] => getExpandedRval (getExpanded fuel) sig.parent a memo
      | _ => some (.leaf (.signal sig), memo)
  | _ + 1, .leaf l, memo => some (.leaf l, memo)
  | fuel + 1, .node cls es, memo =>
      (expandList (getExpanded fuel) es memo).map fun r => (.node cls.expanded r.1, r.2)

/-- The memos that calls of `get_expanded` which returned can leave. -/
inductive MemoReached : Memo S → Prop
  | empty : MemoReached fun _ => none
  | call {memo memo' : Memo S} {fuel : Nat} {e e' : SMTExpr S} (h : MemoReached memo)
      (hcall : getExpanded assignments fuel e memo = some (e', memo')) : MemoReached memo'

/-! ## Which signals an expansion visits -/

omit [DecidableEq S] in
/-- `s` is read, as a signal, somewhere in the expression. -/
inductive ReadsSignal (s : S) : SMTExpr S → Prop
  | leaf {sig : SMTSignal S} (h : sig.parent = s) : ReadsSignal s (.leaf (.signal sig))
  | node {cls : SMTClass} {es : List (SMTExpr S)} {e : SMTExpr S} (he : e ∈ es)
      (h : ReadsSignal s e) : ReadsSignal s (.node cls es)

/-- `s` has a single assignment, and its right-hand side reads `t`. -/
def DependsOn (s t : S) : Prop := ∃ a, assignments s = [a] ∧ ReadsSignal t a.rval

end GetExpanded

/-! ## Enough depth -/

variable {assignments : S → List (SMTAssign S)}

omit [DecidableEq S] in
theorem expandList_mono {expand expand' : SMTExpr S → Memo S → Expansion S}
    (h : ∀ e memo r, expand e memo = some r → expand' e memo = some r) {es : List (SMTExpr S)}
    {memo : Memo S} {r : List (SMTExpr S) × Memo S}
    (hr : expandList expand es memo = some r) : expandList expand' es memo = some r := by
  induction es generalizing memo r with
  | nil => exact hr
  | cons e es ih =>
      simp only [expandList, Option.bind_eq_bind, Option.bind_eq_some_iff] at hr ⊢
      obtain ⟨r₁, h₁, r₂, h₂, hret⟩ := hr
      exact ⟨r₁, h e memo r₁ h₁, r₂, ih h₂, hret⟩

theorem getExpandedRval_mono {expand expand' : SMTExpr S → Memo S → Expansion S}
    (h : ∀ e memo r, expand e memo = some r → expand' e memo = some r) {s : S}
    {a : SMTAssign S} {memo : Memo S} {r : SMTExpr S × Memo S}
    (hr : getExpandedRval expand s a memo = some r) :
    getExpandedRval expand' s a memo = some r := by
  unfold getExpandedRval at hr ⊢
  cases hm : memo s with
  | some e => rwa [hm] at hr
  | none =>
      rw [hm] at hr
      simp only [Option.map_eq_some_iff] at hr ⊢
      obtain ⟨r', hr', hret⟩ := hr
      exact ⟨r', h _ _ _ hr', hret⟩

/-- A deeper bound gives the same outcome. -/
theorem getExpanded_succ {fuel : Nat} {e : SMTExpr S} {memo : Memo S}
    {r : SMTExpr S × Memo S} (h : getExpanded assignments fuel e memo = some r) :
    getExpanded assignments (fuel + 1) e memo = some r := by
  induction fuel generalizing e memo r with
  | zero => simp [getExpanded] at h
  | succ fuel ih =>
      cases e with
      | node cls es =>
          rw [getExpanded, Option.map_eq_some_iff] at h ⊢
          obtain ⟨r', hr', hret⟩ := h
          exact ⟨r', expandList_mono (fun _ _ _ => ih) hr', hret⟩
      | leaf l =>
          cases l with
          | signal sig =>
              rw [getExpanded] at h ⊢
              split at h
              · exact getExpandedRval_mono (fun _ _ _ => ih) h
              · exact h
          | string str => exact h
          | unspecified => exact h
          | number n => exact h
          | array arr => exact h

theorem getExpanded_mono {fuel fuel' : Nat} (hle : fuel ≤ fuel') {e : SMTExpr S} {memo : Memo S}
    {r : SMTExpr S × Memo S} (h : getExpanded assignments fuel e memo = some r) :
    getExpanded assignments fuel' e memo = some r := by
  induction hle with
  | refl => exact h
  | step _ ih => exact getExpanded_succ ih

/-! ## What an expansion relates -/

/-- Every remembered right-hand side is related to its original. -/
def MemoSound (assignments : S → List (SMTAssign S)) (R : SMTExpr S → SMTExpr S → Prop)
    (memo : Memo S) : Prop :=
  ∀ s a e, assignments s = [a] → memo s = some e → R a.rval e

omit [DecidableEq S] in
theorem memoSound_empty (R : SMTExpr S → SMTExpr S → Prop) :
    MemoSound assignments R fun _ => none := by
  intro s a e _ h
  cases h

theorem MemoSound.update {R : SMTExpr S → SMTExpr S → Prop} {memo : Memo S}
    (h : MemoSound assignments R memo) {s : S} {a : SMTAssign S} (ha : assignments s = [a])
    {e : SMTExpr S} (he : R a.rval e) :
    MemoSound assignments R (Function.update memo s (some e)) := by
  intro s' a' e' ha' hmemo
  by_cases hs : s' = s
  · subst hs
    rw [ha] at ha'
    cases ha'
    rw [Function.update_self] at hmemo
    cases hmemo
    exact he
  · rw [Function.update_of_ne hs] at hmemo
    exact h s' a' e' ha' hmemo

omit [DecidableEq S] in
theorem expandList_rel {expand : SMTExpr S → Memo S → Expansion S}
    {R : SMTExpr S → SMTExpr S → Prop} {M : Memo S → Prop}
    (h : ∀ e memo e' memo', M memo → expand e memo = some (e', memo') → R e e' ∧ M memo')
    {es es' : List (SMTExpr S)} {memo memo' : Memo S} (hm : M memo)
    (hr : expandList expand es memo = some (es', memo')) :
    List.Forall₂ R es es' ∧ M memo' := by
  induction es generalizing memo es' memo' with
  | nil =>
      cases hr
      exact ⟨.nil, hm⟩
  | cons e es ih =>
      simp only [expandList, Option.bind_eq_bind, Option.bind_eq_some_iff] at hr
      obtain ⟨⟨e₁, memo₁⟩, h₁, ⟨es₂, memo₂⟩, h₂, hret⟩ := hr
      cases hret
      obtain ⟨hR, hM⟩ := h e memo e₁ memo₁ hm h₁
      obtain ⟨hRs, hMs⟩ := ih hM h₂
      exact ⟨.cons hR hRs, hMs⟩

/-- **Expansion rule.** A relation that holds of the leaves that stay, passes
from a single right-hand side to the signal, and from operands to the copied
node, holds between every expression and its expansion. -/
theorem getExpanded_rel {R : SMTExpr S → SMTExpr S → Prop}
    (hleaf : ∀ l, (∀ sig a, l = .signal sig → assignments sig.parent ≠ [a]) →
      R (.leaf l) (.leaf l))
    (hsig : ∀ sig a e, assignments sig.parent = [a] → R a.rval e → R (.leaf (.signal sig)) e)
    (hnode : ∀ cls es es', List.Forall₂ R es es' → R (.node cls es) (.node cls.expanded es'))
    {fuel : Nat} {e e' : SMTExpr S} {memo memo' : Memo S}
    (hm : MemoSound assignments R memo)
    (h : getExpanded assignments fuel e memo = some (e', memo')) :
    R e e' ∧ MemoSound assignments R memo' := by
  induction fuel generalizing e e' memo memo' with
  | zero => simp [getExpanded] at h
  | succ fuel ih =>
      cases e with
      | node cls es =>
          rw [getExpanded, Option.map_eq_some_iff] at h
          obtain ⟨⟨es', memo₁⟩, hes, hret⟩ := h
          cases hret
          have hstep : ∀ e memo e' memo', MemoSound assignments R memo →
              getExpanded assignments fuel e memo = some (e', memo') →
              R e e' ∧ MemoSound assignments R memo' :=
            fun _ _ _ _ hm h => ih hm h
          obtain ⟨hR, hM⟩ := expandList_rel hstep hm hes
          exact ⟨hnode cls es es' hR, hM⟩
      | leaf l =>
          cases l with
          | signal sig =>
              rw [getExpanded] at h
              split at h
              · rename_i a ha
                unfold getExpandedRval at h
                split at h
                · -- remembered by an earlier call
                  rename_i e₀ hmemo
                  cases h
                  exact ⟨hsig sig a e' ha (hm _ a e' ha hmemo), hm⟩
                · obtain ⟨⟨e₁, memo₁⟩, hrval, hret⟩ := Option.map_eq_some_iff.mp h
                  cases hret
                  obtain ⟨hR, hM⟩ := ih hm hrval
                  exact ⟨hsig sig a e₁ ha hR, hM.update ha hR⟩
              · rename_i hnot
                cases h
                refine ⟨hleaf _ fun sig' a hl ha => ?_, hm⟩
                cases hl
                exact hnot a ha
          | string str =>
              cases h
              exact ⟨hleaf _ (fun _ _ hl => nomatch hl), hm⟩
          | unspecified =>
              cases h
              exact ⟨hleaf _ (fun _ _ hl => nomatch hl), hm⟩
          | number n =>
              cases h
              exact ⟨hleaf _ (fun _ _ hl => nomatch hl), hm⟩
          | array arr =>
              cases h
              exact ⟨hleaf _ (fun _ _ hl => nomatch hl), hm⟩

/-! ## When the expansion returns -/

/-- Following single assignments from `s` comes to an end. -/
def Grounded (assignments : S → List (SMTAssign S)) (s : S) : Prop :=
  Acc (fun t s => DependsOn assignments s t) s

theorem forall₂_left {α β : Type} {R : α → β → Prop} {l : List α} {l' : List β}
    (h : List.Forall₂ R l l') {a : α} (ha : a ∈ l) : ∃ b, R a b := by
  induction h with
  | nil => cases ha
  | cons hab _ ih =>
      rcases List.mem_cons.mp ha with rfl | ha
      · exact ⟨_, hab⟩
      · exact ih ha

omit [DecidableEq S] in
theorem forall_reads_node {P : S → Prop} {cls : SMTClass} {es : List (SMTExpr S)} :
    (∀ s, ReadsSignal s (.node cls es) → P s) ↔ ∀ e ∈ es, ∀ s, ReadsSignal s e → P s := by
  constructor
  · intro h e he s hs
    exact h s (.node he hs)
  · intro h s hs
    cases hs with
    | node he hs => exact h _ he s hs

/-- An expansion that returned visited grounded signals only. -/
theorem grounded_of_getExpanded {fuel : Nat} {e e' : SMTExpr S} {memo memo' : Memo S}
    (hm : MemoSound assignments (fun e _ => ∀ s, ReadsSignal s e → Grounded assignments s) memo)
    (h : getExpanded assignments fuel e memo = some (e', memo')) :
    (∀ s, ReadsSignal s e → Grounded assignments s) ∧
      MemoSound assignments (fun e _ => ∀ s, ReadsSignal s e → Grounded assignments s) memo' := by
  refine getExpanded_rel ?_ ?_ ?_ hm h
  · intro l hl s hs
    cases hs with
    | leaf hparent =>
        refine Acc.intro s fun t ht => ?_
        obtain ⟨a, ha, -⟩ := ht
        exact absurd (hparent ▸ ha) (hl _ a rfl)
  · intro sig a e ha hR s hs
    cases hs with
    | leaf hparent =>
        subst hparent
        refine Acc.intro _ fun t ht => ?_
        obtain ⟨a', ha', ht⟩ := ht
        rw [ha] at ha'
        cases ha'
        exact hR t ht
  · intro cls es es' hR
    rw [forall_reads_node]
    intro e he
    obtain ⟨e', hRe⟩ := forall₂_left hR he
    exact hRe

/-- The expansion returns, whatever has been remembered. -/
def Returns (assignments : S → List (SMTAssign S)) (e : SMTExpr S) : Prop :=
  ∀ memo, ∃ fuel r, getExpanded assignments fuel e memo = some r

theorem expandList_returns {es : List (SMTExpr S)} (h : ∀ e ∈ es, Returns assignments e)
    (memo : Memo S) : ∃ fuel r, expandList (getExpanded assignments fuel) es memo = some r := by
  induction es generalizing memo with
  | nil => exact ⟨0, _, rfl⟩
  | cons e es ih =>
      obtain ⟨n, r, hr⟩ := h e List.mem_cons_self memo
      obtain ⟨m, rs, hrs⟩ := ih (fun e he => h e (List.mem_cons_of_mem _ he)) r.2
      have hhead := getExpanded_mono (Nat.le_max_left n m) hr
      have htail := expandList_mono
        (fun _ _ _ => getExpanded_mono (Nat.le_max_right n m)) hrs
      refine ⟨max n m, (r.1 :: rs.1, rs.2), ?_⟩
      simp only [expandList, hhead, Option.bind_eq_bind, Option.bind_some, htail]
      rfl

/-- An expression returns when the signals it reads do. -/
theorem returns_of_signals {e : SMTExpr S}
    (h : ∀ sig : SMTSignal S, ReadsSignal sig.parent e →
      Returns assignments (.leaf (.signal sig))) : Returns assignments e := by
  induction e using SMTExpr.induct with
  | hleaf l =>
      intro memo
      cases l with
      | signal sig => exact h sig (.leaf rfl) memo
      | string str => exact ⟨1, _, rfl⟩
      | unspecified => exact ⟨1, _, rfl⟩
      | number n => exact ⟨1, _, rfl⟩
      | array arr => exact ⟨1, _, rfl⟩
  | hnode cls es ih =>
      intro memo
      obtain ⟨fuel, r, hr⟩ :=
        expandList_returns (fun e he => ih e he fun sig hs => h sig (.node he hs)) memo
      exact ⟨fuel + 1, _, by rw [getExpanded, hr]; rfl⟩

theorem getExpanded_single {sig : SMTSignal S} {a : SMTAssign S}
    (ha : assignments sig.parent = [a]) (fuel : Nat) (memo : Memo S) :
    getExpanded assignments (fuel + 1) (.leaf (.signal sig)) memo =
      getExpandedRval (getExpanded assignments fuel) sig.parent a memo := by
  rw [getExpanded, ha]

theorem getExpanded_not_single {sig : SMTSignal S} (h : ∀ a, assignments sig.parent ≠ [a])
    (fuel : Nat) (memo : Memo S) :
    getExpanded assignments (fuel + 1) (.leaf (.signal sig)) memo =
      some (.leaf (.signal sig), memo) := by
  rw [getExpanded]
  split
  · rename_i a ha
    exact absurd ha (h a)
  · rfl

/-- `get_expanded_rval` returns once the expansion of the right-hand side does. -/
theorem getExpandedRval_returns {s : S} {a : SMTAssign S} (h : Returns assignments a.rval)
    (memo : Memo S) : ∃ fuel r, getExpandedRval (getExpanded assignments fuel) s a memo = some r := by
  cases hmemo : memo s with
  | some e => exact ⟨0, (e, memo), by simp [getExpandedRval, hmemo]⟩
  | none =>
      obtain ⟨fuel, r, hr⟩ := h memo
      exact ⟨fuel, (r.1, Function.update r.2 s (some r.1)), by simp [getExpandedRval, hmemo, hr]⟩

theorem returns_signal {s : S} (h : Grounded assignments s) {sig : SMTSignal S}
    (hparent : sig.parent = s) : Returns assignments (.leaf (.signal sig)) := by
  induction h generalizing sig with
  | intro s _ ih =>
      intro memo
      by_cases hsingle : ∃ a, assignments sig.parent = [a]
      · obtain ⟨a, ha⟩ := hsingle
        have hrval : Returns assignments a.rval := by
          refine returns_of_signals fun sig' hs => ?_
          exact ih sig'.parent ⟨a, hparent ▸ ha, hs⟩ rfl
        obtain ⟨fuel, r, hr⟩ := getExpandedRval_returns hrval memo
        exact ⟨fuel + 1, r, (getExpanded_single ha fuel memo).trans hr⟩
      · have hnot : ∀ a, assignments sig.parent ≠ [a] := fun a ha => hsingle ⟨a, ha⟩
        exact ⟨1, _, getExpanded_not_single hnot 0 memo⟩

theorem memoSound_of_reached {memo : Memo S} (h : MemoReached assignments memo) :
    MemoSound assignments (fun e _ => ∀ s, ReadsSignal s e → Grounded assignments s) memo := by
  induction h with
  | empty => exact memoSound_empty _
  | call _ hcall ih => exact (grounded_of_getExpanded ih hcall).2

theorem returns_iff_grounded {memo : Memo S} (hmemo : MemoReached assignments memo)
    (e : SMTExpr S) :
    (∃ fuel r, getExpanded assignments fuel e memo = some r) ↔
      ∀ s, ReadsSignal s e → Grounded assignments s := by
  constructor
  · rintro ⟨fuel, ⟨e', memo'⟩, hr⟩
    exact (grounded_of_getExpanded (memoSound_of_reached hmemo) hr).1
  · intro h
    exact returns_of_signals (fun sig hs => returns_signal (h _ hs) rfl) memo

omit [DecidableEq S] in
theorem Grounded.of_reachable {s t : S} (h : Grounded assignments s)
    (hst : ReflTransGen (DependsOn assignments) s t) : Grounded assignments t := by
  induction hst with
  | refl => exact h
  | tail _ hdep ih => exact ih.inv hdep

omit [DecidableEq S] in
theorem Grounded.not_cyclic {s : S} (h : Grounded assignments s) :
    ¬ TransGen (DependsOn assignments) s s := by
  have hacc := Acc.transGen h
  induction hacc with
  | intro s _ ih =>
      intro hcycle
      exact ih s (transGen_swap.mpr hcycle) h hcycle

omit [DecidableEq S] in
/-- In a finite design, a signal is grounded when no cycle is reachable from it. -/
theorem grounded_iff_acyclic [Finite S] {s : S} :
    Grounded assignments s ↔
      ∀ t, ReflTransGen (DependsOn assignments) s t →
        ¬ TransGen (DependsOn assignments) t t := by
  constructor
  · intro h t hst
    exact (h.of_reachable hst).not_cyclic
  · intro hacyclic
    -- strictly below a signal reachable from `s`: a well-founded order
    let below (u t : S) : Prop :=
      ReflTransGen (DependsOn assignments) s t ∧ TransGen (DependsOn assignments) t u
    have htrans : IsTrans S below :=
      ⟨fun _ _ _ huv hvw => ⟨hvw.1, hvw.2.trans huv.2⟩⟩
    have hirrefl : Std.Irrefl below := ⟨fun t ht => hacyclic t ht.1 ht.2⟩
    have hwf : WellFounded below := Finite.wellFounded_of_trans_of_irrefl below
    suffices hall : ∀ t, ReflTransGen (DependsOn assignments) s t → Grounded assignments t from
      hall s .refl
    intro t
    induction t using hwf.induction with
    | _ t ih =>
        intro hst
        exact Acc.intro t fun u htu => ih u ⟨hst, .single htu⟩ (hst.tail htu)

/-- **Termination of `get_expanded`.** In a finite design, whatever earlier calls
have remembered, the expansion of an expression returns exactly when no cycle of
single assignments is reachable from a signal it reads; `get_expanded_rval` of
the single assignment of `s` returns exactly when none is reachable from `s`. -/
theorem getExpanded_returns_iff [Finite S] {memo : Memo S}
    (hmemo : MemoReached assignments memo) :
    (∀ e : SMTExpr S, (∃ fuel r, getExpanded assignments fuel e memo = some r) ↔
      ∀ s t, ReadsSignal s e → ReflTransGen (DependsOn assignments) s t →
        ¬ TransGen (DependsOn assignments) t t) ∧
    ∀ s a, assignments s = [a] →
      ((∃ fuel r, getExpandedRval (getExpanded assignments fuel) s a memo = some r) ↔
        ∀ t, ReflTransGen (DependsOn assignments) s t →
          ¬ TransGen (DependsOn assignments) t t) := by
  have hexpr : ∀ e : SMTExpr S, (∃ fuel r, getExpanded assignments fuel e memo = some r) ↔
      ∀ s t, ReadsSignal s e → ReflTransGen (DependsOn assignments) s t →
        ¬ TransGen (DependsOn assignments) t t := by
    intro e
    rw [returns_iff_grounded hmemo e]
    constructor
    · intro h s t hs
      exact grounded_iff_acyclic.mp (h s hs) t
    · intro h s hs
      exact grounded_iff_acyclic.mpr fun t => h s t hs
  refine ⟨hexpr, fun s a ha => ?_⟩
  -- the expansion of a single assignment is that of its signal, one call deeper
  have hsig : ∀ t, ReadsSignal t (.leaf (.signal (⟨s, 0, 0, false⟩ : SMTSignal S))) ↔ t = s := by
    intro t
    constructor
    · rintro ⟨rfl⟩
      rfl
    · rintro rfl
      exact .leaf rfl
  constructor
  · rintro ⟨fuel, r, hr⟩
    have hleaf : getExpanded assignments (fuel + 1) (.leaf (.signal ⟨s, 0, 0, false⟩)) memo =
        some r :=
      (getExpanded_single ha fuel memo).trans hr
    intro t
    exact (hexpr _).mp ⟨fuel + 1, r, hleaf⟩ s t ((hsig s).mpr rfl)
  · intro h
    have hground : Grounded assignments s := grounded_iff_acyclic.mpr h
    refine getExpandedRval_returns (returns_of_signals fun sig hs => ?_) memo
    exact returns_signal (hground.inv ⟨a, ha, hs⟩) rfl

/-- A register of one bit that its only assignment inverts. -/
def toggleAssignments : Unit → List (SMTAssign Unit) := fun _ =>
  [{ id := 0
     target := .assign false (.signal ⟨(), 0, 0, false⟩ none)
     rval := .node (.unary { SMTUnary.new with opcode := "bv-not", func := some (.op .not) })
      [.leaf (.signal ⟨(), 0, 0, false⟩)]
     process := 0
     block := 0 }]

/-- The expansion of the register never returns. -/
theorem toggle_not_returns :
    ¬ ∃ fuel r, getExpanded toggleAssignments fuel (.leaf (.signal ⟨(), 0, 0, false⟩))
      (fun _ => none) = some r := by
  rw [returns_iff_grounded .empty]
  intro h
  have hground := h () (.leaf rfl)
  refine hground.not_cyclic (.single ⟨_, rfl, ?_⟩)
  exact .node List.mem_cons_self (.leaf rfl)

/-- A wire, `true`, that inverts an input, `false`. -/
def wireAssignments : Bool → List (SMTAssign Bool)
  | true =>
      [{ id := 0
         target := .assign true (.signal ⟨true, 0, 0, false⟩ none)
         rval := .node (.unary { SMTUnary.new with opcode := "bv-not", func := some (.op .not) })
          [.leaf (.signal ⟨false, 0, 0, false⟩)]
         process := 0
         block := 0 }]
  | false => []

/-- The expansion of the wire returns. -/
theorem wire_returns :
    ∃ fuel r, getExpanded wireAssignments fuel (.leaf (.signal ⟨true, 0, 0, false⟩))
      (fun _ => none) = some r := by
  have h := @getExpanded_returns_iff Bool _ wireAssignments _ _ .empty
  refine (h.1 _).mpr ?_
  intro s t _ _ hcycle
  have hdep : ∀ {p q}, DependsOn wireAssignments p q → p = true ∧ q = false := by
    rintro p q ⟨a, ha, hread⟩
    cases p with
    | false => cases ha
    | true =>
        cases ha
        cases hread with
        | node he hread =>
            rw [List.mem_singleton.mp he] at hread
            cases hread with
            | leaf hq => exact ⟨rfl, hq.symm⟩
  have hpath : ∀ {p q}, TransGen (DependsOn wireAssignments) p q → p = true ∧ q = false := by
    intro p q hpq
    induction hpq with
    | single hpq => exact hdep hpq
    | tail _ hqr ih => exact ⟨ih.1, (hdep hqr).2⟩
  obtain ⟨rfl, ht⟩ := hpath hcycle
  cases ht

end Conquest
