import Conquest.Flow.Prepare
import Conquest.Lib.Worklist

/-!
# Realign — what `edge_realignment` does to the predecessors

The blocks wait in a queue that takes each of them once. An arm that comes to
the front asks the solver about every assignment to a state variable of its
condition. With the first positive answer its predecessors are cleared, and the
blocks of the assignments with positive answers take their place.
-/

namespace Conquest

namespace ControlFlow

open Worklist

variable {B : Type} [DecidableEq B] {c : ControlFlow B} {sat : Nat → Bool}

/-! ## Runs of the loop -/

/-- The loop, with the blocks that it takes from the queue. -/
inductive Dequeues (c : ControlFlow B) (sat : Nat → Bool) :
    Realign B → List B → Realign B → Prop
  | done {s : Realign B} (hqueue : s.queForUpdateEdge = []) : Dequeues c sat s [] s
  | next {s s' : Realign B} {current : B} {queue blocks : List B}
      (hqueue : s.queForUpdateEdge = current :: queue)
      (hrest : Dequeues c sat
        (c.updateEdge sat current { s with queForUpdateEdge := queue }) blocks s') :
      Dequeues c sat s (current :: blocks) s'

theorem dequeues_of_realignLoop {fuel : Nat} {s s' : Realign B}
    (h : c.realignLoop sat fuel s = some s') : ∃ blocks, Dequeues c sat s blocks s' := by
  induction fuel generalizing s with
  | zero => cases h
  | succ fuel ih =>
      rw [realignLoop] at h
      split at h
      · rename_i hqueue
        obtain rfl := Option.some.inj h
        exact ⟨[], .done hqueue⟩
      · rename_i current queue hqueue
        obtain ⟨blocks, hrest⟩ := ih h
        exact ⟨current :: blocks, .next hqueue hrest⟩

/-! ## What one block does -/

namespace Realign

/-- The flags and the queue. -/
def work (s : Realign B) : Work B := ⟨s.isEdgeUpdated, s.queForUpdateEdge⟩

theorem grows_push {b : B} {s : Realign B} (h : s.isEdgeUpdated b = false) :
    Grows s.work (s.push b).work := by
  refine ⟨[b], rfl, List.nodup_singleton b, ?_, fun v => ?_⟩
  · intro v hv
    rw [List.mem_singleton.mp hv]
    exact h
  · show Function.update s.isEdgeUpdated b true v = true ↔ s.isEdgeUpdated v = true ∨ _
    rw [List.mem_singleton]
    by_cases hv : v = b
    · rw [hv, Function.update_self]
      simp
    · rw [Function.update_of_ne hv]
      simp [hv]

theorem grows_pushNew (b : B) (s : Realign B) : Grows s.work (s.pushNew b).work := by
  unfold pushNew
  split
  · exact .refl _
  · rename_i hb
    exact grows_push (Bool.eq_false_of_not_eq_true hb)

theorem pushNew_predecessors (b : B) (s : Realign B) :
    (s.pushNew b).predecessors = s.predecessors := by
  unfold pushNew
  split
  · rfl
  · rfl

theorem pushNew_calls (b : B) (s : Realign B) : (s.pushNew b).calls = s.calls := by
  unfold pushNew
  split
  · rfl
  · rfl

/-- The state after a positive answer. -/
def hit (block : B) (onlyEdge : Bool) (assign : B) (s : Realign B) : Realign B :=
  let preds := if onlyEdge then [] else s.predecessors block
  pushNew assign
    { s with
      calls := s.calls + 1
      predecessors := Function.update s.predecessors block (preds.insert assign) }

theorem tryAssign_of_sat {sat : Nat → Bool} {s : Realign B} (h : sat s.calls = true) (block : B)
    (onlyEdge : Bool) (assign : B) :
    tryAssign sat block (s, onlyEdge) assign = (s.hit block onlyEdge assign, false) := if_pos h

theorem tryAssign_of_unsat {sat : Nat → Bool} {s : Realign B} (h : ¬ sat s.calls = true)
    (block : B) (onlyEdge : Bool) (assign : B) :
    tryAssign sat block (s, onlyEdge) assign = ({ s with calls := s.calls + 1 }, onlyEdge) :=
  if_neg h

theorem grows_hit (block : B) (onlyEdge : Bool) (assign : B) (s : Realign B) :
    Grows s.work (s.hit block onlyEdge assign).work := grows_pushNew assign _

theorem hit_calls (block : B) (onlyEdge : Bool) (assign : B) (s : Realign B) :
    (s.hit block onlyEdge assign).calls = s.calls + 1 := pushNew_calls assign _

theorem hit_other {block b : B} (h : b ≠ block) (onlyEdge : Bool) (assign : B) (s : Realign B) :
    (s.hit block onlyEdge assign).predecessors b = s.predecessors b := by
  rw [hit, pushNew_predecessors]
  exact Function.update_of_ne h _ _

theorem mem_hit {block : B} {onlyEdge : Bool} {assign b : B} {s : Realign B} :
    b ∈ (s.hit block onlyEdge assign).predecessors block ↔
      b = assign ∨ onlyEdge = false ∧ b ∈ s.predecessors block := by
  rw [hit, pushNew_predecessors]
  show b ∈ Function.update s.predecessors block _ block ↔ _
  rw [Function.update_self, List.mem_insert_iff]
  cases onlyEdge with
  | false => simp
  | true => simp

/-- A block on the queue is marked already. -/
theorem mark_eq {b : B} {s : Realign B} (h : s.isEdgeUpdated b = true) : s.mark b = s := by
  have hupdate : Function.update s.isEdgeUpdated b true = s.isEdgeUpdated := by
    rw [← h]
    exact Function.update_eq_self b _
  show { s with isEdgeUpdated := Function.update s.isEdgeUpdated b true } = s
  rw [hupdate]

end Realign

/-- The blocks of the assignments whose formula is satisfiable, as the solver
answers from its call `n` on. -/
def satisfiable (sat : Nat → Bool) : Nat → List B → List B
  | _, [] => []
  | n, assign :: assigns =>
      if sat n then assign :: satisfiable sat (n + 1) assigns else satisfiable sat (n + 1) assigns

/-- What the assignments of the arm `block` do to the variables; `onlyEdge` is
the flag before them. -/
structure Tried (sat : Nat → Bool) (block : B) (assigns : List B) (s : Realign B)
    (onlyEdge : Bool) (s' : Realign B) : Prop where
  grows : Grows s.work s'.work
  calls : s'.calls = s.calls + assigns.length
  other : ∀ b, b ≠ block → s'.predecessors b = s.predecessors b
  none : satisfiable sat s.calls assigns = [] → s'.predecessors block = s.predecessors block
  some : satisfiable sat s.calls assigns ≠ [] → ∀ b, b ∈ s'.predecessors block ↔
    b ∈ satisfiable sat s.calls assigns ∨ onlyEdge = false ∧ b ∈ s.predecessors block

/-- After a positive answer. -/
theorem Tried.hit {block assign : B} {assigns : List B} {s s' : Realign B} {onlyEdge : Bool}
    (hsat : sat s.calls = true) (h : Tried sat block assigns (s.hit block onlyEdge assign) false s') :
    Tried sat block (assign :: assigns) s onlyEdge s' := by
  have hcalls := s.hit_calls block onlyEdge assign
  have hfound : satisfiable sat s.calls (assign :: assigns) =
      assign :: satisfiable sat (s.calls + 1) assigns := if_pos hsat
  constructor
  · exact (s.grows_hit block onlyEdge assign).trans h.grows
  · rw [h.calls, hcalls, List.length_cons]
    omega
  · exact fun b hb => (h.other b hb).trans (Realign.hit_other hb onlyEdge assign s)
  · intro hnil
    rw [hfound] at hnil
    exact absurd hnil (List.cons_ne_nil _ _)
  · intro _ b
    rw [hfound, List.mem_cons]
    by_cases hnil : satisfiable sat (s.calls + 1) assigns = []
    · have hsame := h.none (hcalls ▸ hnil)
      rw [hsame, Realign.mem_hit, hnil]
      simp
    · have hrest := h.some (hcalls ▸ hnil) b
      rw [hcalls, Realign.mem_hit] at hrest
      rw [hrest, and_iff_right rfl, or_left_comm, or_assoc]

omit [DecidableEq B] in
/-- After a negative one. -/
theorem Tried.miss {block assign : B} {assigns : List B} {s s' : Realign B} {onlyEdge : Bool}
    (hsat : ¬ sat s.calls = true)
    (h : Tried sat block assigns { s with calls := s.calls + 1 } onlyEdge s') :
    Tried sat block (assign :: assigns) s onlyEdge s' := by
  have hfound : satisfiable sat s.calls (assign :: assigns) =
      satisfiable sat (s.calls + 1) assigns := if_neg hsat
  constructor
  · exact h.grows
  · rw [h.calls, List.length_cons]
    show s.calls + 1 + _ = _
    omega
  · exact h.other
  · rw [hfound]
    exact h.none
  · rw [hfound]
    exact h.some

theorem tried (block : B) (assigns : List B) (s : Realign B) (onlyEdge : Bool) :
    Tried sat block assigns s onlyEdge
      (assigns.foldl (Realign.tryAssign sat block) (s, onlyEdge)).1 := by
  induction assigns generalizing s onlyEdge with
  | nil => exact ⟨.refl _, rfl, fun _ _ => rfl, fun _ => rfl, fun h => absurd rfl h⟩
  | cons assign assigns ih =>
      rw [List.foldl_cons]
      by_cases hsat : sat s.calls = true
      · rw [Realign.tryAssign_of_sat hsat]
        exact .hit hsat (ih _ _)
      · rw [Realign.tryAssign_of_unsat hsat]
        exact .miss hsat (ih _ _)

/-- The calls of the solver for a block. -/
def solverCalls (c : ControlFlow B) (b : B) : Nat :=
  match c.head b with
  | .branch stateVars => stateVars.flatten.length
  | _ => 0

/-- The predecessors that `update_edge` gives an arm: the old ones where no formula is
satisfiable, otherwise the blocks of those that are. -/
def Realigned (c : ControlFlow B) (sat : Nat → Bool) (n : Nat) (b : B) (old new : List B) : Prop :=
  ∀ stateVars, c.head b = .branch stateVars →
    (satisfiable sat n stateVars.flatten = [] → new = old) ∧
      (satisfiable sat n stateVars.flatten ≠ [] →
        ∀ p, p ∈ new ↔ p ∈ satisfiable sat n stateVars.flatten)

/-- What `update_edge` of a block does. -/
structure Updated (c : ControlFlow B) (sat : Nat → Bool) (b : B) (s s' : Realign B) : Prop where
  grows : Grows s.work s'.work
  calls : s'.calls = s.calls + c.solverCalls b
  other : ∀ b', b' ≠ b → s'.predecessors b' = s.predecessors b'
  plain : (∀ stateVars, c.head b ≠ .branch stateVars) → s'.predecessors b = s.predecessors b
  realigned : c.Realigned sat s.calls b (s.predecessors b) (s'.predecessors b)

theorem updated_pushIdom (idom : Option B) {b : B} (s : Realign B)
    (hcalls : c.solverCalls b = 0)
    (hbranch : ∀ stateVars, c.head b = .branch stateVars → stateVars = []) :
    Updated c sat b s (idom.elim s fun it => s.pushNew it) := by
  have hsame : (idom.elim s fun it => s.pushNew it).predecessors = s.predecessors := by
    cases idom with
    | none => rfl
    | some it => exact s.pushNew_predecessors it
  constructor
  · cases idom with
    | none => exact .refl _
    | some it => exact s.grows_pushNew it
  · rw [hcalls]
    cases idom with
    | none => rfl
    | some it => exact s.pushNew_calls it
  · exact fun b' _ => congrFun hsame b'
  · exact fun _ => congrFun hsame b
  · intro stateVars hhead
    rw [hbranch stateVars hhead]
    exact ⟨fun _ => congrFun hsame b, fun hne => absurd rfl hne⟩

theorem updateEdge_eq (sat : Nat → Bool) (b : B) (s : Realign B) :
    c.updateEdge sat b s =
      match c.head b with
      | .empty => (c.idom b).elim s fun it => s.pushNew it
      | .assign => s
      | .branch stateVars =>
          if stateVars.isEmpty then (c.idom b).elim (s.mark b) fun it => (s.mark b).pushNew it
          else (stateVars.flatten.foldl (Realign.tryAssign sat b) (s.mark b, true)).1 := by
  unfold updateEdge
  cases c.idom b with
  | none => rfl
  | some it => rfl

/-- **The step lemma.** A block that was queued marks nothing but what it queues. -/
theorem updated_updateEdge {b : B} {s : Realign B} (hmarked : s.isEdgeUpdated b = true) :
    Updated c sat b s (c.updateEdge sat b s) := by
  rw [updateEdge_eq, s.mark_eq hmarked]
  cases hhead : c.head b with
  | empty =>
      refine updated_pushIdom _ s ?_ fun stateVars h => ?_
      · rw [solverCalls, hhead]
      · rw [hhead] at h
        cases h
  | assign =>
      refine ⟨.refl _, ?_, fun _ _ => rfl, fun _ => rfl, fun stateVars h => ?_⟩
      · rw [solverCalls, hhead]
        rfl
      · rw [hhead] at h
        cases h
  | branch stateVars =>
      dsimp only
      split
      · rename_i hempty
        have hnil : stateVars = [] := List.isEmpty_iff.mp hempty
        refine updated_pushIdom _ s ?_ fun stateVars' h => ?_
        · rw [solverCalls, hhead, hnil]
          rfl
        · rw [hhead] at h
          cases h
          exact hnil
      · have htried : Tried sat b stateVars.flatten s true _ := tried b stateVars.flatten s true
        refine ⟨htried.grows, ?_, htried.other, fun h => absurd hhead (h stateVars), ?_⟩
        · rw [htried.calls, solverCalls, hhead]
        · intro stateVars' h
          rw [hhead] at h
          cases h
          refine ⟨htried.none, fun hne p => ?_⟩
          rw [htried.some hne p]
          simp

/-! ## Whole runs -/

/-- The variables when the loop starts. -/
def realignStart (c : ControlFlow B) (targetList : List B) : Realign B :=
  targetList.foldl (fun s it => s.push it)
    { predecessors := c.predecessors
      isEdgeUpdated := fun _ => false
      queForUpdateEdge := []
      calls := 0 }

/-- What the loop does to the predecessors: `blocks` come from the queue, in this
order. -/
structure Settles (c : ControlFlow B) (sat : Nat → Bool) (s : Realign B) (blocks : List B)
    (s' : Realign B) : Prop where
  other : ∀ b, b ∉ blocks → s'.predecessors b = s.predecessors b
  plain : ∀ b, (∀ stateVars, c.head b ≠ .branch stateVars) →
    s'.predecessors b = s.predecessors b
  realigned : ∀ before b after, blocks = before ++ b :: after →
    c.Realigned sat (s.calls + (before.map c.solverCalls).sum) b (s.predecessors b)
      (s'.predecessors b)

/-- The run lemma: no block is taken twice, so that what one visit does stays. -/
theorem Dequeues.settles {s s' : Realign B} {blocks taken : List B}
    (h : Dequeues c sat s blocks s') (honce : Once taken s.work) :
    (taken ++ blocks).Nodup ∧ Settles c sat s blocks s' := by
  induction h generalizing taken with
  | done hqueue =>
      have hnodup := honce.nodup
      refine ⟨?_, fun _ _ => rfl, fun _ _ => rfl, fun before b after heq => ?_⟩
      · rw [List.append_nil]
        exact (List.nodup_append.mp hnodup).1
      · exact absurd heq.symm (List.append_ne_nil_of_right_ne_nil _ (List.cons_ne_nil _ _))
  | @next s s' current queue blocks hqueue hrest ih =>
      have hwork : s.work = ⟨s.isEdgeUpdated, current :: queue⟩ := by
        rw [Realign.work, hqueue]
      rw [hwork] at honce
      have hmarked : s.isEdgeUpdated current = true :=
        honce.marked current (List.mem_append_right _ List.mem_cons_self)
      have hvisit : Updated c sat current { s with queForUpdateEdge := queue }
        (c.updateEdge sat current { s with queForUpdateEdge := queue }) := updated_updateEdge hmarked
      obtain ⟨hnodup, hsettles⟩ := ih (honce.take.grow hvisit.grows)
      rw [List.append_assoc, List.singleton_append] at hnodup
      have hfresh : current ∉ blocks :=
        (List.nodup_cons.mp (List.nodup_append.mp hnodup).2.1).1
      refine ⟨hnodup, fun b hb => ?_, fun b hplain => ?_, fun before b after heq => ?_⟩
      · rw [List.mem_cons, not_or] at hb
        exact (hsettles.other b hb.2).trans (hvisit.other b hb.1)
      · rw [hsettles.plain b hplain]
        by_cases hb : b = current
        · rw [hb] at hplain ⊢
          exact hvisit.plain hplain
        · exact hvisit.other b hb
      · cases before with
        | nil =>
            obtain ⟨rfl, rfl⟩ := List.cons.inj heq
            rw [hsettles.other current hfresh]
            exact hvisit.realigned
        | cons b' before =>
            obtain ⟨rfl, rfl⟩ := List.cons.inj heq
            have hne : b ≠ current := by
              rintro rfl
              exact hfresh (List.mem_append_right _ List.mem_cons_self)
            have hb := hsettles.realigned before b after rfl
            rw [hvisit.calls, hvisit.other b hne] at hb
            rw [List.map_cons, List.sum_cons, ← Nat.add_assoc]
            exact hb

theorem foldl_push {targetList : List B} (hnodup : targetList.Nodup) {s : Realign B}
    (hnew : ∀ it ∈ targetList, s.isEdgeUpdated it = false) :
    Grows s.work (targetList.foldl (fun s it => s.push it) s).work ∧
      (targetList.foldl (fun s it => s.push it) s).predecessors = s.predecessors ∧
        (targetList.foldl (fun s it => s.push it) s).calls = s.calls := by
  induction targetList generalizing s with
  | nil => exact ⟨.refl _, rfl, rfl⟩
  | cons it targetList ih =>
      rw [List.nodup_cons] at hnodup
      have hpush := Realign.grows_push (hnew it List.mem_cons_self)
      obtain ⟨hgrows, hpreds, hcalls⟩ := ih (s := s.push it) hnodup.2 fun it' hit' => by
        have hne : it' ≠ it := fun heq => hnodup.1 (heq ▸ hit')
        show Function.update s.isEdgeUpdated it true it' = false
        rw [Function.update_of_ne hne]
        exact hnew it' (List.mem_cons_of_mem _ hit')
      exact ⟨hpush.trans hgrows, hpreds, hcalls⟩

theorem once_realignStart {targetList : List B} (hnodup : targetList.Nodup) :
    Once [] (c.realignStart targetList).work ∧
      (c.realignStart targetList).predecessors = c.predecessors ∧
        (c.realignStart targetList).calls = 0 := by
  obtain ⟨hgrows, hpreds, hcalls⟩ := foldl_push hnodup
    (s := { predecessors := c.predecessors
            isEdgeUpdated := fun _ => false
            queForUpdateEdge := []
            calls := 0 }) fun _ _ => rfl
  exact ⟨Once.start.grow hgrows, hpreds, hcalls⟩

/-- The loop ends and takes no block from the queue twice. A block that it does not
take keeps its predecessors, and so does one that begins no arm; an arm that it
takes keeps them or has exactly the blocks of the assignments whose formula was
satisfiable. -/
theorem realignLoop_settles [Fintype B] (c : ControlFlow B) (sat : Nat → Bool)
    {targetList : List B} (hnodup : targetList.Nodup) :
    ∃ blocks s, Dequeues c sat (c.realignStart targetList) blocks s ∧ blocks.Nodup ∧
      (∀ b, b ∉ blocks → s.predecessors b = c.predecessors b) ∧
      (∀ b, (∀ stateVars, c.head b ≠ .branch stateVars) →
        s.predecessors b = c.predecessors b) ∧
      ∀ before b after, blocks = before ++ b :: after →
        c.Realigned sat (before.map c.solverCalls).sum b (c.predecessors b)
          (s.predecessors b) := by
  obtain ⟨honce, hpreds, hcalls⟩ := once_realignStart (c := c) hnodup
  have hsome : (c.realignLoop sat ((c.realignStart targetList).size + 1)
      (c.realignStart targetList)).isSome := realignLoop_isSome (Nat.lt_succ_self _)
  obtain ⟨s, hs⟩ := Option.isSome_iff_exists.mp hsome
  obtain ⟨blocks, hblocks⟩ := dequeues_of_realignLoop hs
  obtain ⟨htaken, hsettles⟩ := hblocks.settles honce
  refine ⟨blocks, s, hblocks, htaken, ?_, ?_, ?_⟩
  · intro b hb
    exact (hsettles.other b hb).trans (congrFun hpreds b)
  · intro b hplain
    exact (hsettles.plain b hplain).trans (congrFun hpreds b)
  · intro before b after heq
    have hb := hsettles.realigned before b after heq
    rw [hcalls, hpreds, Nat.zero_add] at hb
    exact hb

end ControlFlow

end Conquest
