import Conquest.Flow.Realign
import Conquest.Smt.Expand

/-!
# Condition — realignment with the expansions of the conditions

`update_edge` of an arm expands the condition, collects the state variables in the
expanded condition, and expands the other side of the arm's comparison when there
are some. An expansion that meets a cycle of single assignments never returns, and
`edge_realignment` with it. Otherwise the loop is the one over the assignments to
the state variables.
-/

namespace Conquest

open Relation

/-! ## State variables -/

section StateVariables

variable {S : Type} (isStateVariable : S → Bool)

mutual

/-- `get_state_variables`. -/
def getStateVariables : SMTExpr S → List S
  | .leaf (.signal sig) => if isStateVariable sig.parent then [sig.parent] else []
  | .leaf _ => []
  | .node _ es => getStateVariablesOf es

def getStateVariablesOf : List (SMTExpr S) → List S
  | [] => []
  | e :: es => getStateVariables e ++ getStateVariablesOf es

end

theorem mem_getStateVariablesOf {es : List (SMTExpr S)} {s : S} :
    s ∈ getStateVariablesOf isStateVariable es ↔
      ∃ e ∈ es, s ∈ getStateVariables isStateVariable e := by
  induction es with
  | nil => simp [getStateVariablesOf]
  | cons e es ih => simp [getStateVariablesOf, ih]

/-- The state variables of an expression are those that it reads. -/
theorem mem_getStateVariables {e : SMTExpr S} {s : S} :
    s ∈ getStateVariables isStateVariable e ↔ ReadsSignal s e ∧ isStateVariable s = true := by
  induction e using SMTExpr.induct with
  | hleaf l =>
      cases l with
      | signal sig =>
          have hreads : ReadsSignal s (.leaf (.signal sig)) ↔ sig.parent = s :=
            ⟨fun h => by cases h with | leaf h => exact h, .leaf⟩
          rw [hreads, getStateVariables]
          split
          · rename_i hstate
            rw [List.mem_singleton, eq_comm]
            exact ⟨fun h => ⟨h, h ▸ hstate⟩, And.left⟩
          · rename_i hstate
            exact iff_of_false List.not_mem_nil fun h => hstate (h.1 ▸ h.2)
      | _ => exact iff_of_false List.not_mem_nil fun h => nomatch h.1
  | hnode cls es ih =>
      rw [getStateVariables, mem_getStateVariablesOf]
      constructor
      · rintro ⟨e, he, hs⟩
        obtain ⟨hreads, hstate⟩ := (ih e he).mp hs
        exact ⟨.node he hreads, hstate⟩
      · rintro ⟨hreads, hstate⟩
        cases hreads with
        | node he hreads => exact ⟨_, he, (ih _ he).mpr ⟨hreads, hstate⟩⟩

end StateVariables

/-! ## What an expansion reads -/

section Exposes

variable {S : Type} (assignments : S → List (SMTAssign S))

/-- Following single assignments from a signal that `e` reads ends at `t`. -/
def ExpandsTo (e : SMTExpr S) (t : S) : Prop :=
  (∃ s, ReadsSignal s e ∧ ReflTransGen (DependsOn assignments) s t) ∧ ∀ a, assignments t ≠ [a]

/-- `e'` reads the signals at which following single assignments from `e` ends. -/
def Exposes (e e' : SMTExpr S) : Prop := ∀ t, ReadsSignal t e' ↔ ExpandsTo assignments e t

variable {assignments}

theorem exposes_leaf {l : SMTLeaf S}
    (h : ∀ sig a, l = .signal sig → assignments sig.parent ≠ [a]) :
    Exposes assignments (.leaf l) (.leaf l) := by
  intro t
  constructor
  · intro hreads
    cases hreads with
    | leaf hparent => exact ⟨⟨t, .leaf hparent, .refl⟩, fun a => hparent ▸ h _ a rfl⟩
  · rintro ⟨⟨s, hreads, hpath⟩, -⟩
    cases hreads with
    | leaf hparent =>
        -- the signal has no single assignment, so the path is empty
        rcases hpath.cases_head with rfl | ⟨u, ⟨a, ha, -⟩, -⟩
        · exact .leaf hparent
        · exact absurd (hparent ▸ ha) (h _ a rfl)

theorem exposes_signal {sig : SMTSignal S} {a : SMTAssign S} {e : SMTExpr S}
    (ha : assignments sig.parent = [a]) (h : Exposes assignments a.rval e) :
    Exposes assignments (.leaf (.signal sig)) e := by
  intro t
  rw [h t]
  constructor
  · rintro ⟨⟨s, hreads, hpath⟩, hend⟩
    exact ⟨⟨sig.parent, .leaf rfl, .head ⟨a, ha, hreads⟩ hpath⟩, hend⟩
  · rintro ⟨⟨s, hreads, hpath⟩, hend⟩
    cases hreads with
    | leaf hparent =>
        subst hparent
        rcases hpath.cases_head with rfl | ⟨u, ⟨a', ha', hreads⟩, hpath⟩
        · exact absurd ha (hend a)
        · rw [ha] at ha'
          cases ha'
          exact ⟨⟨u, hreads, hpath⟩, hend⟩

theorem exposes_node {cls : SMTClass} {es es' : List (SMTExpr S)}
    (h : List.Forall₂ (Exposes assignments) es es') :
    Exposes assignments (.node cls es) (.node cls.expanded es') := by
  intro t
  have hnode : ∀ (cls : SMTClass) (es : List (SMTExpr S)),
      ReadsSignal t (.node cls es) ↔ ∃ e ∈ es, ReadsSignal t e := by
    intro cls es
    constructor
    · intro hreads
      cases hreads with
      | node he hreads => exact ⟨_, he, hreads⟩
    · rintro ⟨e, he, hreads⟩
      exact .node he hreads
  have hsplit : ExpandsTo assignments (.node cls es) t ↔ ∃ e ∈ es, ExpandsTo assignments e t := by
    constructor
    · rintro ⟨⟨s, hreads, hpath⟩, hend⟩
      cases hreads with
      | node he hreads => exact ⟨_, he, ⟨s, hreads, hpath⟩, hend⟩
    · rintro ⟨e, he, ⟨s, hreads, hpath⟩, hend⟩
      exact ⟨⟨s, .node he hreads, hpath⟩, hend⟩
  rw [hnode, hsplit]
  clear hnode hsplit
  induction h with
  | nil => simp
  | cons he _ ih => simp only [List.exists_mem_cons_iff, he t, ih]

variable [DecidableEq S]

theorem exposes_of_reached {memo : Memo S} (h : MemoReached assignments memo) :
    MemoSound assignments (Exposes assignments) memo := by
  induction h with
  | empty => exact memoSound_empty _
  | call _ hcall ih =>
      exact (getExpanded_rel (fun _ => exposes_leaf) (fun _ _ _ => exposes_signal)
        (fun _ _ _ => exposes_node) ih hcall).2

theorem exposes_getExpanded {memo memo' : Memo S} (hmemo : MemoReached assignments memo)
    {fuel : Nat} {e e' : SMTExpr S}
    (h : getExpanded assignments fuel e memo = some (e', memo')) : Exposes assignments e e' :=
  (getExpanded_rel (fun _ => exposes_leaf) (fun _ _ _ => exposes_signal)
    (fun _ _ _ => exposes_node) (exposes_of_reached hmemo) h).1

end Exposes

/-! ## The code -/

/-- The first record of a block. An arm compares its sides. -/
inductive ConditionHead (S : Type) where
  | empty
  | assign
  | branch (lval rval : SMTExpr S)

/-- The blocks with the conditions of the arms, and the processes, each of which
has an entry of its own. -/
structure ConditionFlow (S B : Type) extends BlockGraph B where
  head : B → ConditionHead S
  assignments : S → List (SMTAssign S)
  isStateVariable : S → Bool
  /-- The signals in the order of their addresses, which a `std::set` goes by. -/
  sigList : List S
  mem_sigList : ∀ s, s ∈ sigList
  /-- `assign->block`, by its id. -/
  block : Nat → B
  processList : List (SMTProcess B)
  nodup : (processList.map SMTProcess.entryBlock).Nodup

namespace ConditionFlow

open ControlFlow

variable {S B : Type} [DecidableEq S] [DecidableEq B]

section Code

variable (c : ConditionFlow S B)

/-- `sigs`, from the expanded left side. -/
def sigs (lval : SMTExpr S) : List S :=
  c.sigList.filter fun s => s ∈ getStateVariables c.isStateVariable lval

omit [DecidableEq S] [DecidableEq B] in
/-- The blocks of the assignments to each of the signals. -/
def assignBlocks (sigs : List S) : List (List B) :=
  sigs.map fun s => (c.assignments s).map fun a => c.block a.block

omit [DecidableEq S] in
def pushIdom (b : B) (s : Realign B) : Realign B :=
  match c.idom b with
  | none => s
  | some it => s.pushNew it

/-- `update_edge`, of a block and of the arm that begins there, with a bound on
the depth of the expansions; `sat` are the solver's answers. -/
def updateEdge (sat : Nat → Bool) (fuel : Nat) (b : B) (s : Realign B × Memo S) :
    Option (Realign B × Memo S) :=
  match c.head b with
  | .empty => some (c.pushIdom b s.1, s.2)
  | .assign => some s
  | .branch lval rval =>
      (getExpanded c.assignments fuel lval s.2).bind fun (lval, memo) =>
        let sigs := c.sigs lval
        if sigs.isEmpty then some (c.pushIdom b (s.1.mark b), memo)
        else
          -- `get_expanded_term` expands the other side
          (getExpanded c.assignments fuel rval memo).map fun (_, memo) =>
            (((c.assignBlocks sigs).flatten.foldl (Realign.tryAssign sat b)
              (s.1.mark b, true)).1, memo)

def realignLoop (sat : Nat → Bool) : Nat → Realign B × Memo S → Option (Realign B × Memo S)
  | 0, _ => none
  | fuel + 1, s =>
      match s.1.queForUpdateEdge with
      | [] => some s
      | current :: queue =>
          (c.updateEdge sat fuel current ({ s.1 with queForUpdateEdge := queue }, s.2)).bind
            (realignLoop sat fuel)

/-- The variables when the loop starts; nothing has been expanded. -/
def start (targetList : List B) : Realign B × Memo S :=
  (targetList.foldl (fun s it => s.push it)
    { predecessors := c.predecessors
      isEdgeUpdated := fun _ => false
      queForUpdateEdge := []
      calls := 0 }, fun _ => none)

def edgeRealignment (sat : Nat → Bool) (fuel : Nat) (targetList : List B) :
    Option (BlockGraph B) :=
  (c.realignLoop sat fuel (c.start targetList)).map fun s =>
    { c.toBlockGraph with predecessors := s.1.predecessors }

/-- The preparation of `step_coverage`: the graph and the lists it ends with. -/
def prepare (sat : Nat → Bool) (fuel : Nat) (targetList : List B) :
    Option (BlockGraph B × (B → Option (B → Nat))) :=
  (c.edgeRealignment sat fuel targetList).bind fun g =>
    (updateAllDistances fuel g targetList).map fun adjacencyList =>
      (makeCircular c.processList g, adjacencyList)

/-- The loop has taken the blocks from the queue. -/
inductive Takes (sat : Nat → Bool) (s₀ : Realign B × Memo S) : List B → Realign B × Memo S → Prop
  | start : Takes sat s₀ [] s₀
  | take {blocks queue : List B} {s t : Realign B × Memo S} {fuel : Nat} {b : B}
      (h : Takes sat s₀ blocks s) (hqueue : s.1.queForUpdateEdge = b :: queue)
      (hupdate : c.updateEdge sat fuel b ({ s.1 with queForUpdateEdge := queue }, s.2) = some t) :
      Takes sat s₀ (blocks ++ [b]) t

end Code

/-! ## The control flow without the expansions -/

section Refines

variable (c : ConditionFlow S B)

open Classical in
/-- The state variables at which following single assignments from `e` ends. -/
noncomputable def stateVars (e : SMTExpr S) : List S :=
  c.sigList.filter fun t => ExpandsTo c.assignments e t ∧ c.isStateVariable t = true

/-- The record once the condition is expanded. -/
noncomputable def expandedHead : ConditionHead S → BlockHead B
  | .empty => .empty
  | .assign => .assign
  | .branch lval _ => .branch (c.assignBlocks (c.stateVars lval))

/-- The control flow as it is once all conditions are expanded. -/
noncomputable def toControlFlow : ControlFlow B where
  toBlockGraph := c.toBlockGraph
  head := fun b => c.expandedHead (c.head b)

variable {c} {sat : Nat → Bool}

omit [DecidableEq S] [DecidableEq B] in
theorem toControlFlow_head (b : B) : c.toControlFlow.head b = c.expandedHead (c.head b) := rfl

omit [DecidableEq B] in
theorem sigs_eq {lval lval' : SMTExpr S} (h : Exposes c.assignments lval lval') :
    c.sigs lval' = c.stateVars lval := by
  refine List.filter_congr fun t _ => ?_
  rw [decide_eq_decide, mem_getStateVariables, h t]

/-- More depth changes nothing. -/
theorem updateEdge_mono {fuel fuel' : Nat} (hle : fuel ≤ fuel') {b : B}
    {s t : Realign B × Memo S} (h : c.updateEdge sat fuel b s = some t) :
    c.updateEdge sat fuel' b s = some t := by
  unfold updateEdge at h ⊢
  cases hhead : c.head b with
  | empty => rwa [hhead] at h
  | assign => rwa [hhead] at h
  | branch lval rval =>
      rw [hhead] at h
      obtain ⟨⟨lval', memo⟩, hlval, h⟩ := Option.bind_eq_some_iff.mp h
      dsimp only at h ⊢
      rw [getExpanded_mono hle hlval, Option.bind_some]
      dsimp only
      split at h
      · rename_i hnone
        rw [if_pos hnone]
        exact h
      · rename_i hsome
        obtain ⟨⟨rval', memo'⟩, hrval, h⟩ := Option.map_eq_some_iff.mp h
        rw [if_neg hsome, getExpanded_mono hle hrval]
        exact congrArg some h

theorem realignLoop_mono {fuel fuel' : Nat} (hle : fuel ≤ fuel') {s t : Realign B × Memo S}
    (h : c.realignLoop sat fuel s = some t) : c.realignLoop sat fuel' s = some t := by
  induction fuel generalizing fuel' s with
  | zero => cases h
  | succ fuel ih =>
      obtain ⟨more, rfl⟩ := Nat.exists_eq_add_of_le hle
      rw [Nat.add_right_comm, realignLoop]
      rw [realignLoop] at h
      split at h
      · exact h
      · obtain ⟨u, hu, h⟩ := Option.bind_eq_some_iff.mp h
        rw [updateEdge_mono (Nat.le_add_right _ _) hu]
        exact ih (Nat.le_add_right _ _) h

/-- **Refinement.** Where the expansions return, `update_edge` is that of the
control flow without them. -/
theorem updateEdge_refines {fuel : Nat} {b : B} {s t : Realign B × Memo S}
    (hmemo : MemoReached c.assignments s.2) (h : c.updateEdge sat fuel b s = some t) :
    t.1 = c.toControlFlow.updateEdge sat b s.1 ∧ MemoReached c.assignments t.2 := by
  unfold updateEdge at h
  unfold ControlFlow.updateEdge
  rw [toControlFlow_head]
  cases hhead : c.head b with
  | empty =>
      rw [hhead] at h
      cases h
      exact ⟨rfl, hmemo⟩
  | assign =>
      rw [hhead] at h
      cases h
      exact ⟨rfl, hmemo⟩
  | branch lval rval =>
      rw [hhead] at h
      obtain ⟨⟨lval', memo⟩, hlval, h⟩ := Option.bind_eq_some_iff.mp h
      have hsigs := sigs_eq (exposes_getExpanded hmemo hlval)
      have hempty : (c.assignBlocks (c.stateVars lval)).isEmpty = (c.stateVars lval).isEmpty :=
        List.isEmpty_map
      dsimp only [expandedHead] at h ⊢
      rw [hsigs] at h
      rw [hempty]
      split at h
      · rename_i hnone
        cases h
        exact ⟨(if_pos hnone).symm, hmemo.call hlval⟩
      · rename_i hsome
        obtain ⟨⟨rval', memo'⟩, hrval, h⟩ := Option.map_eq_some_iff.mp h
        cases h
        exact ⟨(if_neg hsome).symm, (hmemo.call hlval).call hrval⟩

end Refines

/-! ## When the expansions of an arm return -/

section Returns

variable (c : ConditionFlow S B)

/-- No cycle of single assignments is reached from a signal that `e` reads. -/
def Acyclic (e : SMTExpr S) : Prop :=
  ∀ s t, ReadsSignal s e → ReflTransGen (DependsOn c.assignments) s t →
    ¬ TransGen (DependsOn c.assignments) t t

/-- The left side of an arm is without such cycles, and so is the right side when
the arm depends on a state variable. -/
def ArmReturns (b : B) : Prop :=
  ∀ lval rval, c.head b = .branch lval rval →
    c.Acyclic lval ∧ (c.stateVars lval ≠ [] → c.Acyclic rval)

variable {c} {sat : Nat → Bool}

omit [DecidableEq B] in
theorem returns_iff_acyclic {memo : Memo S} (hmemo : MemoReached c.assignments memo)
    (e : SMTExpr S) :
    (∃ fuel r, getExpanded c.assignments fuel e memo = some r) ↔ c.Acyclic e := by
  have hfinite : Finite S := Set.finite_univ_iff.mp
    ((List.finite_toSet c.sigList).subset fun s _ => c.mem_sigList s)
  exact (getExpanded_returns_iff hmemo).1 e

theorem updateEdge_returns_iff {b : B} {s : Realign B × Memo S}
    (hmemo : MemoReached c.assignments s.2) :
    (∃ fuel t, c.updateEdge sat fuel b s = some t) ↔ c.ArmReturns b := by
  constructor
  · rintro ⟨fuel, t, h⟩ lval rval hhead
    simp only [updateEdge, hhead] at h
    obtain ⟨⟨lval', memo⟩, hlval, h⟩ := Option.bind_eq_some_iff.mp h
    refine ⟨(returns_iff_acyclic hmemo lval).mp ⟨fuel, _, hlval⟩, fun hvars => ?_⟩
    rw [← sigs_eq (exposes_getExpanded hmemo hlval)] at hvars
    dsimp only at h
    rw [if_neg (by rwa [List.isEmpty_iff])] at h
    obtain ⟨r, hrval, -⟩ := Option.map_eq_some_iff.mp h
    exact (returns_iff_acyclic (hmemo.call hlval) rval).mp ⟨fuel, r, hrval⟩
  · intro h
    cases hhead : c.head b with
    | empty => exact ⟨0, _, by rw [updateEdge, hhead]⟩
    | assign => exact ⟨0, _, by rw [updateEdge, hhead]⟩
    | branch lval rval =>
        obtain ⟨hleft, hright⟩ := h lval rval hhead
        obtain ⟨n, ⟨lval', memo⟩, hlval⟩ := (returns_iff_acyclic hmemo lval).mpr hleft
        have hsigs := sigs_eq (exposes_getExpanded hmemo hlval)
        by_cases hvars : c.stateVars lval = []
        · refine ⟨n, (c.pushIdom b (s.1.mark b), memo), ?_⟩
          simp only [updateEdge, hhead, hlval, Option.bind_some, hsigs]
          rw [if_pos (by rw [hvars]; rfl)]
        · obtain ⟨m, r, hrval⟩ := (returns_iff_acyclic (hmemo.call hlval) rval).mpr (hright hvars)
          have hlval' := getExpanded_mono (Nat.le_max_left n m) hlval
          have hrval' := getExpanded_mono (Nat.le_max_right n m) hrval
          refine ⟨max n m, (((c.assignBlocks (c.stateVars lval)).flatten.foldl
            (Realign.tryAssign sat b) (s.1.mark b, true)).1, r.2), ?_⟩
          simp only [updateEdge, hhead, hlval', Option.bind_some, hsigs]
          rw [if_neg (by rwa [List.isEmpty_iff]), hrval']
          rfl

end Returns

/-! ## Whole runs -/

section Runs

variable {c : ConditionFlow S B} {sat : Nat → Bool}

theorem Takes.reached {s₀ s : Realign B × Memo S} {blocks : List B}
    (h : c.Takes sat s₀ blocks s) (hmemo : MemoReached c.assignments s₀.2) :
    MemoReached c.assignments s.2 := by
  induction h with
  | start => exact hmemo
  | @take _ queue s _ _ _ _ _ hupdate ih =>
      exact (updateEdge_refines (s := ({ s.1 with queForUpdateEdge := queue }, s.2)) ih hupdate).2

/-- A loop that returns does so from every state on its way. -/
theorem Takes.returns {s₀ s r : Realign B × Memo S} {blocks : List B}
    (h : c.Takes sat s₀ blocks s) {fuel : Nat} (hr : c.realignLoop sat fuel s₀ = some r) :
    ∃ fuel, c.realignLoop sat fuel s = some r := by
  induction h with
  | start => exact ⟨fuel, hr⟩
  | @take blocks queue s t n b _ hqueue hupdate ih =>
      obtain ⟨m, hm⟩ := ih
      cases m with
      | zero => cases hm
      | succ m =>
          rw [realignLoop, hqueue] at hm
          obtain ⟨u, hu, hm⟩ := Option.bind_eq_some_iff.mp hm
          have hsame := (updateEdge_mono (Nat.le_max_left n m) hupdate).symm.trans
            (updateEdge_mono (Nat.le_max_right n m) hu)
          obtain rfl := Option.some.inj hsame
          exact ⟨m, hm⟩

/-- Where the expansions of every block return that comes to the front of the queue,
the loop goes the way of the one without expansions. -/
theorem takes_of_dequeues {s₀ : Realign B × Memo S} (hmemo : MemoReached c.assignments s₀.2)
    (hreturns : ∀ blocks s b queue, c.Takes sat s₀ blocks s →
      s.1.queForUpdateEdge = b :: queue → c.ArmReturns b)
    {s s' : Realign B} {blocks : List B} (h : Dequeues c.toControlFlow sat s blocks s')
    {memo : Memo S} {taken : List B} (htakes : c.Takes sat s₀ taken (s, memo)) :
    ∃ memo' fuel, c.realignLoop sat fuel (s, memo) = some (s', memo') ∧
      c.Takes sat s₀ (taken ++ blocks) (s', memo') := by
  induction h generalizing memo taken with
  | @done s hqueue =>
      refine ⟨memo, 1, ?_, by rwa [List.append_nil]⟩
      rw [realignLoop]
      dsimp only
      rw [hqueue]
  | @next s s' current queue blocks hqueue _ ih =>
      obtain ⟨n, t, ht⟩ := (updateEdge_returns_iff
        (s := ({ s with queForUpdateEdge := queue }, memo)) (htakes.reached hmemo)).mpr
        (hreturns taken _ current queue htakes hqueue)
      obtain ⟨hrefines, -⟩ := updateEdge_refines
        (s := ({ s with queForUpdateEdge := queue }, memo)) (htakes.reached hmemo) ht
      obtain ⟨u, memo'⟩ := t
      obtain rfl : u = _ := hrefines
      obtain ⟨memo'', m, hm, hrest⟩ := ih (htakes.take hqueue ht)
      refine ⟨memo'', max n m + 1, ?_, ?_⟩
      · rw [realignLoop]
        dsimp only
        rw [hqueue]
        dsimp only
        rw [updateEdge_mono (Nat.le_max_left n m) ht, Option.bind_some]
        exact realignLoop_mono (Nat.le_max_right n m) hm
      · rwa [List.append_assoc, List.singleton_append] at hrest

/-- `edge_realignment` ends; it takes the blocks from the queue, none of them twice.
A block that it does not take keeps its predecessors, and so does one that begins no
arm; an arm that it takes keeps them or has exactly the blocks of the assignments
whose formula was satisfiable. -/
def Settles (c : ConditionFlow S B) (sat : Nat → Bool) (targetList : List B) : Prop :=
  ∃ g blocks s, (∃ enough, ∀ fuel ≥ enough, c.edgeRealignment sat fuel targetList = some g) ∧
    c.Takes sat (c.start targetList) blocks s ∧ s.1.queForUpdateEdge = [] ∧
    s.1.predecessors = g.predecessors ∧ blocks.Nodup ∧
    (∀ b, b ∉ blocks → g.predecessors b = c.predecessors b) ∧
    (∀ b, (∀ lval rval, c.head b ≠ .branch lval rval) → g.predecessors b = c.predecessors b) ∧
    ∀ before b after, blocks = before ++ b :: after →
      c.toControlFlow.Realigned sat (before.map c.toControlFlow.solverCalls).sum b
        (c.predecessors b) (g.predecessors b)

omit [DecidableEq S] [DecidableEq B] in
theorem toControlFlow_ne_branch {b : B} (h : ∀ lval rval, c.head b ≠ .branch lval rval)
    (stateVars : List (List B)) : c.toControlFlow.head b ≠ .branch stateVars := by
  rw [toControlFlow_head]
  cases hhead : c.head b with
  | empty => exact nofun
  | assign => exact nofun
  | branch lval rval => exact absurd hhead (h lval rval)

omit [DecidableEq S] in
theorem dequeues_empty {s s' : Realign B} {blocks : List B}
    (h : Dequeues c.toControlFlow sat s blocks s') : s'.queForUpdateEdge = [] := by
  induction h with
  | done hqueue => exact hqueue
  | next _ _ ih => exact ih

theorem settles_of_returns [Fintype B] {targetList : List B} (hnodup : targetList.Nodup)
    (hreturns : ∀ blocks s b queue, c.Takes sat (c.start targetList) blocks s →
      s.1.queForUpdateEdge = b :: queue → c.ArmReturns b) : c.Settles sat targetList := by
  obtain ⟨blocks, s, hdequeues, htaken, hother, hplain, hrealigned⟩ :=
    c.toControlFlow.realignLoop_settles sat hnodup
  have hstart : MemoReached c.assignments (c.start targetList).2 := .empty
  obtain ⟨memo, least, hloop, htakes⟩ := takes_of_dequeues hstart hreturns hdequeues .start
  refine ⟨{ c.toBlockGraph with predecessors := s.predecessors }, blocks, (s, memo),
    ⟨least, fun fuel hfuel => ?_⟩, htakes, dequeues_empty hdequeues, rfl, htaken, hother,
    fun b hb => hplain b (toControlFlow_ne_branch hb), hrealigned⟩
  have hmore : c.realignLoop sat fuel (c.start targetList) = some (s, memo) :=
    realignLoop_mono hfuel hloop
  rw [edgeRealignment, hmore]
  rfl

/-- A loop that ends has expanded the conditions of every arm it took. -/
theorem armReturns_of_ends {targetList : List B} {fuel : Nat} {g : BlockGraph B}
    (h : c.edgeRealignment sat fuel targetList = some g) {blocks : List B}
    {s : Realign B × Memo S} (htakes : c.Takes sat (c.start targetList) blocks s)
    {b : B} {queue : List B} (hqueue : s.1.queForUpdateEdge = b :: queue) : c.ArmReturns b := by
  obtain ⟨r, hr, -⟩ := Option.map_eq_some_iff.mp h
  obtain ⟨fuel, hfuel⟩ := htakes.returns hr
  cases fuel with
  | zero => cases hfuel
  | succ fuel =>
      rw [realignLoop, hqueue] at hfuel
      obtain ⟨t, ht, -⟩ := Option.bind_eq_some_iff.mp hfuel
      exact (updateEdge_returns_iff (s := ({ s.1 with queForUpdateEdge := queue }, s.2))
        (htakes.reached .empty)).mp ⟨fuel, t, ht⟩

/-- **Realignment.** It ends and settles the predecessors if and only if, whenever a
block comes to the front of the queue, the expansions of the arm that begins there
return. -/
theorem edgeRealignment_settles_iff [Fintype B] (c : ConditionFlow S B) (sat : Nat → Bool)
    {targetList : List B} (hnodup : targetList.Nodup) :
    c.Settles sat targetList ↔
      ∀ blocks s b queue, c.Takes sat (c.start targetList) blocks s →
        s.1.queForUpdateEdge = b :: queue → c.ArmReturns b := by
  constructor
  · rintro ⟨g, -, -, ⟨enough, hends⟩, -⟩ blocks s b queue htakes hqueue
    exact armReturns_of_ends (hends enough le_rfl) htakes hqueue
  · exact settles_of_returns hnodup

theorem edgeRealignment_fuel {g : BlockGraph B} {enough fuel : Nat} {targetList : List B}
    (hle : enough ≤ fuel) (h : c.edgeRealignment sat enough targetList = some g) :
    c.edgeRealignment sat fuel targetList = some g := by
  obtain ⟨s, hs, rfl⟩ := Option.map_eq_some_iff.mp h
  rw [edgeRealignment, realignLoop_mono hle hs, Option.map_some]

/-- **What the targets know of the next clock.** When the realignment ends, the
preparation does, and the lists of the targets hold the least weights of the final
graph exactly when no edge that `make_circular` adds is a shortcut for a target. -/
theorem prepare_exact [Fintype B] (c : ConditionFlow S B) (sat : Nat → Bool)
    {targetList : List B} {realigned : BlockGraph B} {enough : Nat}
    (h : c.edgeRealignment sat enough targetList = some realigned) :
    ∃ final adjacencyList,
      (∃ enough, ∀ fuel ≥ enough, c.edgeRealignment sat fuel targetList = some realigned ∧
        c.prepare sat fuel targetList = some (final, adjacencyList)) ∧
      ((∀ t ∈ targetList, ∃ row, adjacencyList t = some row ∧
          ∀ b, (row b : ℕ∞) =
            min (initialDistance : ℕ∞) (Relax.least final.backward t b)) ↔
        ∀ t ∈ targetList, ∀ it ∈ c.processList, it.entryBlock ≠ it.exitBlock →
          realigned.predecessors it.entryBlock = [] →
            min (initialDistance : ℕ∞)
                (Relax.least realigned.backward t it.exitBlock) ≤
              Relax.least realigned.backward t it.entryBlock +
                realigned.weight it.entryBlock) := by
  obtain ⟨adjacencyList, hlists, hrows⟩ := updateAllDistances_isRow realigned targetList
  refine ⟨makeCircular c.processList realigned, adjacencyList,
    ⟨max enough (BlockGraph.fuelBound B), fun fuel hfuel => ?_⟩, ?_⟩
  · have hrealigned := edgeRealignment_fuel (le_of_max_le_left hfuel) h
    refine ⟨hrealigned, ?_⟩
    rw [prepare, hrealigned, Option.bind_some,
      updateAllDistances_fuel realigned (le_of_max_le_right hfuel), hlists, Option.map_some]
  · refine forall₂_congr fun t ht => (isRow_makeCircular_iff c.nodup (hrows t ht)).trans ?_
    exact forall₂_congr fun it _ => and_imp

end Runs

/-! ## A branch on an input, and one on a register -/

/-- A process with one branch on an input: its entry, the two arms, its exit. -/
def branchFlow : ConditionFlow Unit (Fin 4) where
  predecessors := ![[], [0], [0], [1, 2]]
  idom := ![none, some 0, some 0, some 0]
  weight := ![0, 1, 1, 0]
  weight_le := by decide
  head :=
    ![.empty, .branch (.leaf (.signal ⟨(), 0, 0, false⟩)) (.leaf (.number ⟨['1']⟩)),
      .branch (.leaf (.signal ⟨(), 0, 0, false⟩)) (.leaf (.number ⟨['0']⟩)), .empty]
  assignments := fun _ => []
  isStateVariable := fun _ => false
  sigList := [()]
  mem_sigList := by decide
  block := fun id => Fin.ofNat 4 id
  processList := [⟨0, 3⟩]
  nodup := by decide

theorem branchFlow_armReturns (b : Fin 4) : branchFlow.ArmReturns b := by
  -- no signal depends on another
  have hnone : ∀ s t, ¬ DependsOn branchFlow.assignments s t := fun _ _ ⟨_, h, _⟩ => nomatch h
  have hacyclic : ∀ e, branchFlow.Acyclic e := by
    intro e s t _ _ hcycle
    obtain ⟨u, h, -⟩ := TransGen.head'_iff.mp hcycle
    exact hnone t u h
  intro lval rval _
  exact ⟨hacyclic lval, fun _ => hacyclic rval⟩

theorem branchFlow_settles : branchFlow.Settles (fun _ => false) [1] := by
  apply (edgeRealignment_settles_iff branchFlow _ (List.nodup_singleton 1)).mpr
  intro _ _ b _ _ _
  exact branchFlow_armReturns b

theorem branchFlow_exact : ∃ realigned final adjacencyList,
    (∃ enough, ∀ fuel ≥ enough,
      branchFlow.edgeRealignment (fun _ => false) fuel [1] = some realigned ∧
      branchFlow.prepare (fun _ => false) fuel [1] = some (final, adjacencyList)) := by
  have hends : (branchFlow.edgeRealignment (fun _ => false) 20 [1]).isSome := by decide
  obtain ⟨realigned, h⟩ := Option.isSome_iff_exists.mp hends
  obtain ⟨final, adjacencyList, hprepare, -⟩ := prepare_exact branchFlow _ h
  exact ⟨realigned, final, adjacencyList, hprepare⟩

/-- The other arm is one step into the clock before, and is not reached. -/
theorem branchFlow_missed : ∃ final adjacencyList row,
    branchFlow.prepare (fun _ => false) 20 [1] = some (final, adjacencyList) ∧
      adjacencyList 1 = some row ∧ row 2 = initialDistance ∧
      Relax.least final.backward 1 2 ≤ 1 := by
  refine ⟨_, _, _, rfl, rfl, by decide +kernel, ?_⟩
  have hentry : ((0 : Fin 4), 1) ∈
      (makeCircular branchFlow.processList branchFlow.toBlockGraph).backward 1 := by decide
  have hexit : ((3 : Fin 4), 0) ∈
      (makeCircular branchFlow.processList branchFlow.toBlockGraph).backward 0 := by decide
  have harm : ((2 : Fin 4), 0) ∈
      (makeCircular branchFlow.processList branchFlow.toBlockGraph).backward 3 := by decide
  exact Relax.least_le (((Relax.Walk.start.step hentry).step hexit).step harm)

/-- `begin q <= ~q; if (q) …; else …; end`: the entry assigns the register that the
arms are on. -/
def toggleFlow : ConditionFlow Unit (Fin 4) :=
  { branchFlow with
    head := Function.update branchFlow.head 0 .assign
    assignments := toggleAssignments
    isStateVariable := fun _ => true }

/-- With the true arm as target, the realignment never ends. -/
theorem toggleFlow_not_settles :
    (∀ sat fuel, toggleFlow.edgeRealignment sat fuel [1] = none) ∧
      ¬ toggleFlow.Settles (fun _ => false) [1] := by
  have hends : ∀ sat fuel, toggleFlow.edgeRealignment sat fuel [1] = none := by
    intro sat fuel
    rw [Option.eq_none_iff_forall_ne_some]
    intro g h
    -- the register depends on itself
    have hcycle : DependsOn toggleFlow.assignments () () :=
      ⟨_, rfl, .node List.mem_cons_self (.leaf rfl)⟩
    have hreturns := armReturns_of_ends (b := 1) h .start rfl
    exact (hreturns _ _ rfl).1 () () (.leaf rfl) .refl (.single hcycle)
  refine ⟨hends, fun hsettles => ?_⟩
  obtain ⟨g, -, -, ⟨enough, h⟩, -⟩ := hsettles
  exact nomatch (hends _ enough).symm.trans (h enough le_rfl)

end ConditionFlow

end Conquest
