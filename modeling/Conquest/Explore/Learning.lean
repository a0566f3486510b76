import Conquest.Explore.Ranking
import Conquest.Explore.Rows
import Conquest.StateFile

/-!
# Learning — the exploration and the scripts of its agent

`find_next_cfg` and the agent talk through files. `DQN_sort.py` reads the state
that was written last, keeps it in `state_now.txt` and ranks the branches; when
a candidate was accepted and simulated, its action, its reward and the state at
its clock are written, and `DQN_update.py` takes the transition to that state
from the one that was kept. A script that fails leaves the files as they are at
that moment, and the exploration goes on.
-/

namespace Conquest

open Bv Run Text

/-! ## The file of the state that was kept -/

/-- `np.savetxt(file, values, fmt='%d')`. -/
def saveTxt (values : List Int) : Line := values.flatMap fun value => showInt value ++ ['\n']

/-- `np.loadtxt(file, dtype=int)`, of a file with at most one column. -/
def loadTxt (file : Line) : Option (List Int) :=
  ((fileLines file).filter fun line => strip line ≠ []).mapM int

theorem fileLines_saveTxt (values : List Int) :
    fileLines (saveTxt values) = values.map showInt := by
  induction values with
  | nil => rfl
  | cons value values ih =>
      have hline : '\n' ∉ showInt value := (plain_showInt value).not_mem_newline
      have hcons : saveTxt (value :: values) = showInt value ++ '\n' :: saveTxt values := by
        simp [saveTxt]
      rw [hcons, fileLines_append hline, ih, List.map_cons]

/-- The state comes back as it was saved. -/
theorem loadTxt_saveTxt (values : List Int) : loadTxt (saveTxt values) = some values := by
  have hfilter : (values.map showInt).filter (fun line => strip line ≠ []) =
      values.map showInt := by
    apply List.filter_eq_self.mpr
    intro line hline
    obtain ⟨value, -, rfl⟩ := List.mem_map.mp hline
    simp [(plain_showInt value).strip, showInt_ne_nil]
  rw [loadTxt, fileLines_saveTxt, hfilter]
  induction values with
  | nil => rfl
  | cons value values ih =>
      have hrest := ih (List.filter_eq_self.mpr fun line hline =>
        (List.filter_eq_self.mp hfilter) line (List.mem_cons_of_mem _ hline))
      simp [int_showInt, hrest]

/-! ## The scripts -/

/-- What the agent learns from. -/
structure Transition where
  state : List Int
  action : Int
  reward : Reward
  nextState : List Int
  deriving DecidableEq, Repr

/-- What the scripts use of the networks, whose parameters are of the type `P`. -/
structure Torch (P : Type) where
  /-- The size of the first layer. -/
  stateDim : P → Nat
  /-- A network with random parameters. -/
  init : Nat → Nat → P
  /-- The step of the optimizer, from both networks. -/
  optimize : P → P → Transition → P
  stateDim_init : ∀ dim seed, stateDim (init dim seed) = dim
  stateDim_optimize : ∀ q target t, stateDim (optimize q target t) = stateDim q

/-- The files that the exploration and the scripts share. -/
structure Workspace (P : Type) where
  dataState : Option Line
  stateNow : Option Line
  sortedBranchList : Option Line
  qNet : Option P
  targetQNet : Option P

/-- `branch_dim`. -/
def branchDim : Nat := 348

section Scripts

variable {P : Type} (T : Torch P)

/-- `load_state_dict` of the saved parameters where they are saved; it fails if
they are of another size. -/
def Torch.load (saved : Option P) (net : P) : Option P :=
  match saved with
  | none => some net
  | some p => if T.stateDim p = T.stateDim net then some p else none

namespace Workspace

/-- The networks of both scripts. -/
def loadNets (dim seed : Nat) (w : Workspace P) : Option (P × P) := do
  let q ← T.load w.qNet (T.init dim seed)
  let target ← T.load w.targetQNet (T.init dim (seed + 1))
  some (q, target)

/-- `get_state("data.state")`, which also saves the state. -/
def getState (w : Workspace P) : Option (List Int × Workspace P) := do
  let file ← w.dataState
  let state ← Conquest.getState file
  some (state, { w with stateNow := some (saveTxt state) })

/-- `DQN_sort.py`, when the agent sorts the branches as `order` has them. -/
def dqnSort (seed : Nat) (order : List Nat) (w : Workspace P) : Workspace P :=
  match w.getState with
  | none => w
  | some (state, w) =>
      match w.loadNets T state.length seed with
      | none => w
      | some _ => { w with sortedBranchList := some (networkFile order) }

/-- What `DQN_update.py` reads before it calls `get_state`. An array of one
number has no dimension, and its length cannot be taken. -/
def readUpdate (seed : Nat) (w : Workspace P) :
    Option (List Int × (P × P) × Int × Reward) := do
  let state ← w.stateNow.bind loadTxt
  if state.length = 1 then none
  let nets ← w.loadNets T state.length seed
  let file ← w.dataState
  let action ← getAction file
  let reward ← getReward Reward.texts file
  some (state, nets, action, reward)

/-- `DQN_update.py`, with the transition if it is learned. The counter of the
agent starts at zero, so that the target network is made equal every time. -/
def dqnUpdate (seed : Nat) (w : Workspace P) : Workspace P × Option Transition :=
  match w.readUpdate T seed with
  | none => (w, none)
  | some (state, (q, target), action, reward) =>
      match w.getState with
      | none => (w, none)
      | some (nextState, w) =>
          if nextState.length = state.length ∧ 0 ≤ action ∧ action < branchDim then
            let t : Transition := ⟨state, action, reward, nextState⟩
            let q := T.optimize q target t
            ({ w with qNet := some q, targetQNet := some q }, some t)
          else (w, none)

/-- `print_state_at_clock`. -/
def printState (calls : List StateRecord) (clock : Nat) (reward : Reward) (action : Nat)
    (w : Workspace P) : Workspace P :=
  { w with dataState := some (stateFile Reward.texts calls clock reward action) }

end Workspace

end Scripts

/-! ## The exploration with its agent -/

section Explore

variable {S : Type} {P : Type}

/-- An answer with the `;R` records of the log, what the agent and the random
numbers do in the scripts, and the distance of the block of the accepted
candidate. -/
structure LearnAnswer (S : Type) extends Answer S where
  states : List StateRecord
  order : List Nat
  order_perm : order.Perm (List.range branchDim)
  seed : Nat
  distance : Nat

def Event.isRead : Event → Bool
  | .read _ => true
  | .accept _ _ => false

/-- The calls of `add_state` so far, and the files. -/
structure Desk (P : Type) where
  calls : List StateRecord
  files : Workspace P

/-- What is written for an accepted candidate: its id, the reward, and the values
of the registers at its clock. -/
structure Report where
  action : Nat
  reward : Reward
  values : List Int
  deriving DecidableEq, Repr

inductive LearnEvent where
  | explored (e : Event)
  | printed (r : Report)
  | learned (t : Transition)

def LearnEvent.explored? : LearnEvent → Option Event
  | .explored e => some e
  | _ => none

def LearnEvent.printed? : LearnEvent → Option Report
  | .printed r => some r
  | _ => none

def LearnEvent.learned? : LearnEvent → Option Transition
  | .learned t => some t
  | _ => none

/-- The answer with the ranking that is in the file. -/
def LearnAnswer.ranked (a : LearnAnswer S) (files : Workspace P) : Answer S :=
  { a.toAnswer with actionList := readActionsFromFile files.sortedBranchList }

/-- The answer of an agent that is asked without files. -/
def LearnAnswer.direct (a : LearnAnswer S) : Answer S := { a.toAnswer with actionList := a.order }

/-- The files before a step: `find_next_cfg` starts `DQN_sort.py`. -/
def Desk.sort (T : Torch P) (x : Search S) (a : LearnAnswer S) (k : Desk P) : Workspace P :=
  match x.point with
  | .search _ _ => k.files.dqnSort T a.seed a.order
  | _ => k.files

/-- The desk after a step to `y` with a simulation or without: `find_next_cfg`
writes the state and starts `DQN_update.py` when the inputs of an accepted
candidate are simulated. -/
def Desk.update (T : Torch P) (x y : Search S) (a : LearnAnswer S) (simulated : Bool)
    (k : Desk P) : Desk P × List LearnEvent :=
  let calls := if simulated then k.calls ++ a.states else k.calls
  match x.point, x.selected with
  | .confirm _ clock, some (id, _) =>
      let reward := calculateReward y.session.isNewBlock a.distance
      let result := (k.files.printState calls clock reward id).dqnUpdate T a.seed
      ({ calls := calls, files := result.1 },
        .printed ⟨id, reward, (valuesAt calls clock).map Prod.snd⟩ ::
          result.2.toList.map .learned)
  | _, _ => ({ k with calls := calls }, [])

/-- `step_coverage` with its agent. -/
def Search.stepLearn [DecidableEq S] (T : Torch P) (d : Design S) (opts : Options)
    (firstAssign : Nat → Nat) (s : Search S × Desk P) (a : LearnAnswer S) :
    Option ((Search S × Desk P) × List LearnEvent) :=
  let files := s.2.sort T s.1 a
  (s.1.step d opts firstAssign (a.ranked files)).map fun (y, events) =>
    let (k, learning) := { s.2 with files := files }.update T s.1 y a (events.any Event.isRead)
    ((y, k), events.map .explored ++ learning)

end Explore

/-! ## What is to be learned -/

/-- The transitions from one written state to the next, from `s` on. -/
def trajectory : List Int → List Report → List Transition
  | _, [] => []
  | s, r :: reports => ⟨s, r.action, r.reward, r.values⟩ :: trajectory r.values reports

/-- The state that was written last. -/
def lastValues : List Int → List Report → List Int
  | s, [] => s
  | _, r :: reports => lastValues r.values reports

theorem trajectory_append (s : List Int) (reports reports' : List Report) :
    trajectory s (reports ++ reports') =
      trajectory s reports ++ trajectory (lastValues s reports) reports' := by
  induction reports generalizing s with
  | nil => rfl
  | cons r reports ih => simp [trajectory, lastValues, ih]

/-! ## The scripts on files that can be read -/

section Scripts

variable {P : Type} {T : Torch P}

/-- The saved networks are for states of `dim` values. -/
def Workspace.Fits (T : Torch P) (dim : Nat) (w : Workspace P) : Prop :=
  (∀ p, w.qNet = some p → T.stateDim p = dim) ∧ ∀ p, w.targetQNet = some p → T.stateDim p = dim

theorem Torch.load_of_stateDim {saved : Option P} {dim : Nat}
    (h : ∀ p, saved = some p → T.stateDim p = dim) (seed : Nat) :
    ∃ net, T.load saved (T.init dim seed) = some net ∧ T.stateDim net = dim := by
  cases saved with
  | none => exact ⟨_, rfl, T.stateDim_init dim seed⟩
  | some p =>
      have hp := h p rfl
      exact ⟨p, by simp [load, hp, T.stateDim_init], hp⟩

namespace Workspace

variable {w : Workspace P} {file : Line} {s : List Int}

theorem Fits.loadNets {dim : Nat} (h : w.Fits T dim) (seed : Nat) :
    ∃ q target, w.loadNets T dim seed = some (q, target) ∧ T.stateDim q = dim := by
  obtain ⟨q, hq, hdim⟩ := Torch.load_of_stateDim h.1 seed
  obtain ⟨target, htarget, -⟩ := Torch.load_of_stateDim h.2 (seed + 1)
  exact ⟨q, target, by simp [Workspace.loadNets, hq, htarget], hdim⟩

theorem getState_eq (hfile : w.dataState = some file) (hstate : Conquest.getState file = some s) :
    w.getState = some (s, { w with stateNow := some (saveTxt s) }) := by
  simp [getState, hfile, hstate]

/-- The agent ranks the branches and keeps the state. -/
theorem dqnSort_eq (hfile : w.dataState = some file) (hstate : Conquest.getState file = some s)
    (hfits : w.Fits T s.length) (seed : Nat) (order : List Nat) :
    w.dqnSort T seed order =
      { w with
        stateNow := some (saveTxt s)
        sortedBranchList := some (networkFile order) } := by
  have hfits' : Fits T s.length { w with stateNow := some (saveTxt s) } := hfits
  obtain ⟨q, target, hnets, -⟩ := hfits'.loadNets seed
  simp only [dqnSort, getState_eq hfile hstate, hnets]

/-- The agent learns the transition from the state that was kept, unless the
state has one value only. -/
theorem dqnUpdate_eq {values : List Int} {action : Nat} {reward : Reward}
    (hnow : w.stateNow = some (saveTxt s)) (hfile : w.dataState = some file)
    (haction : getAction file = some (action : Int))
    (hreward : getReward Reward.texts file = some reward)
    (hstate : Conquest.getState file = some values) (hlen : values.length = s.length)
    (hlt : action < branchDim) (hfits : w.Fits T s.length) (seed : Nat) :
    ∃ w' : Workspace P, w.dqnUpdate T seed =
        (w', if s.length = 1 then none else some ⟨s, action, reward, values⟩) ∧
      w'.dataState = w.dataState ∧ w'.Fits T s.length := by
  by_cases hone : s.length = 1
  · exact ⟨w, by simp [dqnUpdate, readUpdate, hnow, loadTxt_saveTxt, hone], rfl, hfits⟩
  · obtain ⟨q, target, hnets, hdim⟩ := hfits.loadNets seed
    have hread : w.readUpdate T seed = some (s, (q, target), (action : Int), reward) := by
      simp [readUpdate, hnow, loadTxt_saveTxt, hone, hnets, hfile, haction, hreward]
    have hlt' : (action : Int) < branchDim := by exact_mod_cast hlt
    have hdim' : ∀ p, some (T.optimize q target ⟨s, action, reward, values⟩) = some p →
        T.stateDim p = s.length := by
      rintro p ⟨⟩
      exact (T.stateDim_optimize _ _ _).trans hdim
    refine ⟨{ w with
      stateNow := some (saveTxt values)
      qNet := some (T.optimize q target ⟨s, action, reward, values⟩)
      targetQNet := some (T.optimize q target ⟨s, action, reward, values⟩) }, ?_, rfl, hdim', hdim'⟩
    simp [dqnUpdate, hread, getState_eq hfile hstate, hlen, hlt', hone]

end Workspace

end Scripts

/-! ## The state at a clock -/

section Records

variable {S : Type}

/-- What the design displays in a simulation: the registers of `names`, and when
the inputs of an accepted candidate are simulated all of them at its clock. -/
def LearnAnswer.Records (names : List Line) (x : Search S) (a : LearnAnswer S) : Prop :=
  (∀ r ∈ a.states, r.regName.chars ∈ names) ∧
    ∀ clock ∈ Rows.acceptedClock x.point, ∀ name ∈ names,
      ∃ r ∈ a.states, r.regName.chars = name ∧ r.clock = clock

instance (names : List Line) (x : Search S) (a : LearnAnswer S) :
    Decidable (a.Records names x) :=
  inferInstanceAs (Decidable (_ ∧ _))

variable {names : List Line} {calls : List StateRecord} {clock : Nat}

/-- All registers have a value at the clock. -/
theorem fileReadable_of_displayed (hnames : ∀ r ∈ calls, r.regName.chars ∈ names)
    (hheader : rewardKey ∉ names ∧ actionKey ∉ names)
    (hall : ∀ name ∈ names, ∃ r ∈ calls, r.regName.chars = name ∧ r.clock = clock) :
    FileReadable calls clock := by
  intro r hr
  have hname := hnames r hr
  refine ⟨hall _ hname, ?_, ?_⟩
  · intro heq
    exact hheader.1 (heq ▸ hname)
  · intro heq
    exact hheader.2 (heq ▸ hname)

/-- The file has one value for each register. -/
theorem length_valuesAt (hnodup : names.Nodup) (hnames : ∀ r ∈ calls, r.regName.chars ∈ names)
    (hheader : rewardKey ∉ names ∧ actionKey ∉ names)
    (hall : ∀ name ∈ names, ∃ r ∈ calls, r.regName.chars = name ∧ r.clock = clock) :
    (valuesAt calls clock).length = names.length := by
  have hsome := ((fileReadable_iff calls clock).mp
    (fileReadable_of_displayed hnames hheader hall)).1
  have hkeys : (valuesAt calls clock).map Prod.fst = (addStates calls).keys := by
    rw [valuesAt_eq, map_fst_present hsome, map_fst_registersAt]
  have hperm : (addStates calls).keys.Perm names := by
    apply (List.perm_ext_iff_of_nodup Std.TreeMap.nodup_keys hnodup).mpr
    intro name
    rw [Std.TreeMap.mem_keys, mem_addStates]
    constructor
    · rintro ⟨r, hr, rfl⟩
      exact hnames r hr
    · intro hname
      obtain ⟨r, hr, heq, -⟩ := hall name hname
      exact ⟨r, hr, heq⟩
  rw [← hperm.length_eq, ← hkeys, List.length_map]

end Records

/-! ## One step -/

section Step

variable {S : Type} [DecidableEq S] {P : Type} {T : Torch P} {d : Design S} {opts : Options}
  {firstAssign : Nat → Nat} {x y : Search S} {a : LearnAnswer S} {events : List Event}

/-- Only `find_next_cfg` looks at the ranking. -/
theorem step_ranked (h : ∀ target initClk, x.point ≠ .search target initClk)
    (files : Workspace P) :
    x.step d opts firstAssign (a.ranked files) = x.step d opts firstAssign a.direct := by
  unfold Search.step
  cases hpoint : x.point with
  | search target initClk => exact absurd hpoint (h target initClk)
  | _ => rfl

omit [DecidableEq S] in
theorem mem_actionList_of_rank {b : Answer S} {branches : List (Candidate S)}
    {cand : Candidate S} (h : cand ∈ b.rank branches) : cand.br.id ∈ b.actionList := by
  obtain ⟨id, hid, hmem⟩ := List.mem_flatMap.mp ((b.perm _).mem_iff.mp h)
  have heq : cand.br.id = id := by simpa using (List.mem_filter.mp hmem).2
  exact heq ▸ hid

theorem accepted_of_confirm {b : Answer S} (h : x.step d opts firstAssign b = some (y, events))
    {target clock : Nat} (hy : y.point = .confirm target clock) :
    (∃ initClk, x.point = .search target initClk) ∧
      ∃ id ∈ b.actionList, y.selected = some (id, clock) := by
  obtain ⟨initClk, path, cand, model, session, hpoint, hpath, htry, -, hselected⟩ :=
    Search.accept_of_confirm h hy
  have hid := mem_actionList_of_rank (Session.tryCandidates_mem htry)
  exact ⟨⟨initClk, hpoint⟩, cand.br.id, hid, hselected⟩

/-- The desk when `s` is the state that was written last. It is the one that is
kept when the inputs of a candidate are simulated. -/
structure Desk.Inv (T : Torch P) (names : List Line) (s : List Int) (x : Search S) (k : Desk P) :
    Prop where
  known : ∀ r ∈ k.calls, r.regName.chars ∈ names
  length : s.length = names.length
  written : ∃ file, k.files.dataState = some file ∧ getState file = some s
  fits : k.files.Fits T s.length
  kept : ∀ target clock, x.point = .confirm target clock →
    k.files.stateNow = some (saveTxt s) ∧ ∃ id < branchDim, x.selected = some (id, clock)

omit [DecidableEq S] in
theorem Desk.update_of_ne (h : ∀ target clock, x.point ≠ .confirm target clock) (y : Search S)
    (simulated : Bool) (k : Desk P) :
    k.update T x y a simulated =
      ({ k with calls := if simulated then k.calls ++ a.states else k.calls }, []) := by
  unfold Desk.update
  cases hpoint : x.point with
  | confirm target clock => exact absurd hpoint (h target clock)
  | _ => rfl

section Events

variable (events : List Event)

theorem explored?_map :
    (events.map LearnEvent.explored).filterMap LearnEvent.explored? = events := by
  simp [List.filterMap_map, Function.comp_def, LearnEvent.explored?]

theorem printed?_map : (events.map LearnEvent.explored).filterMap LearnEvent.printed? = [] := by
  simp [List.filterMap_map, Function.comp_def, LearnEvent.printed?]

theorem learned?_map : (events.map LearnEvent.explored).filterMap LearnEvent.learned? = [] := by
  simp [List.filterMap_map, Function.comp_def, LearnEvent.learned?]

end Events

section Inv

variable {names : List Line} {s : List Int} {k k' : Desk P} {learnEvents : List LearnEvent}

omit [DecidableEq S] in
theorem Desk.Inv.known_calls (h : k.Inv T names s x) (hrecords : a.Records names x)
    (simulated : Bool) :
    ∀ r ∈ if simulated then k.calls ++ a.states else k.calls, r.regName.chars ∈ names := by
  intro r hr
  split at hr
  · rcases List.mem_append.mp hr with hr | hr
    · exact h.known r hr
    · exact hrecords.1 r hr
  · exact h.known r hr

omit [DecidableEq S] in
/-- The agent ranks the branches of the design in its order. -/
theorem Desk.Inv.sort (h : k.Inv T names s x) {target initClk : Nat}
    (hpoint : x.point = .search target initClk) :
    k.sort T x a = { k.files with
      stateNow := some (saveTxt s)
      sortedBranchList := some (networkFile a.order) } := by
  obtain ⟨file, hfile, hstate⟩ := h.written
  simp only [Desk.sort, hpoint]
  exact Workspace.dqnSort_eq hfile hstate h.fits a.seed a.order

omit [DecidableEq S] in
theorem LearnAnswer.ranked_eq {files : Workspace P}
    (h : files.sortedBranchList = some (networkFile a.order)) : a.ranked files = a.direct := by
  have hids : ∀ id ∈ a.order, id < 2 ^ 32 := fun id hid =>
    (List.mem_range.mp (a.order_perm.mem_iff.mp hid)).trans (by decide)
  rw [ranked, h, readActionsFromFile_networkFile hids, direct]

/-- What the step with the agent does, from the step without it. -/
def LearnsFrom (names : List Line) (s : List Int) (learnEvents : List LearnEvent) : Prop :=
  learnEvents.filterMap LearnEvent.learned? =
    if names.length = 1 then []
    else trajectory s (learnEvents.filterMap LearnEvent.printed?)

theorem learnsFrom_map (names : List Line) (s : List Int) (events : List Event) :
    LearnsFrom names s (events.map .explored) := by
  rw [LearnsFrom, learned?_map, printed?_map, trajectory, ite_self]

omit [DecidableEq S] in
/-- The desk after the state at the clock of the accepted candidate is written. -/
theorem Desk.Inv.update (hnodup : names.Nodup) (hheader : rewardKey ∉ names ∧ actionKey ∉ names)
    (h : k.Inv T names s x) (hrecords : a.Records names x) {target clock : Nat}
    (hpoint : x.point = .confirm target clock)
    (hy : ∀ target clock, y.point ≠ .confirm target clock)
    (hupdate : k.update T x y a true = (k', learnEvents)) :
    k'.Inv T names (lastValues s (learnEvents.filterMap LearnEvent.printed?)) y ∧
      learnEvents.filterMap LearnEvent.explored? = [] ∧ LearnsFrom names s learnEvents := by
  obtain ⟨hnow, id, hid, hselected⟩ := h.kept target clock hpoint
  have hknown : ∀ r ∈ k.calls ++ a.states, r.regName.chars ∈ names :=
    h.known_calls hrecords true
  have hdisplayed : ∀ name ∈ names, ∃ r ∈ k.calls ++ a.states,
      r.regName.chars = name ∧ r.clock = clock := by
    intro name hname
    obtain ⟨r, hr, hrest⟩ := hrecords.2 clock (by simp [hpoint, Rows.acceptedClock]) name hname
    exact ⟨r, List.mem_append_right _ hr, hrest⟩
  generalize hvalues : (valuesAt (k.calls ++ a.states) clock).map Prod.snd = values
  have hlen : values.length = names.length := by
    rw [← hvalues, List.length_map, length_valuesAt hnodup hknown hheader hdisplayed]
  generalize hreward : calculateReward y.session.isNewBlock a.distance = reward
  obtain ⟨-, hreward', haction, hstate⟩ :=
    (Reward.readsBack_texts_iff (k.calls ++ a.states) clock reward id).mpr
      (fileReadable_of_displayed hknown hheader hdisplayed)
  rw [hvalues] at hstate
  generalize hw : k.files.printState (k.calls ++ a.states) clock reward id = w
  have hfile : w.dataState =
      some (stateFile Reward.texts (k.calls ++ a.states) clock reward id) := hw ▸ rfl
  have hfits : w.Fits T s.length := hw ▸ h.fits
  obtain ⟨w', hdqn, hfile', hfits'⟩ := Workspace.dqnUpdate_eq (hw ▸ hnow) hfile haction hreward'
    hstate (hlen.trans h.length.symm) hid hfits a.seed
  simp only [Desk.update, hpoint, hselected, hreward, hvalues, if_true, hw, hdqn] at hupdate
  cases hupdate
  have hprinted : ∀ learned : Option Transition,
      (LearnEvent.printed ⟨id, reward, values⟩ ::
        learned.toList.map LearnEvent.learned).filterMap LearnEvent.printed? =
      [⟨id, reward, values⟩] := by
    intro learned
    cases learned <;> rfl
  rw [hprinted]
  refine ⟨⟨hknown, hlen, ⟨_, hfile'.trans hfile, hstate⟩, ?_, ?_⟩, ?_, ?_⟩
  · show w'.Fits T values.length
    rwa [hlen, ← h.length]
  · exact fun target clock hconfirm => absurd hconfirm (hy target clock)
  · split <;> rfl
  · rw [LearnsFrom, hprinted, ← h.length]
    split <;> rfl

/-- The scripts before a step: the ranking is the order of the agent where it is
looked at. -/
theorem Desk.Inv.sorted (h : k.Inv T names s x) (d : Design S) (opts : Options)
    (firstAssign : Nat → Nat) (a : LearnAnswer S) :
    Desk.Inv T names s x { k with files := k.sort T x a } ∧
      x.step d opts firstAssign (a.ranked (k.sort T x a)) =
        x.step d opts firstAssign a.direct ∧
      ∀ target initClk, x.point = .search target initClk →
        (k.sort T x a).stateNow = some (saveTxt s) := by
  by_cases hsearch : ∃ target initClk, x.point = .search target initClk
  · obtain ⟨target, initClk, hpoint⟩ := hsearch
    rw [h.sort hpoint, LearnAnswer.ranked_eq rfl]
    refine ⟨⟨h.known, h.length, h.written, h.fits, ?_⟩, rfl, fun _ _ _ => rfl⟩
    intro target clock hconfirm
    cases hpoint.symm.trans hconfirm
  · have hpoint : ∀ target initClk, x.point ≠ .search target initClk :=
      fun target initClk heq => hsearch ⟨target, initClk, heq⟩
    have hfiles : k.sort T x a = k.files := by
      unfold Desk.sort
      cases hp : x.point with
      | search target initClk => exact absurd hp (hpoint target initClk)
      | _ => rfl
    rw [hfiles, step_ranked hpoint]
    exact ⟨h, rfl, fun target initClk heq => absurd heq (hpoint target initClk)⟩

theorem Search.stepLearn_eq_some
    (h : Search.stepLearn T d opts firstAssign (x, k) a = some ((y, k'), learnEvents)) :
    ∃ events learning,
      x.step d opts firstAssign (a.ranked (k.sort T x a)) = some (y, events) ∧
      Desk.update T x y a (events.any Event.isRead) { k with files := k.sort T x a } =
        (k', learning) ∧
      learnEvents = events.map .explored ++ learning := by
  obtain ⟨⟨z, events⟩, hstep, heq⟩ := Option.map_eq_some_iff.mp h
  cases heq
  exact ⟨events, _, hstep, rfl, rfl⟩

omit [DecidableEq S] in
theorem read_of_simulate [DecidableEq S] {b : Answer S} {z : Search S}
    (h : x.simulate d b = some (z, events)) : events.any Event.isRead = true := by
  obtain ⟨session, -, heq⟩ := Option.map_eq_some_iff.mp h
  cases heq
  rfl

/-- **One step with the agent.** It is the step of the exploration with the
agent's order, and it learns the transitions between the states it writes. -/
theorem Desk.Inv.stepLearn (hnodup : names.Nodup)
    (hheader : rewardKey ∉ names ∧ actionKey ∉ names) (h : k.Inv T names s x)
    (hrecords : a.Records names x)
    (hstep : Search.stepLearn T d opts firstAssign (x, k) a = some ((y, k'), learnEvents)) :
    x.step d opts firstAssign a.direct = some (y, learnEvents.filterMap LearnEvent.explored?) ∧
      k'.Inv T names (lastValues s (learnEvents.filterMap LearnEvent.printed?)) y ∧
      LearnsFrom names s learnEvents := by
  obtain ⟨hsorted, hdirect, hkept⟩ := h.sorted d opts firstAssign a
  obtain ⟨events, learning, hmoves, hupdate, rfl⟩ := Search.stepLearn_eq_some hstep
  rw [hdirect] at hmoves
  rw [List.filterMap_append, List.filterMap_append, explored?_map, printed?_map, List.nil_append]
  by_cases hconfirm : ∃ target clock, x.point = .confirm target clock
  · obtain ⟨target, clock, hpoint⟩ := hconfirm
    have hread : events.any Event.isRead = true := by
      cases Search.moves_of_step hmoves with
      | confirm hp hsim => exact read_of_simulate hsim
      | _ => simp_all
    have hy : ∀ target clock, y.point ≠ .confirm target clock := by
      intro target' clock' hy
      obtain ⟨⟨initClk, hsearch⟩, -⟩ := accepted_of_confirm hmoves hy
      cases hpoint.symm.trans hsearch
    rw [hread] at hupdate
    obtain ⟨hinv, hnone, hlearns⟩ := hsorted.update hnodup hheader hrecords hpoint hy hupdate
    refine ⟨by rw [hmoves, hnone, List.append_nil], hinv, ?_⟩
    rw [LearnsFrom, List.filterMap_append, List.filterMap_append, learned?_map, printed?_map]
    exact hlearns
  · have hpoint : ∀ target clock, x.point ≠ .confirm target clock :=
      fun target clock heq => hconfirm ⟨target, clock, heq⟩
    rw [Desk.update_of_ne hpoint] at hupdate
    cases hupdate
    refine ⟨by rw [hmoves, List.filterMap_nil, List.append_nil], ⟨hsorted.known_calls hrecords _,
      h.length, hsorted.written, hsorted.fits, ?_⟩, ?_⟩
    · intro target clock hy
      obtain ⟨⟨initClk, hsearch⟩, id, hid, hselected⟩ := accepted_of_confirm hmoves hy
      have hlt := List.mem_range.mp (a.order_perm.mem_iff.mp hid)
      exact ⟨hkept _ _ hsearch, id, hlt, hselected⟩
    · rw [List.append_nil]
      exact learnsFrom_map names s events

/-- A whole run with the agent. -/
theorem Desk.Inv.observe (hnodup : names.Nodup)
    (hheader : rewardKey ∉ names ∧ actionKey ∉ names) {answers : List (LearnAnswer S)}
    (h : k.Inv T names s x)
    (hrecords : ObservedSteps (Search.stepLearn T d opts firstAssign)
      (fun t a => a.Records names t.1) (x, k) answers)
    (hrun : Run.observe (Search.stepLearn T d opts firstAssign) (x, k) answers =
      some ((y, k'), learnEvents)) :
    Run.observe (Search.step d opts firstAssign) x (answers.map LearnAnswer.direct) =
        some (y, learnEvents.filterMap LearnEvent.explored?) ∧
      LearnsFrom names s learnEvents := by
  induction answers generalizing s x k learnEvents with
  | nil =>
      cases hrun
      exact ⟨rfl, learnsFrom_map names s []⟩
  | cons a answers ih =>
      obtain ⟨⟨z, k₁⟩, es₁, es₂, hstep, hrest, rfl⟩ := observe_cons hrun
      obtain ⟨hmoves, hinv, hlearns⟩ := h.stepLearn hnodup hheader hrecords.1 hstep
      obtain ⟨hruns, hlearns'⟩ := ih hinv (hrecords.2 _ _ hstep) hrest
      constructor
      · rw [List.map_cons, List.filterMap_append]
        exact observe_cons_of_step hmoves hruns
      · rw [LearnsFrom] at hlearns hlearns'
        rw [LearnsFrom, List.filterMap_append, List.filterMap_append, hlearns, hlearns',
          trajectory_append]
        split <;> rfl

end Inv

end Step

/-! ## The agent learns what was explored -/

section Learns

variable {S : Type} [DecidableEq S] {P : Type} {T : Torch P} {d : Design S} {opts : Options}
  {firstAssign : Nat → Nat}

/-- **The agent's trajectory.** Let every simulation display the registers of the
design. A run of `step_coverage` with the scripts is then the run of an
exploration that ranks with the agent's order directly, and the transitions that
the agent learns are those from one state written for an accepted candidate to
the next, with its id and its reward, from the state in the file at the start on.
If the design has exactly one register, the agent learns nothing. -/
theorem stepCoverage_learns {printed : Nat → List Char} {session : Session S}
    {targets : List Nat} {names : List Line} (hnodup : names.Nodup)
    (hheader : rewardKey ∉ names ∧ actionKey ∉ names) {w : Workspace P} {file : Line}
    {s : List Int} (hfile : w.dataState = some file) (hstate : getState file = some s)
    (hlength : s.length = names.length) (hfits : w.Fits T s.length)
    {answers : List (LearnAnswer S)}
    (hrecords : ObservedSteps (Search.stepLearn T d opts firstAssign)
      (fun t a => a.Records names t.1) (Search.start d opts printed session targets, ⟨[], w⟩)
      answers)
    {x : Search S} {k : Desk P} {events : List LearnEvent}
    (hrun : observe (Search.stepLearn T d opts firstAssign)
      (Search.start d opts printed session targets, ⟨[], w⟩) answers = some ((x, k), events)) :
    observe (Search.step d opts firstAssign) (Search.start d opts printed session targets)
        (answers.map LearnAnswer.direct) =
      some (x, events.filterMap LearnEvent.explored?) ∧
    events.filterMap LearnEvent.learned? =
      if names.length = 1 then [] else trajectory s (events.filterMap LearnEvent.printed?) := by
  have hinv : Desk.Inv T names s (Search.start d opts printed session targets) ⟨[], w⟩ := by
    refine ⟨?_, hlength, ⟨file, hfile, hstate⟩, hfits, ?_⟩
    · simp
    · intro target clock hpoint
      cases hpoint
  exact hinv.observe hnodup hheader hrecords hrun

end Learns

/-! ## One candidate -/

/-- Networks of which only the size is kept. -/
def sizeTorch : Torch Nat where
  stateDim := id
  init dim _ := dim
  optimize q _ _ := q
  stateDim_init _ _ := rfl
  stateDim_optimize _ _ _ := rfl

def learnNames : List Line := [['q'], ['r']]

/-- `q` is one at clock 2, and `r` at clock 1. -/
def learnStates : List StateRecord :=
  [⟨⟨['q'], by decide, by decide⟩, 0, 1⟩, ⟨⟨['r'], by decide, by decide⟩, 1, 1⟩,
    ⟨⟨['q'], by decide, by decide⟩, 1, 2⟩, ⟨⟨['r'], by decide, by decide⟩, 0, 2⟩]

def learnAnswer : LearnAnswer Bool :=
  { elseAnswer with
    states := learnStates
    order := List.range branchDim
    order_perm := .refl _
    seed := 0
    distance := 2 }

/-- The state of an earlier exploration, in which both registers are zero. -/
def learnWorkspace : Workspace Nat where
  dataState := some "reward: 0\nAction: 0\nq: 0\nr: 0\n".toList
  stateNow := none
  sortedBranchList := none
  qNet := none
  targetQNet := none

def learnStart : Search Bool × Desk Nat :=
  (Search.start elseDesign elseOptions (fun _ => ['a']) elseSession [0], ⟨[], learnWorkspace⟩)

/-- The transition to the state at the accepted clock is learned. -/
theorem learn_trajectory :
    ∃ x k events, observe (Search.stepLearn sizeTorch elseDesign elseOptions fun _ => 0)
        learnStart (List.replicate 6 learnAnswer) = some ((x, k), events) ∧
      events.filterMap LearnEvent.learned? = [⟨[0, 0], 0, .tenth, [1, 0]⟩] := by
  have hprinted : (observe (Search.stepLearn sizeTorch elseDesign elseOptions fun _ => 0)
      learnStart (List.replicate 6 learnAnswer)).map
        (fun r => r.2.filterMap LearnEvent.printed?) = some [⟨0, .tenth, [1, 0]⟩] := by
    decide +kernel
  obtain ⟨⟨⟨x, k⟩, events⟩, hrun, hreports⟩ := Option.map_eq_some_iff.mp hprinted
  have hrecords : ObservedSteps (Search.stepLearn sizeTorch elseDesign elseOptions fun _ => 0)
      (fun t a => a.Records learnNames t.1) learnStart (List.replicate 6 learnAnswer) := by
    decide +kernel
  have hstate : getState "reward: 0\nAction: 0\nq: 0\nr: 0\n".toList = some [0, 0] := by
    decide +kernel
  refine ⟨x, k, events, hrun, ?_⟩
  obtain ⟨-, hlearned⟩ := stepCoverage_learns (by decide : learnNames.Nodup) (by decide)
    (w := learnWorkspace) rfl hstate rfl ⟨nofun, nofun⟩ hrecords hrun
  rw [hlearned, hreports]
  rfl

end Conquest
