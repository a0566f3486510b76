import Conquest.Explore.Query
import Conquest.Lib.Text

/-!
# StepCoverage — the whole exploration

`step_coverage` simulates random inputs, then takes one target after the other
and extends a path towards it: it simulates the path with random inputs added,
lets `find_next_cfg` pick an alternative, and simulates the inputs of the model.
What the simulator prints, the solver answers, the network ranks and the
distances prefer comes from outside.
-/

namespace Conquest

open Bv Run Text

variable {S : Type}

/-! ## State -/

/-- The flags of the command line and the constants of the exploration. -/
structure Options where
  unroll : Nat
  step : Nat
  randomSimNum : Nat
  totalLimit : Nat
  enableErrorCheck : Bool
  resetSigName : List Char

/-- A program point, with the locals that are live there. -/
inductive Point where
  /-- In the loop of the random simulations. -/
  | random (i : Nat)
  /-- At the head of the loop over the targets. -/
  | pick
  /-- At the call of `concolic_iteration`. -/
  | iterate (target : Nat)
  /-- At the call of `find_next_cfg`. -/
  | search (target initClk : Nat)
  /-- An alternative is accepted; its inputs are simulated. -/
  | confirm (target clock : Nat)
  /-- `find_next_cfg` has returned; the inputs are simulated again. -/
  | again (target clock : Nat)
  /-- The path has become too long and starts anew. -/
  | restart (target : Nat)
  | done

/-- The variables of the exploration. Targets are blocks; paths are objects that
several variables may point to. -/
structure Search (S : Type) where
  session : Session S
  coveredTargetList : List Nat
  uncoveredTargetList : List Nat
  /-- `data.get_clk()` of the path objects. -/
  clk : Nat → Nat
  pathCount : Nat
  path : Option Nat
  closestPath : Nat → Option Nat
  /-- `selected_branch` and `selected_clock`. -/
  selected : Option (Nat × Nat)
  point : Point

/-- What comes from outside in one step. -/
structure Answer (S : Type) where
  log : List LogRecord
  check : Check
  /-- The ranking that the network writes. -/
  actionList : List Nat
  /-- `sort` by distance, which depends on the blocks. -/
  byDist : List (Candidate S) → List (Candidate S)
  perm : ∀ cands, (byDist cands).Perm cands
  /-- The targets that the new path is closest to. -/
  isCloser : Nat → Bool

/-- What is observed: the records of a log that `build_stack` read, and the
alternatives that `find_next_cfg` accepted. -/
inductive Event where
  | read (records : List LogRecord)
  | accept (id clock : Nat)
  deriving DecidableEq

/-! ## Instrumentation -/

/-- `skip_assign`: the printed record contains the name of the reset signal. -/
def skipAssign (opts : Options) (str : List Char) : Bool := (find opts.resetSigName str).isSome

/-- One call of `instrument` for a record, printed as `str`. -/
def Coverage.instrument (opts : Options) (str : List Char) (assign : SMTAssign S)
    (c : Coverage) : Coverage :=
  if skipAssign opts str then
    { c.setCovered 0 assign.id with
      coveredBranchCount := c.coveredBranchCount + if assign.isBranch then 1 else 0 }
  else c

/-- The flags after the design is emitted. -/
def instrumented (opts : Options) (d : Design S) (printed : Nat → List Char) : Coverage :=
  d.assignMap.foldl
    (fun c assign => Nat.iterate (Coverage.instrument opts (printed assign.id) assign)
      (d.instrumentedAgain assign.id + 1) c)
    { coveredInSim := fun _ => none
      atClock := fun _ _ => false
      coveredBranchCount := 0 }

/-! ## Steps -/

/-- `update_path_taken`. -/
def Session.updatePathTaken (d : Design S) (cand : Candidate S) (x : Session S) : Session S :=
  { x with pathHashMap := x.pathHashMap.insert (altPathHash d cand) }

/-- `sortBranches`, then `sort` by distance. -/
def Answer.rank (a : Answer S) (branches : List (Candidate S)) : List (Candidate S) :=
  a.byDist (a.actionList.flatMap fun id => branches.filter fun cand => cand.br.id = id)

namespace Search

variable [DecidableEq S] (d : Design S) (opts : Options) (firstAssign : Nat → Nat)

/-- `target->assign_list[0]->is_covered()`. -/
def isCovered (target : Nat) (x : Search S) : Bool :=
  x.session.coverage.isCovered (firstAssign target)

/-- `new SMTPath`, of data that ends at `clk`. -/
def newPath (clk : Nat) (x : Search S) : Search S :=
  { x with
    clk := Function.update x.clk x.pathCount clk
    pathCount := x.pathCount + 1
    path := some x.pathCount }

/-- `update_all_closest_paths`. -/
def updateAllClosestPaths (isCloser : Nat → Bool) (x : Search S) : Search S :=
  { x with
    closestPath := fun target =>
      if target ∈ x.session.targetList ∧ isCloser target then x.path else x.closestPath target }

/-- `remove_covered_targets`. -/
def removeCoveredTargets (x : Search S) : Search S :=
  { x with
    session := { x.session with
      targetList := x.session.targetList.filter fun target => !x.isCovered firstAssign target }
    coveredTargetList := x.coveredTargetList ++
      x.session.targetList.filter fun target => x.isCovered firstAssign target }

/-- A simulation, with the records that `build_stack` reads. -/
def simulate (a : Answer S) (x : Search S) : Option (Search S × List Event) :=
  (x.session.simulateBuildStack d a.log).map fun session =>
    ({ x with session := session },
      [.read (recorded x.session.simClk (.clock 0 :: a.log))])

/-- `explore_one_step`, of the path object `path`. -/
def exploreOneStep (path : Nat) (a : Answer S) (x : Search S) :
    Option (Search S × List Event) :=
  let clk := x.clk path + opts.step
  simulate d a
    { x with
      clk := Function.update x.clk path clk
      session := { x.session with simClk := clk } }

/-- The checks at the start of `concolic_iteration`. -/
def errorCheck (a : Answer S) (x : Search S) : Option (Search S) :=
  if opts.enableErrorCheck then
    (x.session.checkSatisfiability d a.check).bind fun session =>
      if x.selected.all fun (id, clock) => session.coverage.atClock id clock then
        some { x with session := session }
      else none
  else some x

/-- The accepted alternative is taken for covered before its inputs are
simulated, unless the simulation is checked afterwards. -/
def accept (cand : Candidate S) (x : Search S) : Option (Search S) :=
  let session := x.session.updatePathTaken d cand
  (if opts.enableErrorCheck then some session
    else session.setCoveredClk (session.simNum + 1) cand.br.id cand.cnst.clock).map fun session =>
      { x with
        session := { session with simClk := cand.cnst.clock }
        selected := some (cand.br.id, cand.cnst.clock) }

/-- The last tests in the loop over the paths to a target. -/
def checkTarget (target : Nat) (x : Search S) : Search S :=
  if x.session.simNum ≥ opts.totalLimit then
    { x with
      session := { x.session with targetList := x.session.targetList.tail }
      uncoveredTargetList := x.uncoveredTargetList ++ [target]
      point := .pick }
  else if x.isCovered firstAssign target then
    { x.removeCoveredTargets firstAssign with point := .pick }
  else { x with point := .iterate target }

/-- From one program point to the next. -/
def step (x : Search S) (a : Answer S) : Option (Search S × List Event) :=
  match x.point with
  | .random i =>
      if i < opts.randomSimNum then
        (x.simulate d a).map fun (x, events) =>
          ({ (x.newPath opts.step).updateAllClosestPaths a.isCloser with
              point := .random (i + 1) }, events)
      -- the clock of the last path is read, and without simulations there is none
      else if x.path.isNone then none
      else some ({ x.removeCoveredTargets firstAssign with point := .pick }, [])
  | .pick =>
      match x.session.targetList with
      | [] => some ({ x with point := .done }, [])
      | target :: targets =>
          let x := { x with session := { x.session with simNum := 0 } }
          if x.isCovered firstAssign target then
            some ({ x with
              session := { x.session with targetList := targets }
              coveredTargetList := x.coveredTargetList ++ [target] }, [])
          -- `g_sim_clk` keeps the value of the last simulation here
          else if (x.closestPath target).isSome ∧ x.closestPath target ≠ x.path then
            (simulate d a { x with path := x.closestPath target }).map fun (x, events) =>
              ({ x with selected := none, point := .iterate target }, events)
          else some ({ x with selected := none, point := .iterate target }, [])
  | .iterate target =>
      x.path.bind fun path =>
        (x.errorCheck d opts a).bind fun y =>
          (y.exploreOneStep d opts path a).map fun (y, events) =>
            ({ y with point := .search target (x.clk path) }, events)
  | .search target initClk =>
      x.path.bind fun path =>
        let branches := x.session.branches d (initClk + 1) (x.clk path)
        (x.session.tryCandidates d a.check (a.rank branches)).bind fun
          | (none, session) => some ({ x with session := session, path := none, point := .pick }, [])
          | (some (cand, _), session) =>
              (accept d opts cand { x with session := session }).map fun x =>
                ({ x with point := .confirm target cand.cnst.clock },
                  [.accept cand.br.id cand.cnst.clock])
  | .confirm target clock =>
      (x.simulate d a).map fun (x, events) =>
        ({ x with session := x.session.dumpError d a.check, point := .again target clock }, events)
  | .again target clock =>
      (x.simulate d a).map fun (x, events) =>
        let x := x.newPath clock
        if clock > opts.unroll then
          if x.isCovered firstAssign target then
            ({ x.removeCoveredTargets firstAssign with point := .pick }, events)
          else
            -- `ClearPath` of the new path object, and `constraints_stack` is emptied
            ({ x with
                clk := Function.update x.clk (x.pathCount - 1) 0
                session := { x.session with stack := [], simNum := x.session.simNum + 1 }
                point := .restart target }, events)
        else (x.checkTarget opts firstAssign target, events)
  | .restart target =>
      x.path.bind fun path =>
        (x.exploreOneStep d opts path a).map fun (x, events) =>
          (x.checkTarget opts firstAssign target, events)
  | .done => none

/-- `step_coverage` of the targets, after the signals and the context are set up
in `session`. -/
def start (printed : Nat → List Char) (session : Session S) (targets : List Nat) : Search S where
  session := { session with
    sigs := session.sigs.clearAllVersions
    coverage := instrumented opts d printed
    targetList := targets
    simNum := 0
    simClk := opts.step }
  coveredTargetList := []
  uncoveredTargetList := []
  clk := fun _ => 0
  pathCount := 0
  path := none
  closestPath := fun _ => none
  selected := none
  point := .random 0

end Search

/-! ## What a step does -/

section Moves

variable [DecidableEq S] {d : Design S} {opts : Options} {firstAssign : Nat → Nat}

/-- The ways to go from one program point to the next, each with what it does to
the variables. -/
inductive Search.Moves (d : Design S) (opts : Options) (firstAssign : Nat → Nat) (x : Search S)
    (a : Answer S) : Search S → List Event → Prop
  | random {i : Nat} {z : Search S} {events : List Event} (hpoint : x.point = .random i)
      (hlt : i < opts.randomSimNum) (hsim : x.simulate d a = some (z, events)) :
      Moves d opts firstAssign x a
        { (z.newPath opts.step).updateAllClosestPaths a.isCloser with point := .random (i + 1) }
        events
  | explore {i : Nat} (hpoint : x.point = .random i) (hge : ¬ i < opts.randomSimNum)
      (hpath : x.path.isSome) :
      Moves d opts firstAssign x a { x.removeCoveredTargets firstAssign with point := .pick } []
  | finish (hpoint : x.point = .pick) (htargets : x.session.targetList = []) :
      Moves d opts firstAssign x a { x with point := .done } []
  | skip {target : Nat} {targets : List Nat} (hpoint : x.point = .pick)
      (htargets : x.session.targetList = target :: targets)
      (hcovered : x.isCovered firstAssign target = true) :
      Moves d opts firstAssign x a
        { x with
          session := { x.session with simNum := 0, targetList := targets }
          coveredTargetList := x.coveredTargetList ++ [target]
          point := .pick } []
  | resume {target : Nat} {targets : List Nat} {z : Search S} {events : List Event}
      (hpoint : x.point = .pick) (htargets : x.session.targetList = target :: targets)
      (hcovered : x.isCovered firstAssign target = false)
      (hclosest : (x.closestPath target).isSome ∧ x.closestPath target ≠ x.path)
      (hsim : simulate d a
        { x with
          session := { x.session with simNum := 0 }
          path := x.closestPath target
          point := .pick } = some (z, events)) :
      Moves d opts firstAssign x a { z with selected := none, point := .iterate target } events
  | stay {target : Nat} {targets : List Nat} (hpoint : x.point = .pick)
      (htargets : x.session.targetList = target :: targets)
      (hcovered : x.isCovered firstAssign target = false)
      (hclosest : ¬ ((x.closestPath target).isSome ∧ x.closestPath target ≠ x.path)) :
      Moves d opts firstAssign x a
        { x with
          session := { x.session with simNum := 0 }
          selected := none
          point := .iterate target } []
  | iterate {target path : Nat} {w z : Search S} {events : List Event}
      (hpoint : x.point = .iterate target) (hpath : x.path = some path)
      (hcheck : x.errorCheck d opts a = some w)
      (hsim : w.exploreOneStep d opts path a = some (z, events)) :
      Moves d opts firstAssign x a { z with point := .search target (x.clk path) } events
  | reject {target initClk path : Nat} {session : Session S}
      (hpoint : x.point = .search target initClk) (hpath : x.path = some path)
      (htry : x.session.tryCandidates d a.check
        (a.rank (x.session.branches d (initClk + 1) (x.clk path))) = some (none, session)) :
      Moves d opts firstAssign x a
        { x with session := session, path := none, point := .pick } []
  | accept {target initClk path : Nat} {cand : Candidate S} {model : Valuation}
      {session : Session S} {z : Search S} (hpoint : x.point = .search target initClk)
      (hpath : x.path = some path)
      (htry : x.session.tryCandidates d a.check
        (a.rank (x.session.branches d (initClk + 1) (x.clk path))) =
          some (some (cand, model), session))
      (haccept : accept d opts cand
        { x with session := session, point := .search target initClk } = some z) :
      Moves d opts firstAssign x a { z with point := .confirm target cand.cnst.clock }
        [.accept cand.br.id cand.cnst.clock]
  | confirm {target clock : Nat} {z : Search S} {events : List Event}
      (hpoint : x.point = .confirm target clock) (hsim : x.simulate d a = some (z, events)) :
      Moves d opts firstAssign x a
        { z with session := z.session.dumpError d a.check, point := .again target clock } events
  | cover {target clock : Nat} {z : Search S} {events : List Event}
      (hpoint : x.point = .again target clock) (hsim : x.simulate d a = some (z, events))
      (hlong : clock > opts.unroll) :
      Moves d opts firstAssign x a
        { (z.newPath clock).removeCoveredTargets firstAssign with point := .pick } events
  | clear {target clock : Nat} {z : Search S} {events : List Event}
      (hpoint : x.point = .again target clock) (hsim : x.simulate d a = some (z, events))
      (hlong : clock > opts.unroll) :
      Moves d opts firstAssign x a
        { z.newPath clock with
          clk := Function.update (z.newPath clock).clk z.pathCount 0
          session := { z.session with stack := [], simNum := z.session.simNum + 1 }
          point := .restart target } events
  | again {target clock : Nat} {z : Search S} {events : List Event}
      (hpoint : x.point = .again target clock) (hsim : x.simulate d a = some (z, events)) :
      Moves d opts firstAssign x a ((z.newPath clock).checkTarget opts firstAssign target) events
  | restart {target path : Nat} {z : Search S} {events : List Event}
      (hpoint : x.point = .restart target) (hpath : x.path = some path)
      (hsim : x.exploreOneStep d opts path a = some (z, events)) :
      Moves d opts firstAssign x a (z.checkTarget opts firstAssign target) events

/-- A step is one of these moves. -/
theorem Search.moves_of_step {x y : Search S} {a : Answer S} {events : List Event}
    (h : x.step d opts firstAssign a = some (y, events)) :
    x.Moves d opts firstAssign a y events := by
  unfold step at h
  cases hpoint : x.point with
  | random i =>
      simp only [hpoint] at h
      split at h
      · rename_i hlt
        obtain ⟨⟨z, events⟩, hsim, heq⟩ := Option.map_eq_some_iff.mp h
        cases heq
        exact .random hpoint hlt hsim
      · rename_i hge
        split at h
        · cases h
        · rename_i hpath
          cases h
          exact .explore hpoint hge (by simpa [Option.isSome_iff_ne_none] using hpath)
  | pick =>
      simp only [hpoint] at h
      split at h
      · rename_i htargets
        cases h
        exact .finish hpoint htargets
      · rename_i target targets htargets
        split at h
        · rename_i hcovered
          cases h
          exact .skip hpoint htargets hcovered
        · rename_i hcovered
          have hcovered := Bool.eq_false_of_not_eq_true hcovered
          split at h
          · rename_i hclosest
            obtain ⟨⟨z, events⟩, hsim, heq⟩ := Option.map_eq_some_iff.mp h
            cases heq
            exact .resume hpoint htargets hcovered hclosest hsim
          · rename_i hclosest
            cases h
            exact .stay hpoint htargets hcovered hclosest
  | iterate target =>
      simp only [hpoint] at h
      obtain ⟨path, hpath, h⟩ := Option.bind_eq_some_iff.mp h
      obtain ⟨w, hcheck, h⟩ := Option.bind_eq_some_iff.mp h
      obtain ⟨⟨z, events⟩, hsim, heq⟩ := Option.map_eq_some_iff.mp h
      cases heq
      exact .iterate hpoint hpath hcheck hsim
  | search target initClk =>
      simp only [hpoint] at h
      obtain ⟨path, hpath, h⟩ := Option.bind_eq_some_iff.mp h
      obtain ⟨⟨found, session⟩, htry, h⟩ := Option.bind_eq_some_iff.mp h
      cases found with
      | none =>
          cases h
          exact .reject hpoint hpath htry
      | some found =>
          obtain ⟨z, haccept, heq⟩ := Option.map_eq_some_iff.mp h
          cases heq
          exact .accept hpoint hpath htry haccept
  | confirm target clock =>
      simp only [hpoint] at h
      obtain ⟨⟨z, events⟩, hsim, heq⟩ := Option.map_eq_some_iff.mp h
      cases heq
      exact .confirm hpoint hsim
  | again target clock =>
      simp only [hpoint] at h
      obtain ⟨⟨z, events⟩, hsim, heq⟩ := Option.map_eq_some_iff.mp h
      dsimp only at heq
      split at heq
      · rename_i hlong
        split at heq
        · cases heq
          exact .cover hpoint hsim hlong
        · cases heq
          exact .clear hpoint hsim hlong
      · cases heq
        exact .again hpoint hsim
  | restart target =>
      simp only [hpoint] at h
      obtain ⟨path, hpath, h⟩ := Option.bind_eq_some_iff.mp h
      obtain ⟨⟨z, events⟩, hsim, heq⟩ := Option.map_eq_some_iff.mp h
      cases heq
      exact .restart hpoint hpath hsim
  | done =>
      simp only [hpoint] at h
      cases h

/-! ## What the solver is asked with -/

/-- A replay changes the versions and the context only. -/
theorem Session.replay_eq {target : Record S} {entries : List (Constraint S)} {x y : Session S}
    (h : x.replay d target entries = some y) :
    ∃ sigs context, y = { x with sigs := sigs, context := context } := by
  induction entries generalizing x with
  | nil => cases h
  | cons c entries ih =>
      cases c with
      | clk n => cases h
      | record r =>
          rw [replay] at h
          split at h
          · obtain rfl := Option.some.inj h
            exact ⟨_, _, rfl⟩
          · split at h
            · obtain ⟨sigs, context, rfl⟩ := ih h
              exact ⟨_, _, rfl⟩
            · exact ih h

omit [DecidableEq S] in
theorem Session.checkSatisfiability_context {check : Check} {x y : Session S}
    (h : x.checkSatisfiability d check = some y) :
    ∃ context, y = { x with context := context } := by
  unfold checkSatisfiability at h
  dsimp only at h
  split at h
  · cases h
  · obtain rfl := Option.some.inj h
    exact ⟨_, rfl⟩

theorem Session.tryCandidate_eq {check : Check} {cand : Candidate S} {x y : Session S}
    {model? : Option Valuation} (h : x.tryCandidate d check cand = some (model?, y)) :
    ∃ sigs context, y = { x with sigs := sigs, context := context } := by
  unfold tryCandidate at h
  split at h
  · obtain ⟨z, hreplay, h⟩ := Option.bind_eq_some_iff.mp h
    obtain ⟨w, hcheck, heq⟩ := Option.map_eq_some_iff.mp h
    cases heq
    obtain ⟨sigs, context, rfl⟩ := replay_eq hreplay
    obtain ⟨context', rfl⟩ := checkSatisfiability_context hcheck
    exact ⟨_, _, rfl⟩
  · cases h

/-- Trying candidates changes the versions and the context only. -/
theorem Session.tryCandidates_eq {check : Check} {cands : List (Candidate S)} {x y : Session S}
    {found : Option (Candidate S × Valuation)}
    (h : x.tryCandidates d check cands = some (found, y)) :
    ∃ sigs context, y = { x with sigs := sigs, context := context } := by
  induction cands generalizing x with
  | nil =>
      cases h
      exact ⟨_, _, rfl⟩
  | cons cand cands ih =>
      obtain ⟨⟨model?, z⟩, htry, h⟩ := Option.bind_eq_some_iff.mp h
      obtain ⟨sigs, context, rfl⟩ := tryCandidate_eq htry
      cases model? with
      | some model =>
          cases h
          exact ⟨_, _, rfl⟩
      | none =>
          obtain ⟨sigs, context, rfl⟩ := ih h
          exact ⟨_, _, rfl⟩

/-! ## What a move changes -/

/-- `build_stack` leaves `g_sim_clk` as it is. -/
theorem Session.simClk_scan {clock : Nat} {x y : Session S} {log : List LogRecord}
    (h : scan d clock x log = some y) : y.simClk = x.simClk := by
  obtain ⟨_, -, hclk, -⟩ := scanned_of_scan h
  exact hclk

theorem Session.simClk_simulate {x y : Session S} {log : List LogRecord}
    (h : x.simulateBuildStack d log = some y) : y.simClk = x.simClk := by
  obtain ⟨z, hscan, rfl⟩ := Option.map_eq_some_iff.mp h
  have hclk := simClk_scan hscan
  exact hclk

namespace Search

variable {x y : Search S} {a : Answer S} {events : List Event}

/-- A simulation changes the session only. -/
theorem simulate_eq (h : x.simulate d a = some (y, events)) :
    ∃ session, x.session.simulateBuildStack d a.log = some session ∧
      session.simClk = x.session.simClk ∧ y = { x with session := session } ∧
      events = [.read (recorded x.session.simClk (.clock 0 :: a.log))] := by
  obtain ⟨session, hsim, heq⟩ := Option.map_eq_some_iff.mp h
  cases heq
  exact ⟨session, hsim, Session.simClk_simulate hsim, rfl, rfl⟩

theorem exploreOneStep_eq {path : Nat} (h : x.exploreOneStep d opts path a = some (y, events)) :
    ∃ session,
      { x.session with simClk := x.clk path + opts.step }.simulateBuildStack d a.log =
        some session ∧
      session.simClk = x.clk path + opts.step ∧
      y = { x with
        clk := Function.update x.clk path (x.clk path + opts.step)
        session := session } ∧
      events = [.read (recorded (x.clk path + opts.step) (.clock 0 :: a.log))] := by
  obtain ⟨session, hsim, hclk, rfl, rfl⟩ := simulate_eq h
  exact ⟨session, hsim, hclk, rfl, rfl⟩

omit [DecidableEq S] in
/-- The check of the selected branch changes the context only. -/
theorem errorCheck_eq (h : x.errorCheck d opts a = some y) :
    ∃ context, y = { x with session := { x.session with context := context } } := by
  unfold errorCheck at h
  split at h
  · obtain ⟨session, hcheck, h⟩ := Option.bind_eq_some_iff.mp h
    split at h
    · obtain rfl := Option.some.inj h
      obtain ⟨context, rfl⟩ := Session.checkSatisfiability_context hcheck
      exact ⟨context, rfl⟩
    · cases h
  · obtain rfl := Option.some.inj h
    exact ⟨x.session.context, rfl⟩

omit [DecidableEq S] in
theorem accept_eq {cand : Candidate S} (h : x.accept d opts cand = some y) :
    y = { x with
      session := { x.session.updatePathTaken d cand with
        coverage :=
          if opts.enableErrorCheck then x.session.coverage
          else x.session.coverage.setCoveredClk (x.session.simNum + 1) cand.br.id cand.cnst.clock
        simClk := cand.cnst.clock }
      selected := some (cand.br.id, cand.cnst.clock) } := by
  obtain ⟨session, hsession, rfl⟩ := Option.map_eq_some_iff.mp h
  split at hsession
  · rename_i hcheck
    obtain rfl := Option.some.inj hsession
    rw [if_pos hcheck]
    rfl
  · rename_i hcheck
    rw [Session.setCoveredClk_eq_some hsession, if_neg hcheck]
    rfl

omit [DecidableEq S] in
theorem checkTarget_eq (opts : Options) (firstAssign : Nat → Nat) (target : Nat) (x : Search S) :
    ∃ targets covered uncovered point, (point = .pick ∨ point = .iterate target) ∧
      x.checkTarget opts firstAssign target =
        { x with
          session := { x.session with targetList := targets }
          coveredTargetList := covered
          uncoveredTargetList := uncovered
          point := point } := by
  unfold checkTarget
  split
  · exact ⟨_, _, _, _, .inl rfl, rfl⟩
  · split
    · exact ⟨_, _, _, _, .inl rfl, rfl⟩
    · exact ⟨_, _, _, _, .inr rfl, rfl⟩

omit [DecidableEq S] in
theorem point_checkTarget (opts : Options) (firstAssign : Nat → Nat) (target : Nat)
    (x : Search S) :
    (x.checkTarget opts firstAssign target).point = .pick ∨
      (x.checkTarget opts firstAssign target).point = .iterate target := by
  obtain ⟨_, _, _, _, hpoint, heq⟩ := checkTarget_eq opts firstAssign target x
  rw [heq]
  exact hpoint

end Search

/-- The clock of an accepted candidate is one that was asked for. -/
theorem Session.tryCandidates_mem {check : Check} {cands : List (Candidate S)}
    {cand : Candidate S} {model : Valuation} {x y : Session S}
    (h : x.tryCandidates d check cands = some (some (cand, model), y)) : cand ∈ cands := by
  induction cands generalizing x with
  | nil => cases h
  | cons first cands ih =>
      obtain ⟨⟨model?, z⟩, -, h⟩ := Option.bind_eq_some_iff.mp h
      cases model? with
      | some model =>
          cases h
          exact List.mem_cons_self
      | none => exact List.mem_cons_of_mem _ (ih h)

omit [DecidableEq S] in
theorem Answer.mem_rank {a : Answer S} {branches : List (Candidate S)} {cand : Candidate S}
    (h : cand ∈ a.rank branches) : cand ∈ branches := by
  obtain ⟨id, -, h⟩ := List.mem_flatMap.mp ((a.perm _).mem_iff.mp h)
  exact (List.mem_filter.mp h).1

omit [DecidableEq S] in
theorem Session.clock_of_mem_branches {x : Session S} {beginClk endClk : Nat}
    {cand : Candidate S} (h : cand ∈ x.branches d beginClk endClk) :
    beginClk ≤ cand.cnst.clock ∧ cand.cnst.clock ≤ endClk := by
  have hclock := (List.mem_filter.mp h).2
  simpa using hclock

/-- The inputs of a candidate are simulated after `find_next_cfg` has accepted it. -/
theorem Search.accept_of_confirm {x y : Search S} {a : Answer S} {events : List Event}
    (h : x.step d opts firstAssign a = some (y, events)) {target clock : Nat}
    (hy : y.point = .confirm target clock) :
    ∃ initClk path cand model session, x.point = .search target initClk ∧ x.path = some path ∧
      x.session.tryCandidates d a.check
          (a.rank (x.session.branches d (initClk + 1) (x.clk path))) =
        some (some (cand, model), session) ∧
      cand.cnst.clock = clock ∧ y.selected = some (cand.br.id, clock) := by
  cases moves_of_step h with
  | accept hpoint hpath htry haccept =>
      cases hy
      refine ⟨_, _, _, _, _, hpoint, hpath, htry, rfl, ?_⟩
      rw [accept_eq haccept]
  | again hpoint hsim =>
      rcases point_checkTarget opts firstAssign _ _ with hz | hz <;> cases hz.symm.trans hy
  | restart hpoint hpath hsim =>
      rcases point_checkTarget opts firstAssign _ _ with hz | hz <;> cases hz.symm.trans hy
  | _ => cases hy

end Moves

/-! ## What marks a record as covered -/

section Covered

variable {d : Design S} {opts : Options}

/-- The session after records were marked as covered, with the targets as they
were. -/
structure Session.Marking (x : Session S) (marked : Nat → Prop) (y : Session S) : Prop where
  targetList : y.targetList = x.targetList
  simNum : y.simNum = x.simNum
  isCovered : ∀ id, y.coverage.isCovered id ↔ x.coverage.isCovered id ∨ marked id

section Marking

variable [DecidableEq S]

namespace Session

theorem marking_createConstraint {clock : Nat} {assign : SMTAssign S} {x y : Session S}
    {r : Record S} (h : x.createConstraint d clock assign = some (r, y)) :
    Marking x (fun id => id = assign.id) y := by
  obtain ⟨-, -, ⟨-, rfl⟩ | ⟨-, rfl⟩⟩ := createConstraint_cases h
  · exact ⟨rfl, rfl, fun id => Coverage.isCovered_setCoveredClk _ _ _ _ _⟩
  · exact ⟨rfl, rfl, fun id => Coverage.isCovered_setCovered _ _ _ _⟩

theorem marking_read {clock : Nat} {x y : Session S} {r : LogRecord}
    (h : x.read d clock r = some y) : Marking x (fun id => r = .assign id) y := by
  cases r with
  | clock n =>
      cases h
      exact ⟨rfl, rfl, fun id => by simp⟩
  | assign id =>
      obtain ⟨assign, hassign, h⟩ := Option.bind_eq_some_iff.mp h
      obtain ⟨⟨r, z⟩, hz, rfl⟩ := Option.map_eq_some_iff.mp h
      have hmark := marking_createConstraint hz
      rw [d.getAssign_id hassign] at hmark
      refine ⟨hmark.targetList, hmark.simNum, fun id' => (hmark.isCovered id').trans ?_⟩
      rw [LogRecord.assign.injEq, @eq_comm _ id]
  | state name value =>
      cases h
      exact ⟨rfl, rfl, fun id => by simp⟩

theorem marking_scan {clock : Nat} {x y : Session S} {log : List LogRecord}
    (h : scan d clock x log = some y) :
    Marking x (fun id => .assign id ∈ recorded x.simClk log) y := by
  refine scan_induction
    (P := fun _ x log y => Marking x (fun id => .assign id ∈ recorded x.simClk log) y) ?_ ?_ h
  · intro clock x log
    rw [recorded_stop]
    exact ⟨rfl, rfl, fun id => by simp⟩
  · intro clock x r log z y hr hread hclk hrest
    have hfirst := marking_read hread
    refine ⟨hrest.targetList.trans hfirst.targetList, hrest.simNum.trans hfirst.simNum,
      fun id => ?_⟩
    rw [hrest.isCovered, hfirst.isCovered, recorded_cons hr, List.mem_cons, hclk, or_assoc,
      @eq_comm _ r]

theorem marking_simulate {x y : Session S} {log : List LogRecord}
    (h : x.simulateBuildStack d log = some y) :
    Marking x (fun id => .assign id ∈ recorded x.simClk (.clock 0 :: log)) y := by
  obtain ⟨z, hscan, rfl⟩ := Option.map_eq_some_iff.mp h
  exact ⟨(marking_scan hscan).targetList, (marking_scan hscan).simNum,
    (marking_scan hscan).isCovered⟩

end Session

end Marking

/-- A call of `instrument` marks only records that print the name of the reset
signal. -/
theorem isCovered_instrument {printed : Nat → List Char} {id : Nat} (assign : SMTAssign S)
    (c : Coverage) (h : (c.instrument opts (printed assign.id) assign).isCovered id) :
    c.isCovered id ∨ skipAssign opts (printed id) := by
  dsimp only [Coverage.instrument] at h
  split at h
  · rename_i hskip
    rcases (c.isCovered_setCovered 0 assign.id id).mp h with hid | rfl
    · exact .inl hid
    · exact .inr hskip
  · exact .inl h

theorem isCovered_iterate_instrument {printed : Nat → List Char} {id : Nat} (assign : SMTAssign S)
    (n : Nat) (c : Coverage)
    (h : (Nat.iterate (Coverage.instrument opts (printed assign.id) assign) n c).isCovered id) :
    c.isCovered id ∨ skipAssign opts (printed id) := by
  induction n generalizing c with
  | zero => exact .inl h
  | succ n ih => exact (ih _ h).elim (isCovered_instrument assign c) .inr

/-- The flags set when the design is emitted are those of records that print the
name of the reset signal. -/
theorem isCovered_instrumented {printed : Nat → List Char} {id : Nat}
    (h : (instrumented opts d printed).isCovered id) : skipAssign opts (printed id) := by
  have hfold : ∀ (assigns : List (SMTAssign S)) (c : Coverage),
      (assigns.foldl (fun c assign => Nat.iterate
        (Coverage.instrument opts (printed assign.id) assign)
        (d.instrumentedAgain assign.id + 1) c) c).isCovered id →
      c.isCovered id ∨ skipAssign opts (printed id) := by
    intro assigns
    induction assigns with
    | nil => exact fun c hid => .inl hid
    | cons assign assigns ih =>
        exact fun c hid => (ih _ hid).elim (isCovered_iterate_instrument assign _ c) .inr
  exact (hfold _ _ h).resolve_left (by simp [Coverage.isCovered])

end Covered

/-! ## Runs -/

section Runs

variable [DecidableEq S] {d : Design S} {opts : Options} {firstAssign : Nat → Nat}

/-- A record of which a simulation was read, or an alternative that was accepted
unless simulations are checked. -/
def Shown (opts : Options) (events : List Event) (id : Nat) : Prop :=
  (∃ records, .read records ∈ events ∧ .assign id ∈ records) ∨
    opts.enableErrorCheck = false ∧ ∃ clock, .accept id clock ∈ events

/-- The records marked on the way were shown. -/
def Search.Marks (opts : Options) (x : Search S) (events : List Event) (y : Search S) : Prop :=
  ∀ id, y.session.coverage.isCovered id →
    x.session.coverage.isCovered id ∨ Shown opts events id

theorem Shown.mono {events events' : List Event} {id : Nat} (h : Shown opts events id)
    (hsub : events ⊆ events') : Shown opts events' id := by
  rcases h with ⟨records, hmem, hid⟩ | ⟨hcheck, clock, hmem⟩
  · exact .inl ⟨records, hsub hmem, hid⟩
  · exact .inr ⟨hcheck, clock, hsub hmem⟩

namespace Search

omit [DecidableEq S] in
theorem Marks.of_coverage {x y : Search S} {events : List Event}
    (h : y.session.coverage = x.session.coverage) : Marks opts x events y :=
  fun _ hid => .inl (h ▸ hid)

omit [DecidableEq S] in
theorem Marks.congr {x x' y y' : Search S} {events : List Event} (h : Marks opts x events y)
    (hx : x'.session.coverage = x.session.coverage)
    (hy : y'.session.coverage = y.session.coverage) : Marks opts x' events y' := by
  intro id hid
  rw [hy] at hid
  rw [hx]
  exact h id hid

omit [DecidableEq S] in
theorem Marks.trans {x y z : Search S} {events events' : List Event}
    (h : Marks opts x events y) (h' : Marks opts y events' z) :
    Marks opts x (events ++ events') z := by
  intro id hid
  rcases h' id hid with hy | hshown
  · rcases h id hy with hx | hshown
    · exact .inl hx
    · exact .inr (hshown.mono (List.subset_append_left _ _))
  · exact .inr (hshown.mono (List.subset_append_right _ _))

theorem marks_simulate {x y : Search S} {a : Answer S} {events : List Event}
    (h : x.simulate d a = some (y, events)) : Marks opts x events y := by
  obtain ⟨session, hsim, heq⟩ := Option.map_eq_some_iff.mp h
  cases heq
  intro id hid
  refine (((Session.marking_simulate hsim).isCovered id).mp hid).imp_right fun hmem => .inl ?_
  exact ⟨_, List.mem_singleton_self _, hmem⟩

omit [DecidableEq S] in
theorem coverage_errorCheck {x y : Search S} {a : Answer S}
    (h : x.errorCheck d opts a = some y) : y.session.coverage = x.session.coverage := by
  obtain ⟨context, rfl⟩ := errorCheck_eq h
  rfl

omit [DecidableEq S] in
theorem marks_accept {x y : Search S} {cand : Candidate S}
    (h : x.accept d opts cand = some y) :
    Marks opts x [.accept cand.br.id cand.cnst.clock] y := by
  obtain rfl := accept_eq h
  intro id hid
  dsimp only at hid
  split at hid
  · exact .inl hid
  · rename_i hcheck
    rcases (Coverage.isCovered_setCoveredClk _ _ _ _ _).mp hid with hid | rfl
    · exact .inl hid
    · exact .inr (.inr ⟨Bool.eq_false_of_not_eq_true hcheck, _, List.mem_singleton_self _⟩)

omit [DecidableEq S] in
theorem coverage_checkTarget (target : Nat) (x : Search S) :
    (x.checkTarget opts firstAssign target).session.coverage = x.session.coverage := by
  obtain ⟨targets, covered, uncovered, point, -, heq⟩ :=
    checkTarget_eq opts firstAssign target x
  rw [heq]

theorem marks_step {x y : Search S} {a : Answer S} {events : List Event}
    (h : x.step d opts firstAssign a = some (y, events)) : Marks opts x events y := by
  cases moves_of_step h with
  | random _ _ hsim => exact (marks_simulate hsim).congr rfl rfl
  | explore => exact .of_coverage rfl
  | finish => exact .of_coverage rfl
  | skip => exact .of_coverage rfl
  | resume _ _ _ _ hsim => exact (marks_simulate hsim).congr rfl rfl
  | stay => exact .of_coverage rfl
  | iterate _ _ hcheck hsim =>
      exact (marks_simulate hsim).congr (coverage_errorCheck hcheck).symm rfl
  | reject _ _ htry =>
      obtain ⟨sigs, context, rfl⟩ := Session.tryCandidates_eq htry
      exact .of_coverage rfl
  | accept _ _ htry haccept =>
      obtain ⟨sigs, context, rfl⟩ := Session.tryCandidates_eq htry
      exact (marks_accept haccept).congr rfl rfl
  | confirm _ hsim => exact (marks_simulate hsim).congr rfl rfl
  | cover _ hsim => exact (marks_simulate hsim).congr rfl rfl
  | clear _ hsim => exact (marks_simulate hsim).congr rfl rfl
  | again _ hsim => exact (marks_simulate hsim).congr rfl (coverage_checkTarget _ _)
  | restart _ _ hsim => exact (marks_simulate hsim).congr rfl (coverage_checkTarget _ _)

end Search

/-- **What is marked covered.** In every run of `step_coverage` a record is
marked covered only if it prints the name of the reset signal, a simulation log
that was read contains it, or `find_next_cfg` accepted it while simulations are
not checked. -/
theorem stepCoverage_covered {printed : Nat → List Char} {session : Session S}
    {targets : List Nat} {answers : List (Answer S)} {events : List Event} {x : Search S}
    (h : observe (Search.step d opts firstAssign) (Search.start d opts printed session targets)
      answers = some (x, events)) {id : Nat} (hid : x.session.coverage.isCovered id) :
    skipAssign opts (printed id) ∨
      (∃ records, .read records ∈ events ∧ .assign id ∈ records) ∨
      opts.enableErrorCheck = false ∧ ∃ clock, .accept id clock ∈ events := by
  have hmarks : Search.Marks opts (Search.start d opts printed session targets) events x :=
    observe_rel (fun x => .of_coverage rfl) Search.Marks.trans Search.marks_step h
  exact (hmarks id hid).imp_left fun hstart => isCovered_instrumented hstart

end Runs

/-! ## A target that no simulation reaches -/

def elseOptions : Options where
  unroll := 10
  step := 1
  randomSimNum := 1
  totalLimit := 1
  enableErrorCheck := false
  resetSigName := ['r', 's', 't']

/-- The simulator always prints the else arm. -/
def elseAnswer : Answer Bool where
  log := [.clock 1, .assign 2, .clock 2, .assign 2, .clock 3]
  check := fun _ => some Valuation.zero
  actionList := [0]
  byDist := id
  perm := fun _ => .refl _
  isCloser := fun _ => false

def elseRun : Option (Search Bool × List Event) :=
  observe (Search.step elseDesign elseOptions fun _ => 0)
    (Search.start elseDesign elseOptions (fun _ => ['a']) elseSession [0])
    (List.replicate 8 elseAnswer)

/-- The else arm is read in every log, and the only target is accepted. -/
def elseEvents : List Event :=
  [.read [.clock 0, .clock 1, .assign 2],
    .read [.clock 0, .clock 1, .assign 2, .clock 2, .assign 2], .accept 0 2,
    .read [.clock 0, .clock 1, .assign 2, .clock 2, .assign 2],
    .read [.clock 0, .clock 1, .assign 2, .clock 2, .assign 2]]

theorem elseRun_eq : ∃ x, elseRun = some (x, elseEvents) ∧ x.coveredTargetList = [0] ∧
    x.session.coverage.isCovered 0 = true := by
  have hrun : elseRun.map (fun r =>
      (r.2, r.1.coveredTargetList, r.1.session.coverage.isCovered 0)) =
        some (elseEvents, [0], true) := by decide +kernel
  obtain ⟨⟨x, events⟩, hx, heq⟩ := Option.map_eq_some_iff.mp hrun
  simp only [Prod.mk.injEq] at heq
  obtain ⟨rfl, htargets, hcovered⟩ := heq
  exact ⟨x, hx, htargets, hcovered⟩

theorem elseRun_covered : skipAssign elseOptions ['a'] ∨
    (∃ records, .read records ∈ elseEvents ∧ .assign 0 ∈ records) ∨
    elseOptions.enableErrorCheck = false ∧ ∃ clock, .accept 0 clock ∈ elseEvents := by
  obtain ⟨x, hrun, -, hcovered⟩ := elseRun_eq
  exact stepCoverage_covered hrun hcovered

/-- The only target is reported as covered, and no log contains its record. -/
theorem else_covered_unseen :
    ∃ x, elseRun = some (x, elseEvents) ∧ x.coveredTargetList = [0] ∧
      x.session.coverage.isCovered 0 = true ∧ ¬ skipAssign elseOptions ['a'] ∧
      ∀ records, .read records ∈ elseEvents → .assign 0 ∉ records := by
  obtain ⟨x, hrun, htargets, hcovered⟩ := elseRun_eq
  refine ⟨x, hrun, htargets, hcovered, by decide, ?_⟩
  simp [elseEvents]

end Conquest
