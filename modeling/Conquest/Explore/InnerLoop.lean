import Conquest.Explore.Passes

/-!
# InnerLoop — the loop over the paths to one target

The inner loop of `step_coverage` calls `concolic_iteration` until it returns no
path. The clock of the path grows from call to call and is set back when it is
past `unroll`; each time it is set back `sim_num` grows. The measure of the loop
counts the bodies that are left until the clock is set back the next time, and
`unroll + 1` for each time after that.
-/

namespace Conquest

open Run

variable {S : Type} [DecidableEq S] {d : Design S} {opts : Options} {firstAssign : Nat → Nat}

namespace Search

variable {x y : Search S} {a : Answer S} {events : List Event}

/-! ## The loop -/

/-- A step of the inner loop, which is left at the head of the outer one. -/
def innerStep (d : Design S) (opts : Options) (firstAssign : Nat → Nat) (x : Search S)
    (a : Answer S) : Option (Search S × List Event) :=
  if x.point.target?.isSome then x.step d opts firstAssign a else none

/-- Whether the next step runs the loop body. -/
def runsBody (x : Search S) : Nat :=
  match x.point with
  | .again _ _ => 1
  | _ => 0

/-- The clock of the path that `concolic_iteration` returns: the path is made of
`g_data_step`, which `intercept` has cut off at the clock of the alternative. -/
def returnedClk (x : Search S) : Option Nat :=
  match x.point with
  | .again _ clock => some clock
  | _ => none

/-- A call of `concolic_iteration`: the exploration, `find_next_cfg`, and the
simulation of the alternative. -/
def concolicIteration (d : Design S) (opts : Options) (firstAssign : Nat → Nat) (x : Search S)
    (explored found simulated : Answer S) : Option (Search S × List Event) :=
  observe (innerStep d opts firstAssign) x [explored, found, simulated]

theorem innerStep_eq (h : x.innerStep d opts firstAssign a = some (y, events)) :
    (∃ target, x.point.target? = some target) ∧ x.step d opts firstAssign a = some (y, events) := by
  unfold innerStep at h
  split at h
  · rename_i htarget
    exact ⟨Option.isSome_iff_exists.mp htarget, h⟩
  · cases h

/-! ## The steps of an iteration -/

theorem step_iterate {target : Nat} (hpoint : x.point = .iterate target)
    (h : x.step d opts firstAssign a = some (y, events)) :
    ∃ path, x.path = some path ∧ y.point = .search target (x.clk path) ∧
      y.session.simNum = x.session.simNum := by
  simp only [step, hpoint] at h
  obtain ⟨path, hpath, h⟩ := Option.bind_eq_some_iff.mp h
  obtain ⟨w, hcheck, h⟩ := Option.bind_eq_some_iff.mp h
  obtain ⟨⟨z, events⟩, hexplore, heq⟩ := Option.map_eq_some_iff.mp h
  cases heq
  exact ⟨path, hpath, rfl, (simNum_explore hexplore).trans (simNum_errorCheck hcheck)⟩

/-- The window of `get_available_branches` starts after the clock of the path. -/
theorem step_search {target initClk : Nat} (hpoint : x.point = .search target initClk)
    (h : x.step d opts firstAssign a = some (y, events)) :
    y.point = .pick ∨ ∃ clock, initClk < clock ∧ y.point = .confirm target clock ∧
      y.session.simNum = x.session.simNum := by
  simp only [step, hpoint] at h
  obtain ⟨path, -, h⟩ := Option.bind_eq_some_iff.mp h
  obtain ⟨⟨found, session⟩, htry, h⟩ := Option.bind_eq_some_iff.mp h
  cases found with
  | none =>
      cases h
      exact .inl rfl
  | some found =>
      obtain ⟨z, haccept, heq⟩ := Option.map_eq_some_iff.mp h
      cases heq
      have hclock := Session.clock_of_mem_branches
        (Answer.mem_rank (Session.tryCandidates_mem htry))
      have hsim := simNum_accept haccept
      obtain ⟨sigs, context, rfl⟩ := Session.tryCandidates_eq htry
      exact .inr ⟨_, hclock.1, rfl, hsim⟩

theorem step_confirm {target clock : Nat} (hpoint : x.point = .confirm target clock)
    (h : x.step d opts firstAssign a = some (y, events)) :
    y.point = .again target clock ∧ y.session.simNum = x.session.simNum := by
  simp only [step, hpoint] at h
  obtain ⟨⟨z, events⟩, hsimulate, heq⟩ := Option.map_eq_some_iff.mp h
  cases heq
  have hsim := simNum_simulate hsimulate
  exact ⟨rfl, hsim⟩

theorem step_restart {target : Nat} (hpoint : x.point = .restart target)
    (h : x.step d opts firstAssign a = some (y, events)) :
    ∃ z : Search S, z.session.simNum = x.session.simNum ∧
      y = z.checkTarget opts firstAssign target := by
  simp only [step, hpoint] at h
  obtain ⟨path, -, h⟩ := Option.bind_eq_some_iff.mp h
  obtain ⟨⟨z, events⟩, hexplore, heq⟩ := Option.map_eq_some_iff.mp h
  cases heq
  exact ⟨z, simNum_explore hexplore, rfl⟩

/-- **The path grows.** A path that `concolic_iteration` returns ends at a later
clock than the path it was given. -/
theorem clk_lt_returnedClk {target path clock : Nat} {explored found simulated : Answer S}
    (hpoint : x.point = .iterate target) (hpath : x.path = some path)
    (hcall : x.concolicIteration d opts firstAssign explored found simulated = some (y, events))
    (hreturn : y.returnedClk = some clock) : x.clk path < clock := by
  obtain ⟨u, _, _, hu, hcall, -⟩ := observe_cons hcall
  obtain ⟨v, _, _, hv, hcall, -⟩ := observe_cons hcall
  obtain ⟨w, _, _, hw, hcall, -⟩ := observe_cons hcall
  cases hcall
  obtain ⟨path', hpath', hsearch, -⟩ := step_iterate hpoint (innerStep_eq hu).2
  obtain rfl := Option.some.inj (hpath.symm.trans hpath')
  obtain ⟨⟨target', htarget⟩, hw⟩ := innerStep_eq hw
  rcases step_search hsearch (innerStep_eq hv).2 with hpick | ⟨clock', hlt, hconfirm, -⟩
  · rw [hpick] at htarget
    cases htarget
  · have hagain := (step_confirm hconfirm hw).1
    unfold returnedClk at hreturn
    rw [hagain] at hreturn
    obtain rfl := Option.some.inj hreturn
    exact hlt

/-! ## The measure -/

/-- The bodies left until the clock of the path is past `unroll`. -/
def bodiesToUnroll (opts : Options) (clk : Nat) : Nat := max 1 (opts.unroll + 1 - clk)

/-- The bodies left in the loop. -/
def bodiesLeft (opts : Options) (x : Search S) : Nat :=
  let rounds := opts.totalLimit - x.session.simNum
  match x.point with
  | .iterate _ => (rounds - 1) * (opts.unroll + 1) + bodiesToUnroll opts (x.path.elim 0 x.clk)
  | .search _ initClk => (rounds - 1) * (opts.unroll + 1) + bodiesToUnroll opts initClk
  | .confirm _ clock => (rounds - 1) * (opts.unroll + 1) + 1 + (opts.unroll + 1 - clock)
  | .again _ clock => (rounds - 1) * (opts.unroll + 1) + 1 + (opts.unroll + 1 - clock)
  | .restart _ => rounds * (opts.unroll + 1)
  | _ => 0

/-- `sim_num` below its limit wherever the loop goes on. -/
def SimNumLt (opts : Options) (x : Search S) : Prop :=
  match x.point with
  | .iterate _ | .search _ _ | .confirm _ _ | .again _ _ => x.session.simNum < opts.totalLimit
  | _ => True

omit [DecidableEq S] in
/-- A round starts with no more bodies than `unroll + 1`. -/
theorem bodiesToUnroll_le (opts : Options) (clk : Nat) :
    bodiesToUnroll opts clk ≤ opts.unroll + 1 := by
  unfold bodiesToUnroll
  omega

omit [DecidableEq S] in
theorem bodiesToUnroll_of_lt (opts : Options) {clk clock : Nat} (h : clk < clock) :
    1 + (opts.unroll + 1 - clock) ≤ bodiesToUnroll opts clk := by
  unfold bodiesToUnroll
  omega

omit [DecidableEq S] in
/-- Rounds that are left, one of them begun. -/
theorem rounds_mul {simNum : Nat} (h : simNum < opts.totalLimit) :
    (opts.totalLimit - simNum) * (opts.unroll + 1) =
      (opts.totalLimit - simNum - 1) * (opts.unroll + 1) + (opts.unroll + 1) := by
  obtain ⟨rounds, hrounds⟩ : ∃ rounds, opts.totalLimit - simNum = rounds + 1 :=
    ⟨opts.totalLimit - simNum - 1, by omega⟩
  rw [hrounds, Nat.add_mul, Nat.one_mul, Nat.add_sub_cancel]

omit [DecidableEq S] in
theorem bodiesLeft_of_pick (opts : Options) (h : x.point = .pick) :
    SimNumLt opts x ∧ x.bodiesLeft opts = 0 := by
  unfold SimNumLt bodiesLeft
  rw [h]
  exact ⟨trivial, rfl⟩

omit [DecidableEq S] in
/-- After the last tests of the body the loop is left, or a limit is not reached. -/
theorem bodiesLeft_checkTarget (opts : Options) (firstAssign : Nat → Nat) (target : Nat)
    (x : Search S) :
    SimNumLt opts (x.checkTarget opts firstAssign target) ∧
      ((x.checkTarget opts firstAssign target).bodiesLeft opts = 0 ∨
        x.session.simNum < opts.totalLimit ∧
          (x.checkTarget opts firstAssign target).bodiesLeft opts =
            (opts.totalLimit - x.session.simNum - 1) * (opts.unroll + 1) +
              bodiesToUnroll opts (x.path.elim 0 x.clk)) := by
  unfold checkTarget
  split
  · exact ⟨trivial, .inl rfl⟩
  · rename_i hlimit
    split
    · exact ⟨trivial, .inl rfl⟩
    · exact ⟨Nat.lt_of_not_le hlimit, .inr ⟨Nat.lt_of_not_le hlimit, rfl⟩⟩

/-- The body ends: `ClearPath` and a round less, or the tests on a longer path. -/
theorem bodiesLeft_again {target clock : Nat} (hpoint : x.point = .again target clock)
    (h : x.step d opts firstAssign a = some (y, events)) :
    SimNumLt opts y ∧ 1 + y.bodiesLeft opts ≤
      (opts.totalLimit - x.session.simNum - 1) * (opts.unroll + 1) + 1 +
        (opts.unroll + 1 - clock) := by
  obtain ⟨w, hsimulate, hlong⟩ := step_again hpoint h
  have hsimNum := simNum_simulate hsimulate
  rcases hlong with ⟨-, -, rfl⟩ | ⟨-, rfl⟩ | ⟨hshort, rfl⟩
  · refine ⟨trivial, ?_⟩
    show 1 + 0 ≤ _
    omega
  · refine ⟨trivial, ?_⟩
    show 1 + (opts.totalLimit - (w.session.simNum + 1)) * (opts.unroll + 1) ≤ _
    rw [hsimNum, Nat.sub_add_eq]
    omega
  · obtain ⟨hlt, hbodies⟩ := bodiesLeft_checkTarget opts firstAssign target (w.newPath clock)
    have hclk : (w.newPath clock).path.elim 0 (w.newPath clock).clk = clock :=
      Function.update_self _ _ _
    have hsimNum' : (w.newPath clock).session.simNum = x.session.simNum := hsimNum
    rw [hclk, hsimNum', bodiesToUnroll] at hbodies
    refine ⟨hlt, ?_⟩
    rcases hbodies with hzero | ⟨-, hbodies⟩
    · omega
    · omega

/-- The body starts again after `ClearPath`, in the round that was paid for. -/
theorem bodiesLeft_restart {target : Nat} (hpoint : x.point = .restart target)
    (h : x.step d opts firstAssign a = some (y, events)) :
    SimNumLt opts y ∧
      y.bodiesLeft opts ≤ (opts.totalLimit - x.session.simNum) * (opts.unroll + 1) := by
  obtain ⟨z, hsimNum, rfl⟩ := step_restart hpoint h
  obtain ⟨hlt, hbodies⟩ := bodiesLeft_checkTarget opts firstAssign target z
  have hround := bodiesToUnroll_le opts (z.path.elim 0 z.clk)
  rw [hsimNum] at hbodies
  refine ⟨hlt, ?_⟩
  rcases hbodies with hzero | ⟨hlimit, hbodies⟩
  · omega
  · rw [rounds_mul hlimit]
    omega

/-- Every step of the loop pays from the measure. -/
theorem bodiesLeft_step (hsim : SimNumLt opts x)
    (h : x.innerStep d opts firstAssign a = some (y, events)) :
    SimNumLt opts y ∧ x.runsBody + y.bodiesLeft opts ≤ x.bodiesLeft opts := by
  obtain ⟨⟨target, htarget⟩, h⟩ := innerStep_eq h
  unfold SimNumLt at hsim
  cases hpoint : x.point with
  | random i => rw [hpoint] at htarget; cases htarget
  | pick => rw [hpoint] at htarget; cases htarget
  | done => rw [hpoint] at htarget; cases htarget
  | iterate t =>
      rw [hpoint] at hsim
      obtain ⟨path, hpath, hsearch, hsimNum⟩ := step_iterate hpoint h
      unfold SimNumLt bodiesLeft runsBody
      rw [hpoint, hsearch, hpath, hsimNum]
      refine ⟨hsim, ?_⟩
      show 0 + (_ + bodiesToUnroll opts (x.clk path)) ≤ _ + bodiesToUnroll opts (x.clk path)
      omega
  | search t initClk =>
      rw [hpoint] at hsim
      rcases step_search hpoint h with hpick | ⟨clock, hlt, hconfirm, hsimNum⟩
      · obtain ⟨hle, hzero⟩ := bodiesLeft_of_pick opts hpick
        refine ⟨hle, ?_⟩
        rw [hzero, runsBody, hpoint]
        exact Nat.zero_le _
      · have hbodies := bodiesToUnroll_of_lt opts hlt
        unfold SimNumLt bodiesLeft runsBody
        rw [hpoint, hconfirm, hsimNum]
        refine ⟨hsim, ?_⟩
        dsimp only
        omega
  | confirm t clock =>
      rw [hpoint] at hsim
      obtain ⟨hagain, hsimNum⟩ := step_confirm hpoint h
      unfold SimNumLt bodiesLeft runsBody
      rw [hpoint, hagain, hsimNum]
      refine ⟨hsim, ?_⟩
      dsimp only
      omega
  | again t clock =>
      obtain ⟨hlt, hpaid⟩ := bodiesLeft_again hpoint h
      have hx : x.bodiesLeft opts = (opts.totalLimit - x.session.simNum - 1) * (opts.unroll + 1) +
          1 + (opts.unroll + 1 - clock) := by
        rw [bodiesLeft, hpoint]
      have hbody : x.runsBody = 1 := by rw [runsBody, hpoint]
      rw [hx, hbody]
      exact ⟨hlt, hpaid⟩
  | restart t =>
      obtain ⟨hlt, hpaid⟩ := bodiesLeft_restart hpoint h
      have hx : x.bodiesLeft opts =
          (opts.totalLimit - x.session.simNum) * (opts.unroll + 1) := by
        rw [bodiesLeft, hpoint]
      have hbody : x.runsBody = 0 := by rw [runsBody, hpoint]
      rw [hx, hbody, Nat.zero_add]
      exact ⟨hlt, hpaid⟩

/-- The loop is entered with `sim_num` zero. -/
theorem enters_loop (hpick : x.point = .pick)
    (henter : x.step d opts firstAssign a = some (y, events)) {target : Nat}
    (hpoint : y.point = .iterate target) : y.session.simNum = 0 := by
  simp only [step, hpick] at henter
  split at henter
  · cases henter
    cases hpoint
  · split at henter
    · cases henter
      cases hpoint
    · split at henter
      · obtain ⟨⟨z, events⟩, hsimulate, heq⟩ := Option.map_eq_some_iff.mp henter
        cases heq
        exact simNum_simulate hsimulate
      · cases henter
        rfl

/-- The steps left in the loop. -/
def innerStepsLeft (opts : Options) (x : Search S) : Nat :=
  x.point.target?.elim 0 fun _ => x.stepsInPass opts

theorem innerStepsLeft_step (hsim : SimNumLe opts x)
    (h : x.innerStep d opts firstAssign a = some (y, events)) :
    SimNumLe opts y ∧ 1 + y.innerStepsLeft opts ≤ x.innerStepsLeft opts := by
  obtain ⟨⟨target, htarget⟩, h⟩ := innerStep_eq h
  unfold innerStepsLeft
  rw [htarget]
  cases ht : y.point.target? with
  | none =>
      have hpos : 0 < x.stepsInPass opts := stepsInPass_pos htarget
      refine ⟨?_, hpos⟩
      unfold SimNumLe
      cases hpoint : y.point with
      | random i => trivial
      | pick => trivial
      | done => trivial
      | _ => rw [hpoint] at ht; cases ht
  | some t =>
      obtain ⟨hle, hsteps⟩ := stepsInPass_step hsim h htarget ht
      refine ⟨hle, ?_⟩
      show 1 + y.stepsInPass opts ≤ x.stepsInPass opts
      omega

end Search

/-! ## The loop ends -/

/-- **The inner loop of `step_coverage` ends.** Whenever it is entered for a
target, every `concolic_iteration` that returns a path returns a longer one than
it was given, the body is run at most `total_limit * (unroll + 1)` times, and no
run within the loop is longer than a bound that depends on the options only. -/
theorem innerLoop_ends (hlimit : 0 < opts.totalLimit) {x y : Search S} {enter : Answer S}
    {events : List Event} {target : Nat} (hpick : x.point = .pick)
    (henter : x.step d opts firstAssign enter = some (y, events))
    (hpoint : y.point = .iterate target) (answers : List (Answer S)) :
    (∀ z events, observe (Search.innerStep d opts firstAssign) y answers = some (z, events) →
      ∀ target path explored found simulated w events clock, z.point = .iterate target →
        z.path = some path →
        z.concolicIteration d opts firstAssign explored found simulated = some (w, events) →
        w.returnedClk = some clock → z.clk path < clock) ∧
    runCost (Search.innerStep d opts firstAssign) Search.runsBody y answers ≤
      opts.totalLimit * (opts.unroll + 1) ∧
    ∀ z events, observe (Search.innerStep d opts firstAssign) y answers = some (z, events) →
      answers.length ≤ Search.passSteps opts := by
  have hzero := Search.enters_loop hpick henter hpoint
  have hall : ObservedSteps (Search.innerStep d opts firstAssign) (fun _ _ => True) y answers :=
    observedSteps_of_forall (fun _ _ => trivial) y answers
  refine ⟨fun z _ _ t path _ _ _ w _ clock hz hpath hcall hreturn => ?_, ?_, fun z events h => ?_⟩
  · exact Search.clk_lt_returnedClk hz hpath hcall hreturn
  · have hsim : Search.SimNumLt opts y := by
      rw [Search.SimNumLt, hpoint]
      exact hzero.trans_lt hlimit
    have hcost : runCost (Search.innerStep d opts firstAssign) Search.runsBody y answers ≤
        y.bodiesLeft opts :=
      runCost_le (Search.SimNumLt opts) hall hsim fun x a z events hx _ h =>
        Search.bodiesLeft_step hx h
    have hround := Search.bodiesToUnroll_le opts (y.path.elim 0 y.clk)
    have hrounds := Search.rounds_mul hlimit
    rw [Search.bodiesLeft, hpoint, hzero] at hcost
    dsimp only at hcost
    rw [Nat.sub_zero] at hcost hrounds
    omega
  · obtain ⟨hsim, hsteps⟩ := Search.stepsInPass_enter hpick henter
      (t := target) (by rw [hpoint]; rfl)
    have hcost : runCost (Search.innerStep d opts firstAssign) (fun _ => 1) y answers ≤
        y.innerStepsLeft opts :=
      runCost_le (Search.SimNumLe opts) hall hsim fun x a z events hx _ h =>
        Search.innerStepsLeft_step hx h
    rw [runCost_one h, Search.innerStepsLeft, hpoint] at hcost
    exact hcost.trans ((Nat.le_succ _).trans hsteps)

/-- The loop as it is entered for the only target, after one random simulation. -/
theorem unranked_ends :
    ∃ x y events, (observe (Search.step elseDesign unrankedOptions fun _ => 0) unrankedStart
        (List.replicate 2 unrankedAnswer)).map Prod.fst = some x ∧
      x.step elseDesign unrankedOptions (fun _ => 0) unrankedAnswer = some (y, events) ∧
      ∀ answers, runCost (Search.innerStep elseDesign unrankedOptions fun _ => 0) Search.runsBody y
        answers ≤ 10 * (10 + 1) := by
  have hrun : ((observe (Search.step elseDesign unrankedOptions fun _ => 0) unrankedStart
      (List.replicate 2 unrankedAnswer)).bind fun r =>
        (r.1.step elseDesign unrankedOptions (fun _ => 0) unrankedAnswer).map fun s =>
          decide (r.1.point = .pick ∧ s.1.point = .iterate 0)) = some true := by decide +kernel
  obtain ⟨⟨x, events⟩, hx, hrun⟩ := Option.bind_eq_some_iff.mp hrun
  obtain ⟨⟨y, events'⟩, hy, hpoints⟩ := Option.map_eq_some_iff.mp hrun
  obtain ⟨hpick, hiterate⟩ := of_decide_eq_true hpoints
  refine ⟨x, y, events', by rw [hx]; rfl, hy, fun answers => ?_⟩
  have hlimit : 0 < unrankedOptions.totalLimit := by decide
  exact (innerLoop_ends hlimit hpick hy hiterate answers).2.1

/-! ## A target that is taken up twice -/

def rerunOptions : Options := { nestedOptions with unroll := 0, step := 1 }

/-- In clock 1 the else arm is passed `n` times. -/
def rerunAnswer (n : Nat) : Answer Bool :=
  { elseAnswer with
    log := .clock 1 :: List.replicate n (.assign 2) ++
      [.clock 2, .assign 2, .clock 3, .assign 2, .clock 4]
    isCloser := fun _ => true }

def rerunStart : Search Bool :=
  Search.start nestedDesign rerunOptions (fun _ => ['a']) nestedSession [3]

/-- Nine alternatives are accepted. The tenth search finds the last one again, which
is taken, and returns no path. The target is taken up once more, and two further
alternatives are accepted. -/
def rerunAnswers : List (Answer Bool) :=
  List.replicate 3 (rerunAnswer 1) ++
    (List.range' 1 9).flatMap (fun n => List.replicate 5 (rerunAnswer n)) ++
    List.replicate 3 (rerunAnswer 9) ++
    (List.range' 10 2).flatMap fun n => List.replicate 5 (rerunAnswer n)

/-- The bodies that are run for one target are not bounded by
`total_limit * (unroll + 1)`: this run has eleven, ten would be allowed. -/
theorem rerun_exceeds :
    ∃ x events, observe (Search.step nestedDesign rerunOptions id) rerunStart rerunAnswers =
        some (x, events) ∧ x.session.targetList = [3] ∧
      ¬ runCost (Search.step nestedDesign rerunOptions id) Search.runsBody rerunStart
        rerunAnswers ≤ rerunOptions.totalLimit * (rerunOptions.unroll + 1) := by
  have hrun : (observe (Search.step nestedDesign rerunOptions id) rerunStart rerunAnswers).map
      (fun r => r.1.session.targetList) = some [3] := by decide +kernel
  have hcost : runCost (Search.step nestedDesign rerunOptions id) Search.runsBody rerunStart
      rerunAnswers = 11 := by decide +kernel
  obtain ⟨⟨x, events⟩, hx, htargets⟩ := Option.map_eq_some_iff.mp hrun
  refine ⟨x, events, hx, htargets, ?_⟩
  rw [hcost]
  decide

end Conquest
