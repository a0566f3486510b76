import Conquest.Explore.StepCoverage
import Conquest.StateFile

/-!
# NewBlock — the flag that the reward is made of

`build_stack` collects the blocks of the assignments in the log, compares them
with the blocks of the simulation before, and moves them there. The flag
`g_is_new_block` gives the reward of 10. A block that an older simulation ran
and the last one did not counts as new when it comes back: the flag tells the
blocks that are new to the whole run only while no simulation is made of old
blocks that the one before it has missed.
-/

namespace Conquest

open Bv Run

variable {S : Type}

/-! ## The reward -/

theorem calculateReward_eq_ten {foundNewNode : Bool} {distance : Nat} :
    calculateReward foundNewNode distance = .ten ↔ foundNewNode = true := by
  unfold calculateReward
  cases foundNewNode with
  | true => simp
  | false =>
      refine iff_of_false ?_ Bool.false_ne_true
      rw [if_neg Bool.false_ne_true]
      split
      · decide
      · split
        · decide
        · decide

/-! ## The blocks of a simulation -/

/-- The blocks that the records of a log belong to. -/
def Design.logBlocks (d : Design S) (records : List LogRecord) : List Nat :=
  records.filterMap fun
    | .assign id => (d.getAssign id).map SMTAssign.block
    | _ => none

/-- The blocks of each simulation, in order. -/
def Design.readBlocks (d : Design S) (events : List Event) : List (List Nat) :=
  events.filterMap fun
    | .read records => some (d.logBlocks records)
    | .accept _ _ => none

theorem Design.readBlocks_append (d : Design S) (events events' : List Event) :
    d.readBlocks (events ++ events') = d.readBlocks events ++ d.readBlocks events' :=
  List.filterMap_append

theorem Design.logBlocks_cons (d : Design S) (r : LogRecord) (records : List LogRecord) :
    d.logBlocks (r :: records) = d.logBlocks [r] ++ d.logBlocks records :=
  List.filterMap_append (l := [r])

/-- The sets and the flag are as they were. -/
structure Session.SameBlocks (x y : Session S) : Prop where
  prevIds : y.prevIds = x.prevIds
  currIds : y.currIds = x.currIds
  isNewBlock : y.isNewBlock = x.isNewBlock

namespace Session.SameBlocks

theorem refl (x : Session S) : SameBlocks x x := ⟨rfl, rfl, rfl⟩

theorem trans {x y z : Session S} (h : SameBlocks x y) (h' : SameBlocks y z) : SameBlocks x z :=
  ⟨h'.prevIds.trans h.prevIds, h'.currIds.trans h.currIds, h'.isNewBlock.trans h.isNewBlock⟩

end Session.SameBlocks

section Read

variable [DecidableEq S] {d : Design S}

theorem Session.sameBlocks_createConstraint {clock : Nat} {assign : SMTAssign S} {x y : Session S}
    {r : Record S} (h : x.createConstraint d clock assign = some (r, y)) : SameBlocks x y := by
  obtain ⟨-, -, ⟨-, rfl⟩ | ⟨-, rfl⟩⟩ := createConstraint_cases h
  · exact ⟨rfl, rfl, rfl⟩
  · exact ⟨rfl, rfl, rfl⟩

/-- A record of the log adds its block to those of the simulation. -/
theorem Session.blocks_read {clock : Nat} {x y : Session S} {r : LogRecord}
    (h : x.read d clock r = some y) :
    y.prevIds = x.prevIds ∧ ∀ id, id ∈ y.currIds ↔ id ∈ x.currIds ∨ id ∈ d.logBlocks [r] := by
  cases r with
  | clock n =>
      cases h
      exact ⟨rfl, fun _ => (or_iff_left List.not_mem_nil).symm⟩
  | assign id =>
      obtain ⟨assign, hassign, h⟩ := Option.bind_eq_some_iff.mp h
      obtain ⟨⟨r, w⟩, hw, rfl⟩ := Option.map_eq_some_iff.mp h
      have hsame := sameBlocks_createConstraint hw
      have hblocks : d.logBlocks [.assign id] = [assign.block] := by
        simp [Design.logBlocks, hassign]
      refine ⟨hsame.prevIds, fun block => ?_⟩
      show block ∈ w.currIds.insert assign.block ↔ _
      rw [hblocks, List.mem_singleton, ← hsame.currIds]
      exact List.mem_insert_iff.trans or_comm
  | state name value =>
      cases h
      exact ⟨rfl, fun _ => (or_iff_left List.not_mem_nil).symm⟩

theorem Session.blocks_scan {clock : Nat} {x y : Session S} {log : List LogRecord}
    (h : scan d clock x log = some y) :
    y.prevIds = x.prevIds ∧
      ∀ id, id ∈ y.currIds ↔ id ∈ x.currIds ∨ id ∈ d.logBlocks (recorded x.simClk log) := by
  refine scan_induction (P := fun _ x log y => y.prevIds = x.prevIds ∧
    ∀ id, id ∈ y.currIds ↔ id ∈ x.currIds ∨ id ∈ d.logBlocks (recorded x.simClk log)) ?_ ?_ h
  · intro clock x log
    rw [recorded_stop]
    exact ⟨rfl, fun _ => (or_iff_left List.not_mem_nil).symm⟩
  · rintro clock x r log z y hr hread hclk ⟨hprev', hcurr'⟩
    obtain ⟨hprev, hcurr⟩ := blocks_read hread
    refine ⟨hprev'.trans hprev, fun id => ?_⟩
    rw [hcurr', hcurr, hclk, recorded_cons hr, d.logBlocks_cons r (recorded x.simClk log),
      List.mem_append, or_assoc]

/-- **One simulation.** The flag compares its blocks with those of the simulation
before, and they are kept for the next one. -/
theorem Session.blocks_simulate {x y : Session S} {log : List LogRecord}
    (h : x.simulateBuildStack d log = some y) (hcurr : x.currIds = []) :
    y.currIds = [] ∧
      (∀ id, id ∈ y.prevIds ↔ id ∈ d.logBlocks (recorded x.simClk (.clock 0 :: log))) ∧
        (y.isNewBlock = true ↔
          ∃ id ∈ d.logBlocks (recorded x.simClk (.clock 0 :: log)), id ∉ x.prevIds) := by
  obtain ⟨z, hscan, rfl⟩ := Option.map_eq_some_iff.mp h
  obtain ⟨hprev, hblocks⟩ := blocks_scan hscan
  have hids : ∀ id, id ∈ z.currIds ↔ id ∈ d.logBlocks (recorded x.simClk (.clock 0 :: log)) := by
    intro id
    rw [hblocks id]
    show id ∈ x.currIds ∨ _ ↔ _
    rw [hcurr]
    exact or_iff_right List.not_mem_nil
  refine ⟨rfl, hids, ?_⟩
  show z.currIds.any (fun id => !z.prevIds.contains id) = true ↔ _
  simp [hprev, hids]

end Read

/-! ## Steps -/

/-- What a step reads: nothing, or the log of one simulation. -/
inductive Search.Reads (d : Design S) [DecidableEq S] (x y : Search S) (events : List Event) : Prop
  | none (hsame : x.session.SameBlocks y.session) (hevents : d.readBlocks events = [])
  | one {w z : Session S} {log : List LogRecord} (hbefore : x.session.SameBlocks w)
      (hsim : w.simulateBuildStack d log = some z) (hafter : z.SameBlocks y.session)
      (hevents : d.readBlocks events =
        [d.logBlocks (recorded w.simClk (.clock 0 :: log))])

namespace Search

variable [DecidableEq S] {d : Design S} {opts : Options} {firstAssign : Nat → Nat}
  {x y : Search S} {a : Answer S} {events : List Event}

theorem reads_simulate (h : x.simulate d a = some (y, events)) : Reads d x y events := by
  obtain ⟨session, hsim, -, rfl, rfl⟩ := simulate_eq h
  exact .one (.refl _) hsim (.refl _) rfl

theorem Reads.after {z : Search S} (h : Reads d x y events)
    (hsame : y.session.SameBlocks z.session) : Reads d x z events := by
  cases h with
  | none hnone hevents => exact .none (hnone.trans hsame) hevents
  | one hbefore hsim hafter hevents => exact .one hbefore hsim (hafter.trans hsame) hevents

theorem Reads.before {w : Search S} (h : Reads d x y events)
    (hsame : w.session.SameBlocks x.session) : Reads d w y events := by
  cases h with
  | none hnone hevents => exact .none (hsame.trans hnone) hevents
  | one hbefore hsim hafter hevents => exact .one (hsame.trans hbefore) hsim hafter hevents

theorem reads_explore {path : Nat} (h : x.exploreOneStep d opts path a = some (y, events)) :
    Reads d x y events := by
  refine (reads_simulate h).before ?_
  exact ⟨rfl, rfl, rfl⟩

omit [DecidableEq S] in
theorem sameBlocks_errorCheck (h : x.errorCheck d opts a = some y) :
    x.session.SameBlocks y.session := by
  obtain ⟨context, rfl⟩ := errorCheck_eq h
  exact ⟨rfl, rfl, rfl⟩

omit [DecidableEq S] in
theorem sameBlocks_accept {cand : Candidate S} (h : x.accept d opts cand = some y) :
    x.session.SameBlocks y.session := by
  obtain rfl := accept_eq h
  exact ⟨rfl, rfl, rfl⟩

omit [DecidableEq S] in
theorem sameBlocks_checkTarget (target : Nat) (x : Search S) :
    x.session.SameBlocks (x.checkTarget opts firstAssign target).session := by
  obtain ⟨targets, covered, uncovered, point, -, heq⟩ :=
    checkTarget_eq opts firstAssign target x
  rw [heq]
  exact ⟨rfl, rfl, rfl⟩

/-- Nothing but a simulation changes the sets or the flag. -/
theorem reads_step (hstep : x.step d opts firstAssign a = some (y, events)) :
    Reads d x y events := by
  cases moves_of_step hstep with
  | random hpoint hlt hsim => exact (reads_simulate hsim).after ⟨rfl, rfl, rfl⟩
  | explore => exact .none ⟨rfl, rfl, rfl⟩ rfl
  | finish => exact .none ⟨rfl, rfl, rfl⟩ rfl
  | skip => exact .none ⟨rfl, rfl, rfl⟩ rfl
  | resume hpoint htargets hcovered hclosest hsim =>
      refine ((reads_simulate hsim).before ?_).after ⟨rfl, rfl, rfl⟩
      exact ⟨rfl, rfl, rfl⟩
  | stay => exact .none ⟨rfl, rfl, rfl⟩ rfl
  | iterate hpoint hpath hcheck hsim =>
      exact ((reads_explore hsim).before (sameBlocks_errorCheck hcheck)).after ⟨rfl, rfl, rfl⟩
  | reject hpoint hpath htry =>
      obtain ⟨sigs, context, rfl⟩ := Session.tryCandidates_eq htry
      exact .none ⟨rfl, rfl, rfl⟩ rfl
  | accept hpoint hpath htry haccept =>
      obtain ⟨sigs, context, rfl⟩ := Session.tryCandidates_eq htry
      have hsame := sameBlocks_accept haccept
      exact .none ⟨hsame.prevIds, hsame.currIds, hsame.isNewBlock⟩ rfl
  | confirm hpoint hsim => exact (reads_simulate hsim).after ⟨rfl, rfl, rfl⟩
  | cover hpoint hsim => exact (reads_simulate hsim).after ⟨rfl, rfl, rfl⟩
  | clear hpoint hsim => exact (reads_simulate hsim).after ⟨rfl, rfl, rfl⟩
  | again hpoint hsim =>
      refine ((reads_simulate hsim).after ?_).after (sameBlocks_checkTarget _ _)
      exact ⟨rfl, rfl, rfl⟩
  | restart hpoint hpath hsim => exact (reads_explore hsim).after (sameBlocks_checkTarget _ _)

end Search

/-! ## Runs -/

/-- The sets and the flag, as the last two simulations leave them. -/
structure Session.Recent (x : Session S) (sims : List (List Nat)) : Prop where
  currIds : x.currIds = []
  prevIds : ∀ id, id ∈ x.prevIds ↔ id ∈ sims.getLastD []
  isNewBlock : ∀ earlier last, sims = earlier ++ [last] →
    (x.isNewBlock = true ↔ ∃ id ∈ last, id ∉ earlier.getLastD [])

/-- The flag, and the reward made of it, tell the blocks that no earlier
simulation ran. -/
def Session.TellsNew (x : Session S) (sims : List (List Nat)) : Prop :=
  ∀ earlier last, sims = earlier ++ [last] →
    (x.isNewBlock = true ↔ ∃ id ∈ last, ∀ sim ∈ earlier, id ∉ sim) ∧
      ∀ distance, calculateReward x.isNewBlock distance = .ten ↔
        ∃ id ∈ last, ∀ sim ∈ earlier, id ∉ sim

/-- A simulation that runs old blocks only has none that the one before it has
missed. -/
def NothingReturns (sims : List (List Nat)) : Prop :=
  ∀ earlier last, sims = earlier ++ [last] → (∀ id ∈ last, ∃ sim ∈ earlier, id ∈ sim) →
    ∀ id ∈ last, id ∈ earlier.getLastD []

section Runs

variable [DecidableEq S] {d : Design S} {opts : Options} {firstAssign : Nat → Nat}

omit [DecidableEq S] in
theorem Session.Recent.congr {x y : Session S} {sims : List (List Nat)} (hx : Recent x sims)
    (h : SameBlocks x y) : Recent y sims where
  currIds := h.currIds.trans hx.currIds
  prevIds := by
    rw [h.prevIds]
    exact hx.prevIds
  isNewBlock := by
    rw [h.isNewBlock]
    exact hx.isNewBlock

/-- The step lemma: a simulation comes after those before it. -/
theorem Search.recent_step {x y : Search S} {sims : List (List Nat)} {events : List Event}
    (hx : x.session.Recent sims) (h : Reads d x y events) :
    y.session.Recent (sims ++ d.readBlocks events) := by
  cases h with
  | none hsame hevents =>
      rw [hevents, List.append_nil]
      exact hx.congr hsame
  | one hbefore hsim hafter hevents =>
      have hw := hx.congr hbefore
      obtain ⟨hcurr, hprev, hnew⟩ := Session.blocks_simulate hsim hw.currIds
      rw [hevents]
      refine Session.Recent.congr ⟨hcurr, fun id => ?_, fun earlier last heq => ?_⟩ hafter
      · rw [hprev id, List.getLastD_concat]
      · obtain ⟨rfl, hlast⟩ := List.append_inj' heq rfl
        obtain rfl := List.singleton_inj.mp hlast
        rw [hnew]
        exact exists_congr fun id => and_congr_right fun _ => not_congr (hw.prevIds id)

theorem Search.recent_run {printed : Nat → List Char} {session : Session S} {targets : List Nat}
    (hprev : session.prevIds = []) (hcurr : session.currIds = []) {answers : List (Answer S)}
    {x : Search S} {events : List Event}
    (hrun : observe (step d opts firstAssign) (start d opts printed session targets) answers =
      some (x, events)) : x.session.Recent (d.readBlocks events) := by
  have hstart : (start d opts printed session targets).session.Recent (d.readBlocks []) := by
    refine ⟨hcurr, fun id => ?_, fun earlier last heq => ?_⟩
    · show id ∈ session.prevIds ↔ _
      rw [hprev]
      exact Iff.rfl
    · exact absurd heq.symm (List.append_ne_nil_of_right_ne_nil _ (List.cons_ne_nil _ _))
  refine observe_trace (fun x seen => x.session.Recent (d.readBlocks seen)) hrun hstart ?_
  intro x seen a y events hx hstep
  rw [d.readBlocks_append]
  exact recent_step hx (reads_step hstep)

omit [DecidableEq S] in
/-- What only the simulation before misses is new to it, and not to the run. -/
theorem Session.Recent.tellsNew_iff {x : Session S} {sims : List (List Nat)} (hx : x.Recent sims) :
    x.TellsNew sims ↔ NothingReturns sims := by
  constructor
  · intro htells earlier last heq hold id hid
    by_contra hmissed
    have hflag := (hx.isNewBlock earlier last heq).mpr ⟨id, hid, hmissed⟩
    obtain ⟨id', hid', hnew⟩ := (htells earlier last heq).1.mp hflag
    obtain ⟨sim, hsim, hran⟩ := hold id' hid'
    exact hnew sim hsim hran
  · intro hreturns earlier last heq
    have hflag : x.isNewBlock = true ↔ ∃ id ∈ last, ∀ sim ∈ earlier, id ∉ sim := by
      rw [hx.isNewBlock earlier last heq]
      constructor
      · rintro ⟨id, hid, hmissed⟩
        by_contra hnone
        push Not at hnone
        exact hmissed (hreturns earlier last heq hnone id hid)
      · rintro ⟨id, hid, hnew⟩
        refine ⟨id, hid, fun hlast => ?_⟩
        cases earlier using List.reverseRecOn with
        | nil => exact absurd hlast List.not_mem_nil
        | append_singleton earlier sim =>
            rw [List.getLastD_concat] at hlast
            exact hnew sim (List.mem_append_right _ List.mem_cons_self) hlast
    exact ⟨hflag, fun distance => calculateReward_eq_ten.trans hflag⟩

/-- **New blocks.** After every run of `step_coverage` the flag tells whether the
last simulation ran a block that is new to the run if and only if, where it ran
old blocks only, the simulation before it ran them too. -/
theorem newBlock_told_iff {printed : Nat → List Char} {session : Session S} {targets : List Nat}
    (hprev : session.prevIds = []) (hcurr : session.currIds = []) {answers : List (Answer S)}
    {x : Search S} {events : List Event}
    (hrun : observe (Search.step d opts firstAssign)
      (Search.start d opts printed session targets) answers = some (x, events)) :
    x.session.TellsNew (d.readBlocks events) ↔ NothingReturns (d.readBlocks events) :=
  (Search.recent_run hprev hcurr hrun).tellsNew_iff

end Runs

/-! ## A block that comes back -/

/-- Three simulations of one clock take the else arm, the other one, and the
else arm again. -/
def returnOptions : Options := { elseOptions with randomSimNum := 3 }

def thenAnswer : Answer Bool := { elseAnswer with log := [.clock 1, .assign 0, .clock 2] }

def returnRun : Option (Search Bool × List Event) :=
  observe (Search.step elseDesign returnOptions fun _ => 0)
    (Search.start elseDesign returnOptions (fun _ => ['a']) elseSession [0])
    [elseAnswer, thenAnswer, elseAnswer]

theorem returnRun_eq : ∃ x events, returnRun = some (x, events) ∧ x.session.isNewBlock = true ∧
    elseDesign.readBlocks events = [[1], [0], [1]] := by
  have hrun : returnRun.map (fun r => (r.1.session.isNewBlock, elseDesign.readBlocks r.2)) =
      some (true, [[1], [0], [1]]) := by decide +kernel
  obtain ⟨⟨x, events⟩, hx, heq⟩ := Option.map_eq_some_iff.mp hrun
  obtain ⟨hnew, hblocks⟩ := Prod.mk.inj heq
  exact ⟨x, events, hx, hnew, hblocks⟩

/-- The third simulation runs the block of the first one, and the flag is set. -/
theorem returned_told_new : ∃ x events, returnRun = some (x, events) ∧
    ¬ x.session.TellsNew (elseDesign.readBlocks events) := by
  obtain ⟨x, events, hrun, hnew, hblocks⟩ := returnRun_eq
  refine ⟨x, events, hrun, fun htells => ?_⟩
  rw [hblocks] at htells
  obtain ⟨id, hid, hunseen⟩ := (htells [[1], [0]] [1] rfl).1.mp hnew
  exact hunseen [1] List.mem_cons_self hid

theorem returned_told_iff : ∃ x events, returnRun = some (x, events) ∧
    (x.session.TellsNew (elseDesign.readBlocks events) ↔
      NothingReturns (elseDesign.readBlocks events)) := by
  obtain ⟨x, events, hrun, -⟩ := returnRun_eq
  exact ⟨x, events, hrun, newBlock_told_iff rfl rfl hrun⟩

end Conquest
