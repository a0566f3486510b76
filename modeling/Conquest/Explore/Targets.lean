import Mathlib.Data.List.Perm.Basic
import Conquest.Explore.StepCoverage

/-!
# Targets — what becomes of the selected targets

The loop of `step_coverage` takes the target at the front of `target_list`, and
is done with it when it is covered or when its limit is reached. Simulations mark
records as covered at any time, those of targets given up as well.
-/

namespace Conquest

open Bv Run

variable {S : Type} [DecidableEq S] {d : Design S} {opts : Options} {firstAssign : Nat → Nat}

/-! ## The lists of targets -/

/-- The target that the loop is at. -/
def Point.target? : Point → Option Nat
  | .iterate target => some target
  | .search target _ => some target
  | .confirm target _ => some target
  | .again target _ => some target
  | .restart target => some target
  | _ => none

namespace Search

/-- The target that the next step gives up. -/
def givesUp (opts : Options) (x : Search S) : Option Nat :=
  match x.point with
  | .again target clock =>
      if clock ≤ opts.unroll ∧ opts.totalLimit ≤ x.session.simNum then some target else none
  | .restart target => if opts.totalLimit ≤ x.session.simNum then some target else none
  | _ => none

/-- The lists are as they were, and what is shown is marked. -/
structure Marked (opts : Options) (x : Search S) (events : List Event) (y : Search S) : Prop where
  targetList : y.session.targetList = x.session.targetList
  covered : y.coveredTargetList = x.coveredTargetList
  uncovered : y.uncoveredTargetList = x.uncoveredTargetList
  isCovered : ∀ id, y.session.coverage.isCovered id ↔
    x.session.coverage.isCovered id ∨ Shown opts events id

/-- From one point to the next, other than to the head of the loop. -/
inductive Goes (opts : Options) (x y : Search S) : Prop
  | random {i : Nat} (hx : x.point = .random i) (hlt : i < opts.randomSimNum)
      (hy : y.point = .random (i + 1))
  | finish (hx : x.point = .pick) (htargets : x.session.targetList = []) (hy : y.point = .done)
  | enter {target : Nat} (hx : x.point = .pick)
      (hfront : x.session.targetList.head? = some target) (hy : y.point.target? = some target)
  | stay {target : Nat} (hx : x.point.target? = some target) (hy : y.point.target? = some target)

/-- What a step does to the lists. -/
inductive Shifts (opts : Options) (firstAssign : Nat → Nat) (x : Search S) (events : List Event)
    (y : Search S) : Prop
  | keep (hgive : x.givesUp opts = none) (hmark : Marked opts x events y) (hgoes : Goes opts x y)
  | reject {target initClk : Nat} (hpoint : x.point = .search target initClk)
      (hmark : Marked opts x events y) (hpick : y.point = .pick)
  | skip {target : Nat} {targets : List Nat} (hpoint : x.point = .pick) (hevents : events = [])
      (htargets : x.session.targetList = target :: targets)
      (hcovered : x.isCovered firstAssign target = true)
      (hy : y = { x with
        session := { x.session with simNum := 0, targetList := targets }
        coveredTargetList := x.coveredTargetList ++ [target] })
  | remove {w : Search S} (hgive : x.givesUp opts = none) (hmark : Marked opts x events w)
      (hcovered : (∃ i, x.point = .random i) ∨
        ∃ target, x.point.target? = some target ∧ w.isCovered firstAssign target = true)
      (hy : y = { w.removeCoveredTargets firstAssign with point := .pick })
  | giveUp {target : Nat} {w : Search S} (hgive : x.givesUp opts = some target)
      (hmark : Marked opts x events w)
      (hy : y = { w with
        session := { w.session with targetList := w.session.targetList.tail }
        uncoveredTargetList := w.uncoveredTargetList ++ [target]
        point := .pick })

variable {x y z : Search S} {a : Answer S} {events : List Event}

omit [DecidableEq S] in
theorem shown_read_iff (opts : Options) (records : List LogRecord) (id : Nat) :
    Shown opts [.read records] id ↔ .assign id ∈ records := by
  simp [Shown]

omit [DecidableEq S] in
theorem shown_accept_iff (opts : Options) (id' clock id : Nat) :
    Shown opts [.accept id' clock] id ↔ opts.enableErrorCheck = false ∧ id = id' := by
  simp [Shown]

omit [DecidableEq S] in
theorem not_shown_nil (opts : Options) (id : Nat) : ¬ Shown opts [] id := by
  simp [Shown]

omit [DecidableEq S] in
theorem Marked.refl (x : Search S) : Marked opts x [] x :=
  ⟨rfl, rfl, rfl, fun id => by simp [not_shown_nil]⟩

omit [DecidableEq S] in
/-- Only the lists and the flags matter. -/
theorem Marked.congr {x' y' : Search S} (h : Marked opts x events y)
    (hx : x'.session.targetList = x.session.targetList ∧
      x'.coveredTargetList = x.coveredTargetList ∧
      x'.uncoveredTargetList = x.uncoveredTargetList ∧
      x'.session.coverage = x.session.coverage)
    (hy : y'.session.targetList = y.session.targetList ∧
      y'.coveredTargetList = y.coveredTargetList ∧
      y'.uncoveredTargetList = y.uncoveredTargetList ∧
      y'.session.coverage = y.session.coverage) : Marked opts x' events y' := by
  obtain ⟨hx₁, hx₂, hx₃, hx₄⟩ := hx
  obtain ⟨hy₁, hy₂, hy₃, hy₄⟩ := hy
  refine ⟨?_, ?_, ?_, fun id => ?_⟩
  · rw [hy₁, hx₁, h.targetList]
  · rw [hy₂, hx₂, h.covered]
  · rw [hy₃, hx₃, h.uncovered]
  · rw [hy₄, hx₄, h.isCovered]

theorem marked_simulate (h : x.simulate d a = some (y, events)) : Marked opts x events y := by
  obtain ⟨session, hsim, -, rfl, rfl⟩ := simulate_eq h
  have hmark := Session.marking_simulate hsim
  exact ⟨hmark.targetList, rfl, rfl, fun id =>
    (hmark.isCovered id).trans (or_congr_right (shown_read_iff opts _ id).symm)⟩

theorem simNum_simulate (h : x.simulate d a = some (y, events)) :
    y.session.simNum = x.session.simNum := by
  obtain ⟨session, hsim, -, rfl, -⟩ := simulate_eq h
  exact (Session.marking_simulate hsim).simNum

theorem marked_explore {path : Nat} (h : x.exploreOneStep d opts path a = some (y, events)) :
    Marked opts x events y :=
  (marked_simulate h).congr ⟨rfl, rfl, rfl, rfl⟩ ⟨rfl, rfl, rfl, rfl⟩

theorem simNum_explore {path : Nat} (h : x.exploreOneStep d opts path a = some (y, events)) :
    y.session.simNum = x.session.simNum := by
  obtain ⟨session, hsim, -, rfl, -⟩ := exploreOneStep_eq h
  exact (Session.marking_simulate hsim).simNum

omit [DecidableEq S] in
theorem errorCheck_lists (h : x.errorCheck d opts a = some y) :
    y.session.targetList = x.session.targetList ∧ y.coveredTargetList = x.coveredTargetList ∧
      y.uncoveredTargetList = x.uncoveredTargetList ∧
      y.session.coverage = x.session.coverage := by
  obtain ⟨context, rfl⟩ := errorCheck_eq h
  exact ⟨rfl, rfl, rfl, rfl⟩

omit [DecidableEq S] in
theorem marked_accept {cand : Candidate S} (h : x.accept d opts cand = some y) :
    Marked opts x [.accept cand.br.id cand.cnst.clock] y := by
  obtain rfl := accept_eq h
  refine ⟨rfl, rfl, rfl, fun id => ?_⟩
  dsimp only
  split
  · rename_i hcheck
    simp [shown_accept_iff, hcheck]
  · rename_i hcheck
    rw [shown_accept_iff, and_iff_right (Bool.eq_false_of_not_eq_true hcheck)]
    exact Coverage.isCovered_setCoveredClk _ _ _ _ _

omit [DecidableEq S] in
/-- What `checkTarget` does, of a target whose limit is or is not reached. -/
theorem shifts_checkTarget {target : Nat} {w : Search S} (hmark : Marked opts x events w)
    (hsimNum : w.session.simNum = x.session.simNum) (htarget : x.point.target? = some target)
    (hgive : x.givesUp opts = if opts.totalLimit ≤ x.session.simNum then some target else none) :
    Shifts opts firstAssign x events (w.checkTarget opts firstAssign target) := by
  unfold checkTarget
  split
  · rename_i hlimit
    rw [hsimNum] at hlimit
    exact .giveUp (hgive.trans (if_pos hlimit)) hmark rfl
  · rename_i hlimit
    rw [hsimNum] at hlimit
    have hnone := hgive.trans (if_neg hlimit)
    split
    · rename_i hcovered
      exact .remove hnone hmark (.inr ⟨target, htarget, hcovered⟩) rfl
    · exact .keep hnone (hmark.congr ⟨rfl, rfl, rfl, rfl⟩ ⟨rfl, rfl, rfl, rfl⟩)
        (.stay htarget rfl)

/-- The second simulation of an accepted alternative: the path is too long, or
the target is checked. -/
theorem step_again {target clock : Nat} (hpoint : x.point = .again target clock)
    (h : x.step d opts firstAssign a = some (y, events)) :
    ∃ w, x.simulate d a = some (w, events) ∧
      (clock > opts.unroll ∧ w.isCovered firstAssign target = true ∧
          y = { (w.newPath clock).removeCoveredTargets firstAssign with point := .pick } ∨
        clock > opts.unroll ∧ y = { w.newPath clock with
          clk := Function.update (w.newPath clock).clk w.pathCount 0
          session := { w.session with stack := [], simNum := w.session.simNum + 1 }
          point := .restart target } ∨
        clock ≤ opts.unroll ∧ y = (w.newPath clock).checkTarget opts firstAssign target) := by
  simp only [step, hpoint] at h
  obtain ⟨⟨w, events⟩, hsim, heq⟩ := Option.map_eq_some_iff.mp h
  refine ⟨w, ?_⟩
  dsimp only at heq
  split at heq
  · rename_i hlong
    split at heq
    · rename_i hcovered
      cases heq
      exact ⟨hsim, .inl ⟨hlong, hcovered, rfl⟩⟩
    · cases heq
      exact ⟨hsim, .inr (.inl ⟨hlong, rfl⟩)⟩
  · rename_i hshort
    cases heq
    exact ⟨hsim, .inr (.inr ⟨Nat.le_of_not_lt hshort, rfl⟩)⟩

theorem shifts_again {target clock : Nat} (hpoint : x.point = .again target clock)
    (h : x.step d opts firstAssign a = some (y, events)) :
    Shifts opts firstAssign x events y := by
  have htarget : x.point.target? = some target := by
    rw [hpoint]
    rfl
  have hgive : x.givesUp opts =
      if clock ≤ opts.unroll ∧ opts.totalLimit ≤ x.session.simNum then some target else none := by
    rw [givesUp, hpoint]
  obtain ⟨w, hsim, hlong⟩ := step_again hpoint h
  have hmark : Marked opts x events (w.newPath clock) :=
    (marked_simulate hsim).congr ⟨rfl, rfl, rfl, rfl⟩ ⟨rfl, rfl, rfl, rfl⟩
  rcases hlong with ⟨hlong, hcovered, rfl⟩ | ⟨hlong, rfl⟩ | ⟨hshort, rfl⟩
  · refine .remove (hgive.trans (if_neg fun hle => ?_)) hmark (.inr ⟨target, htarget, hcovered⟩) rfl
    exact absurd hle.1 (Nat.not_le_of_lt hlong)
  · refine .keep (hgive.trans (if_neg fun hle => ?_))
      (hmark.congr ⟨rfl, rfl, rfl, rfl⟩ ⟨rfl, rfl, rfl, rfl⟩) (.stay htarget rfl)
    exact absurd hle.1 (Nat.not_le_of_lt hlong)
  · have hsimNum := simNum_simulate hsim
    refine shifts_checkTarget hmark hsimNum htarget ?_
    simp only [hgive, hshort, true_and]

/-- **Steps and lists.** -/
theorem shifts_of_step (h : x.step d opts firstAssign a = some (y, events)) :
    Shifts opts firstAssign x events y := by
  have hgive : ∀ p, x.point = p → p.target? = none → x.givesUp opts = none := by
    intro p hp hnone
    unfold givesUp
    rw [hp]
    cases p <;> first | rfl | cases hnone
  have hstay : ∀ {p : Point} {target : Nat}, x.point = p → p.target? = some target →
      x.point.target? = some target := by
    intro p target hp htarget
    rw [hp, htarget]
  cases moves_of_step h with
  | random hpoint hlt hsim =>
      exact .keep (hgive _ hpoint rfl)
        ((marked_simulate hsim).congr ⟨rfl, rfl, rfl, rfl⟩ ⟨rfl, rfl, rfl, rfl⟩)
        (.random hpoint hlt rfl)
  | explore hpoint => exact .remove (hgive _ hpoint rfl) (.refl x) (.inl ⟨_, hpoint⟩) rfl
  | finish hpoint htargets =>
      exact .keep (hgive _ hpoint rfl) ((Marked.refl x).congr ⟨rfl, rfl, rfl, rfl⟩
        ⟨rfl, rfl, rfl, rfl⟩) (.finish hpoint htargets rfl)
  | skip hpoint htargets hcovered =>
      refine .skip hpoint rfl htargets hcovered ?_
      rw [← hpoint]
  | resume hpoint htargets _ _ hsim =>
      refine .keep (hgive _ hpoint rfl) ((marked_simulate hsim).congr ⟨rfl, rfl, rfl, rfl⟩
        ⟨rfl, rfl, rfl, rfl⟩) (.enter hpoint ?_ rfl)
      rw [htargets, List.head?_cons]
  | stay hpoint htargets =>
      refine .keep (hgive _ hpoint rfl) ((Marked.refl x).congr ⟨rfl, rfl, rfl, rfl⟩
        ⟨rfl, rfl, rfl, rfl⟩) (.enter hpoint ?_ rfl)
      rw [htargets, List.head?_cons]
  | iterate hpoint _ hcheck hsim =>
      obtain ⟨h₁, h₂, h₃, h₄⟩ := errorCheck_lists hcheck
      refine .keep ?_ ((marked_explore hsim).congr ⟨h₁.symm, h₂.symm, h₃.symm, h₄.symm⟩
        ⟨rfl, rfl, rfl, rfl⟩) (.stay (hstay hpoint rfl) rfl)
      rw [givesUp, hpoint]
  | reject hpoint _ htry =>
      obtain ⟨sigs, context, rfl⟩ := Session.tryCandidates_eq htry
      exact .reject hpoint ((Marked.refl x).congr ⟨rfl, rfl, rfl, rfl⟩ ⟨rfl, rfl, rfl, rfl⟩) rfl
  | accept hpoint _ htry haccept =>
      obtain ⟨sigs, context, rfl⟩ := Session.tryCandidates_eq htry
      refine .keep ?_ ((marked_accept haccept).congr ⟨rfl, rfl, rfl, rfl⟩ ⟨rfl, rfl, rfl, rfl⟩)
        (.stay (hstay hpoint rfl) rfl)
      rw [givesUp, hpoint]
  | confirm hpoint hsim =>
      refine .keep ?_ ((marked_simulate hsim).congr ⟨rfl, rfl, rfl, rfl⟩ ⟨rfl, rfl, rfl, rfl⟩)
        (.stay (hstay hpoint rfl) rfl)
      rw [givesUp, hpoint]
  | restart hpoint _ hsim =>
      refine shifts_checkTarget (marked_explore hsim) (simNum_explore hsim) (hstay hpoint rfl) ?_
      rw [givesUp, hpoint]
  | cover hpoint => exact shifts_again hpoint h
  | clear hpoint => exact shifts_again hpoint h
  | again hpoint => exact shifts_again hpoint h

/-! ## Every target is in one list -/

/-- The targets are in the three lists, those found covered are covered, and the
loop is at the target in front. -/
structure Tracked (firstAssign : Nat → Nat) (targets : List Nat) (x : Search S) : Prop where
  perm : (x.coveredTargetList ++ x.uncoveredTargetList ++ x.session.targetList).Perm targets
  covered : ∀ target ∈ x.coveredTargetList, x.isCovered firstAssign target = true
  front : ∀ target, x.point.target? = some target → x.session.targetList.head? = some target
  done : x.point = .done → x.session.targetList = []

omit [DecidableEq S] in
theorem Marked.mono (h : Marked opts x events y) {target : Nat}
    (hcovered : x.isCovered firstAssign target = true) : y.isCovered firstAssign target = true :=
  (h.isCovered _).mpr (.inl hcovered)

omit [DecidableEq S] in
/-- Given up is the target in front. -/
theorem target_of_givesUp {target : Nat} (h : x.givesUp opts = some target) :
    x.point.target? = some target := by
  unfold givesUp at h
  split at h
  · rename_i hpoint
    rw [hpoint]
    split at h
    · exact h
    · cases h
  · rename_i hpoint
    rw [hpoint]
    split at h
    · exact h
    · cases h
  · cases h

omit [DecidableEq S] in
theorem Tracked.shift {targets : List Nat} (hx : Tracked firstAssign targets x)
    (h : Shifts opts firstAssign x events y) : Tracked firstAssign targets y := by
  cases h with
  | keep hgive hmark hgoes =>
      refine ⟨?_, fun t ht => hmark.mono (hx.covered t (hmark.covered ▸ ht)), fun t ht => ?_,
        fun hy => ?_⟩
      · rw [hmark.covered, hmark.uncovered, hmark.targetList]
        exact hx.perm
      · rw [hmark.targetList]
        cases hgoes with
        | random _ _ hy =>
            rw [hy] at ht
            cases ht
        | finish _ _ hy =>
            rw [hy] at ht
            cases ht
        | enter _ hfront hy => exact hfront.trans (hy.symm.trans ht)
        | stay hpoint hy => exact hx.front t (hpoint.trans (hy.symm.trans ht))
      · rw [hmark.targetList]
        cases hgoes with
        | random _ _ hrandom => cases hrandom.symm.trans hy
        | finish _ htargets _ => exact htargets
        | enter _ _ htarget =>
            rw [hy] at htarget
            cases htarget
        | stay _ htarget =>
            rw [hy] at htarget
            cases htarget
  | reject hpoint hmark hpick =>
      refine ⟨?_, fun t ht => ?_, fun t ht => ?_, fun hy => ?_⟩
      · rw [hmark.covered, hmark.uncovered, hmark.targetList]
        exact hx.perm
      · exact hmark.mono (hx.covered t (hmark.covered ▸ ht))
      · rw [hpick] at ht
        cases ht
      · rw [hpick] at hy
        cases hy
  | skip hpoint hevents htargets hcovered hy =>
      subst hy
      refine ⟨?_, fun t ht => ?_, fun t ht => ?_, fun hy => ?_⟩
      · refine .trans ?_ (htargets ▸ hx.perm)
        simp only [List.append_assoc, List.singleton_append]
        exact List.perm_middle.symm.append_left _
      · rcases List.mem_append.mp ht with ht | ht
        · exact hx.covered t ht
        · rw [List.mem_singleton.mp ht]
          exact hcovered
      · rw [hpoint] at ht
        cases ht
      · rw [hpoint] at hy
        cases hy
  | @remove w hgive hmark hcovered hy =>
      subst hy
      refine ⟨?_, fun t ht => ?_, nofun, nofun⟩
      · refine .trans ?_ hx.perm
        simp only [removeCoveredTargets, hmark.covered, hmark.uncovered, hmark.targetList,
          List.append_assoc]
        refine .append_left _ ((List.perm_append_comm_assoc _ _ _).trans (.append_left _ ?_))
        exact List.filter_append_perm _ _
      · rcases List.mem_append.mp ht with ht | ht
        · exact hmark.mono (hx.covered t (hmark.covered ▸ ht))
        · exact (List.mem_filter.mp ht).2
  | @giveUp target w hgive hmark hy =>
      subst hy
      refine ⟨?_, fun t ht => hmark.mono (hx.covered t (hmark.covered ▸ ht)), nofun, nofun⟩
      have hfront := hx.front target (target_of_givesUp hgive)
      obtain ⟨targets', htargets⟩ := List.head?_eq_some_iff.mp hfront
      have hperm := hx.perm
      rw [htargets] at hperm
      simp only [hmark.covered, hmark.uncovered, hmark.targetList, htargets, List.tail_cons,
        List.append_assoc, List.singleton_append] at hperm ⊢
      exact hperm

omit [DecidableEq S] in
theorem tracked_start (printed : Nat → List Char) (session : Session S) (targets : List Nat) :
    Tracked firstAssign targets (Search.start d opts printed session targets) :=
  ⟨.refl _, nofun, nofun, nofun⟩

theorem tracked_run {targets : List Nat} {answers : List (Answer S)}
    (hx : Tracked firstAssign targets x)
    (h : observe (step d opts firstAssign) x answers = some (y, events)) :
    Tracked firstAssign targets y :=
  observe_inv (Tracked firstAssign targets) (V := fun _ => True) h hx (fun _ _ => trivial)
    fun _ _ _ _ hs _ hstep => hs.shift (shifts_of_step hstep)

/-! ## Targets given up -/

/-- No target is given up that is covered. -/
def Missed (firstAssign : Nat → Nat) (x : Search S) : Prop :=
  ∀ target ∈ x.uncoveredTargetList, x.isCovered firstAssign target = false

/-- The condition on a step: no target that was given up is shown, and a target
that the step gives up is neither covered before nor shown. -/
def GivesUpRightly (d : Design S) (opts : Options) (firstAssign : Nat → Nat) (x : Search S)
    (a : Answer S) : Prop :=
  ∀ y events, x.step d opts firstAssign a = some (y, events) →
    (∀ target ∈ x.uncoveredTargetList, ¬ Shown opts events (firstAssign target)) ∧
    ∀ target, x.givesUp opts = some target →
      x.isCovered firstAssign target = false ∧ ¬ Shown opts events (firstAssign target)

omit [DecidableEq S] in
theorem Marked.isCovered_eq_false_iff (h : Marked opts x events y) (target : Nat) :
    y.isCovered firstAssign target = false ↔
      x.isCovered firstAssign target = false ∧ ¬ Shown opts events (firstAssign target) := by
  have hiff := h.isCovered (firstAssign target)
  rw [← Bool.not_eq_true, ← Bool.not_eq_true, ← not_or]
  exact not_congr hiff

omit [DecidableEq S] in
/-- Given-up targets stay so, and marks stay. -/
theorem Shifts.missed_of (h : Shifts opts firstAssign x events y) (hy : Missed firstAssign y) :
    Missed firstAssign x := by
  have hmark : ∀ {w : Search S}, Marked opts x events w → y.session.coverage = w.session.coverage →
      w.uncoveredTargetList ⊆ y.uncoveredTargetList → Missed firstAssign x := by
    intro w hmark hcoverage hsub target htarget
    have hw := hy target (hsub (hmark.uncovered ▸ htarget))
    rw [isCovered, hcoverage] at hw
    exact ((hmark.isCovered_eq_false_iff target).mp hw).1
  cases h with
  | keep hgive hm => exact hmark hm rfl (List.Subset.refl _)
  | reject hpoint hm => exact hmark hm rfl (List.Subset.refl _)
  | skip hpoint hevents htargets hcovered heq =>
      subst heq
      exact hy
  | remove hgive hm hcovered heq =>
      subst heq
      exact hmark hm rfl (List.Subset.refl _)
  | giveUp hgive hm heq =>
      subst heq
      exact hmark hm rfl (List.subset_append_left _ _)

/-- A step keeps what was missed exactly under the condition. -/
theorem missed_step_iff (hx : Missed firstAssign x)
    (h : x.step d opts firstAssign a = some (y, events)) :
    Missed firstAssign y ↔ GivesUpRightly d opts firstAssign x a := by
  have hcond : GivesUpRightly d opts firstAssign x a ↔
      (∀ target ∈ x.uncoveredTargetList, ¬ Shown opts events (firstAssign target)) ∧
      ∀ target, x.givesUp opts = some target →
        x.isCovered firstAssign target = false ∧ ¬ Shown opts events (firstAssign target) := by
    constructor
    · exact fun hright => hright y events h
    · intro hright z events' hz
      cases h.symm.trans hz
      exact hright
  have hold : ∀ {w : Search S}, Marked opts x events w →
      ((∀ target ∈ x.uncoveredTargetList, w.isCovered firstAssign target = false) ↔
        ∀ target ∈ x.uncoveredTargetList, ¬ Shown opts events (firstAssign target)) := by
    intro w hmark
    refine forall₂_congr fun target htarget => (hmark.isCovered_eq_false_iff target).trans ?_
    rw [and_iff_right (hx target htarget)]
  rw [hcond]
  cases shifts_of_step h with
  | keep hgive hmark =>
      rw [Missed, hmark.uncovered, hold hmark, hgive]
      simp
  | reject hpoint hmark =>
      have hgive : x.givesUp opts = none := by
        rw [givesUp, hpoint]
      rw [Missed, hmark.uncovered, hold hmark, hgive]
      simp
  | skip hpoint hevents htargets hcovered heq =>
      have hgive : x.givesUp opts = none := by
        rw [givesUp, hpoint]
      subst heq
      rw [hgive, hevents]
      simp only [not_shown_nil, not_false_eq_true, implies_true, reduceCtorEq, false_implies,
        and_self, iff_true]
      exact hx
  | @remove w hgive hmark hcovered heq =>
      subst heq
      rw [hgive, ← hold hmark, ← hmark.uncovered]
      simp only [reduceCtorEq, false_implies, implies_true, and_true]
      rfl
  | @giveUp target w hgive hmark heq =>
      subst heq
      rw [hgive, ← hold hmark, ← hmark.uncovered]
      have hlast : w.isCovered firstAssign target = false ↔
          x.isCovered firstAssign target = false ∧ ¬ Shown opts events (firstAssign target) :=
        hmark.isCovered_eq_false_iff target
      constructor
      · intro hy
        refine ⟨fun t ht => hy t (List.mem_append_left _ ht), fun t ht => ?_⟩
        cases ht
        exact hlast.mp (hy target (List.mem_append_right _ List.mem_cons_self))
      · rintro ⟨hprev, hthis⟩ t ht
        rcases List.mem_append.mp ht with ht | ht
        · exact hprev t ht
        · rw [List.mem_singleton.mp ht]
          exact hlast.mpr (hthis target rfl)

theorem missed_run_iff {answers : List (Answer S)} (hx : Missed firstAssign x)
    (h : observe (step d opts firstAssign) x answers = some (y, events)) :
    Missed firstAssign y ↔
      ObservedSteps (step d opts firstAssign) (GivesUpRightly d opts firstAssign) x answers := by
  induction answers generalizing x events with
  | nil =>
      cases h
      exact iff_of_true hx trivial
  | cons a answers ih =>
      obtain ⟨⟨z, es₁⟩, hz, h⟩ := Option.bind_eq_some_iff.mp h
      obtain ⟨⟨w, es₂⟩, hw, heq⟩ := Option.map_eq_some_iff.mp h
      cases heq
      have hback : Missed firstAssign y → Missed firstAssign z := fun hy =>
        observe_rel (R := fun s _ t => Missed firstAssign t → Missed firstAssign s) (fun _ => id)
          (fun h₁ h₂ ht => h₁ (h₂ ht)) (fun hs => (shifts_of_step hs).missed_of) hw hy
      constructor
      · intro hy
        refine ⟨(missed_step_iff hx hz).mp (hback hy), fun t es ht => ?_⟩
        cases hz.symm.trans ht
        exact (ih (hback hy) hw).mp hy
      · rintro ⟨hfirst, hrest⟩
        exact (ih ((missed_step_iff hx hz).mpr hfirst) hw).mpr (hrest z es₁ hz)

omit [DecidableEq S] in
/-- The lists are right when no target is given up that is covered. -/
theorem Tracked.classified_iff {targets : List Nat} (hx : Tracked firstAssign targets x)
    (hdone : x.point = .done) :
    (x.coveredTargetList.Perm (targets.filter fun target => x.isCovered firstAssign target) ∧
      x.uncoveredTargetList.Perm (targets.filter fun target => !x.isCovered firstAssign target) ∧
      x.session.targetList = []) ↔ Missed firstAssign x := by
  have hperm := hx.perm
  rw [hx.done hdone, List.append_nil] at hperm
  constructor
  · rintro ⟨-, huncovered, -⟩ target htarget
    simpa using (List.mem_filter.mp (huncovered.mem_iff.mp htarget)).2
  · intro hmissed
    have hcovered := hperm.filter fun target => x.isCovered firstAssign target
    have huncovered := hperm.filter fun target => !x.isCovered firstAssign target
    rw [List.filter_append, List.filter_eq_self.mpr hx.covered, List.filter_eq_nil_iff.mpr,
      List.append_nil] at hcovered
    rw [List.filter_append, List.filter_eq_nil_iff.mpr, List.nil_append,
      List.filter_eq_self.mpr] at huncovered
    · exact ⟨hcovered, huncovered, hx.done hdone⟩
    · exact fun target htarget => by simpa using hmissed target htarget
    · exact fun target htarget => by simpa using hx.covered target htarget
    · exact fun target htarget => by simpa using hmissed target htarget

end Search

/-- **Covered and uncovered.** When the loop of `step_coverage` ends, the lists
classify the targets rightly exactly when, in every step of the run, no target
was shown that had been given up, and none was given up that was covered or shown
in that step. -/
theorem stepCoverage_classified_iff {printed : Nat → List Char} {session : Session S}
    {targets : List Nat} {answers : List (Answer S)} {events : List Event} {x : Search S}
    (h : observe (Search.step d opts firstAssign) (Search.start d opts printed session targets)
      answers = some (x, events)) (hdone : x.point = .done) :
    (x.coveredTargetList.Perm (targets.filter fun target => x.isCovered firstAssign target) ∧
      x.uncoveredTargetList.Perm (targets.filter fun target => !x.isCovered firstAssign target) ∧
      x.session.targetList = []) ↔
      ObservedSteps (Search.step d opts firstAssign) (Search.GivesUpRightly d opts firstAssign)
        (Search.start d opts printed session targets) answers := by
  have htracked := Search.tracked_run (Search.tracked_start printed session targets) h
  rw [htracked.classified_iff hdone]
  exact Search.missed_run_iff nofun h

theorem elseRun_done : ∃ x, elseRun = some (x, elseEvents) ∧ x.point = .done := by
  have hrun : elseRun.map (fun r => (r.2, match r.1.point with | .done => true | _ => false)) =
      some (elseEvents, true) := by decide +kernel
  obtain ⟨⟨x, events⟩, hx, heq⟩ := Option.map_eq_some_iff.mp hrun
  obtain ⟨rfl, hpoint⟩ := Prod.mk.inj heq
  refine ⟨x, hx, ?_⟩
  split at hpoint
  · assumption
  · cases hpoint

theorem elseRun_classified : ∃ x, elseRun = some (x, elseEvents) ∧
    ((x.coveredTargetList.Perm ([0].filter fun target => x.isCovered (fun _ => 0) target) ∧
      x.uncoveredTargetList.Perm ([0].filter fun target => !x.isCovered (fun _ => 0) target) ∧
      x.session.targetList = []) ↔
      ObservedSteps (Search.step elseDesign elseOptions fun _ => 0)
        (Search.GivesUpRightly elseDesign elseOptions fun _ => 0)
        (Search.start elseDesign elseOptions (fun _ => ['a']) elseSession [0])
        (List.replicate 8 elseAnswer)) := by
  obtain ⟨x, hrun, hdone⟩ := elseRun_done
  exact ⟨x, hrun, stepCoverage_classified_iff hrun hdone⟩

/-! ## A target covered on the way out -/

/-- `if (a) begin q <= a; if (q); else; end else;` -/
def nestedDesign : Design Bool :=
  { elseDesign with
    assignMap := elseDesign.assignMap ++
      [{ id := 3, target := .branch (.leaf (.signal ⟨true, 0, 0, false⟩)),
         rval := .leaf (.number ⟨['1']⟩), process := 0, block := 2 },
       { id := 4, target := .branch (.leaf (.signal ⟨true, 0, 0, false⟩)),
         rval := .leaf (.number ⟨['0']⟩), process := 0, block := 3 }]
    branchNodes := [[0, 2], [3, 4]]
    id_eq := by decide
    writesReg := by decide
    isBranch := by decide }

def nestedOptions : Options := { elseOptions with step := 10, totalLimit := 10 }

/-- The signals have terms for the versions up to 20. -/
def nestedSession : Session Bool :=
  { elseSession with
    sigs :=
      { core := fun s => SMTSigCore.new 10 (elseDesign.decl s) (if s then 21 else 0)
        fresh := 42 } }

/-- `a` is zero in all clocks but the first two. -/
def nestedAnswer (first : List LogRecord) : Answer Bool :=
  { elseAnswer with
    log := .clock 1 :: first ++ (List.range' 3 19).flatMap fun n => [.clock n, .assign 2] }

/-- Ten times the path becomes too long; the last random inputs reach the inner
branch, in the clock after the one that sets `q`. -/
def nestedRun : Option (Search Bool × List Event) :=
  observe (Search.step nestedDesign nestedOptions id)
    (Search.start nestedDesign nestedOptions (fun _ => ['a']) nestedSession [3])
    (List.replicate 52 (nestedAnswer [.assign 2, .clock 2, .assign 2]) ++
      [nestedAnswer [.assign 0, .assign 1, .assign 4, .clock 2, .assign 0, .assign 1, .assign 3],
        nestedAnswer [.assign 2, .clock 2, .assign 2]])

/-- The only target is covered, and is reported as uncovered. -/
theorem nested_misclassified : ∃ x events, nestedRun = some (x, events) ∧ x.point = .done ∧
    x.uncoveredTargetList = [3] ∧ x.isCovered id 3 = true ∧
    ¬ (x.coveredTargetList.Perm ([3].filter fun target => x.isCovered id target) ∧
      x.uncoveredTargetList.Perm ([3].filter fun target => !x.isCovered id target) ∧
      x.session.targetList = []) := by
  have hrun : nestedRun.map (fun r => (r.1.coveredTargetList, r.1.uncoveredTargetList,
      r.1.isCovered id 3, match r.1.point with | .done => true | _ => false)) =
        some ([], [3], true, true) := by decide +kernel
  obtain ⟨⟨x, events⟩, hx, heq⟩ := Option.map_eq_some_iff.mp hrun
  simp only [Prod.mk.injEq] at heq
  obtain ⟨hempty, huncovered, hcovered, hpoint⟩ := heq
  refine ⟨x, events, hx, ?_, huncovered, hcovered, fun h => ?_⟩
  · split at hpoint
    · assumption
    · cases hpoint
  · have hmem : 3 ∈ x.coveredTargetList :=
      h.1.mem_iff.mpr (List.mem_filter.mpr ⟨List.mem_singleton_self 3, hcovered⟩)
    rw [hempty] at hmem
    cases hmem

end Conquest
