import Conquest.Explore.Rows
import Conquest.Explore.Targets

/-!
# Closest — the closest paths of the targets

A random path is noted as the closest one of many targets, and it is the path
object itself that is noted. `explore_one_step` appends rows to the object it
explores from, which is the closest path of a target when that target is taken
up. What was simulated when a path was noted is kept here beside the
exploration.
-/

namespace Conquest

open Run Text

variable {S : Type}

/-! ## Notes -/

/-- What happened to the closest paths. -/
structure PathNotes where
  /-- The rows that were simulated when the closest path of a target was
  noted. -/
  rows : Nat → List Line
  /-- The path objects that `explore_one_step` has extended. -/
  extended : Nat → Bool

namespace PathNotes

def start : PathNotes where
  rows := fun _ => []
  extended := fun _ => false

/-- The notes after a step from `x`, which leaves the rows `m`. -/
def step (opts : Options) (x : Search S) (a : Answer S) (m : Rows) (n : PathNotes) : PathNotes :=
  match x.point with
  | .random i =>
      if i < opts.randomSimNum then
        { n with
          rows := fun target =>
            if target ∈ x.session.targetList ∧ a.isCloser target then m.dataMem
            else n.rows target }
      else n
  | .iterate _ | .restart _ =>
      match x.path with
      | none => n
      | some path => { n with extended := Function.update n.extended path true }
  | _ => n

variable {opts : Options} {x : Search S} {a : Answer S} {m : Rows} {n : PathNotes}

theorem step_note {i : Nat} (hpoint : x.point = .random i) (hlt : i < opts.randomSimNum) :
    n.step opts x a m =
      { n with
        rows := fun target =>
          if target ∈ x.session.targetList ∧ a.isCloser target then m.dataMem
          else n.rows target } := by
  rw [step, hpoint]
  exact if_pos hlt

theorem step_extend {path : Nat} (hpath : x.path = some path)
    (hpoint : (∃ target, x.point = .iterate target) ∨ ∃ target, x.point = .restart target) :
    n.step opts x a m = { n with extended := Function.update n.extended path true } := by
  rcases hpoint with ⟨target, hpoint⟩ | ⟨target, hpoint⟩
  · rw [step, hpoint, hpath]
  · rw [step, hpoint, hpath]

theorem step_other (hnote : ∀ i, x.point = .random i → ¬ i < opts.randomSimNum)
    (hiterate : ∀ target, x.point ≠ .iterate target)
    (hrestart : ∀ target, x.point ≠ .restart target) : n.step opts x a m = n := by
  unfold step
  split
  · rename_i i hpoint
    exact if_neg (hnote i hpoint)
  · rename_i target hpoint
    exact absurd hpoint (hiterate target)
  · rename_i target hpoint
    exact absurd hpoint (hrestart target)
  · rfl

end PathNotes

/-- `step_coverage` with its data and the notes. -/
def Search.stepNoted [DecidableEq S] (d : Design S) (opts : Options) (enableObsPadding : Bool)
    (firstAssign : Nat → Nat) (s : (Search S × Rows) × PathNotes) (a : DataAnswer S) :
    Option (((Search S × Rows) × PathNotes) × List Event) :=
  (Search.stepRows d opts enableObsPadding firstAssign s.1 a).map fun ((y, m), events) =>
    (((y, m), s.2.step opts s.1.1 a.toAnswer m), events)

/-- When a target is taken up, its closest path has the rows that were simulated
when the path was noted. -/
def KeepsRows (firstAssign : Nat → Nat) (s : (Search S × Rows) × PathNotes) : Prop :=
  s.1.1.point = .pick → ∀ target path, s.1.1.session.targetList.head? = some target →
    s.1.1.isCovered firstAssign target = false → s.1.1.closestPath target = some path →
      (s.1.2.pathData path).inputVector = s.2.rows target

/-- The condition: no step of the exploration has started from that path. -/
def NotExtended (firstAssign : Nat → Nat) (s : (Search S × Rows) × PathNotes) : Prop :=
  s.1.1.point = .pick → ∀ target path, s.1.1.session.targetList.head? = some target →
    s.1.1.isCovered firstAssign target = false → s.1.1.closestPath target = some path →
      s.2.extended path = false

/-! ## What a step does to the rows of the paths -/

section Steps

variable {opts : Options} {enableObsPadding : Bool} {firstAssign : Nat → Nat} {d : Design S}
  {x y : Search S} {a : DataAnswer S} {m m' : Rows}

theorem length_of_mapM {α β : Type} {f : α → Option β} {l : List α} {r : List β}
    (h : l.mapM f = some r) : r.length = l.length := by
  induction l generalizing r with
  | nil =>
      cases h
      rfl
  | cons a l ih =>
      rw [List.mapM_cons] at h
      obtain ⟨b, -, h⟩ := Option.bind_eq_some_iff.mp h
      obtain ⟨r', hr', h⟩ := Option.bind_eq_some_iff.mp h
      cases h
      rw [List.length_cons, List.length_cons, ih hr']

theorem PathData.connectPath_eq {data other data' : PathData}
    (h : data.connectPath other = some data') :
    ∃ rows, rows.length = other.step ∧ data'.inputVector = data.inputVector ++ rows := by
  obtain ⟨rows, hrows, rfl⟩ := Option.map_eq_some_iff.mp h
  exact ⟨rows, (length_of_mapM hrows).trans List.length_range, rfl⟩

/-- Rows are appended, at least one. -/
theorem Rows.exploreOneStep_eq {path : Nat} {rand : Nat → Nat}
    (h : m.exploreOneStep opts enableObsPadding path rand = some m') :
    ∃ data rows, rows ≠ [] ∧ data.inputVector = (m.pathData path).inputVector ++ rows ∧
      m'.pathData = Function.update m.pathData path data := by
  obtain ⟨step, hgenerate, h⟩ := Option.bind_eq_some_iff.mp h
  obtain ⟨data, hconnect, rfl⟩ := Option.map_eq_some_iff.mp h
  obtain ⟨rows, hlength, hrows⟩ := PathData.connectPath_eq hconnect
  refine ⟨data, rows, ?_, hrows, rfl⟩
  unfold PathData.generate at hgenerate
  split at hgenerate
  · cases hgenerate
  · rename_i hpos
    obtain rfl := Option.some.inj hgenerate
    rintro rfl
    exact hpos (.inl hlength.symm)

/-- What happens to the rows. -/
inductive Rows.Changes (opts : Options) (x : Search S) (m m' : Rows) : Prop
  | note {i : Nat} {data : PathData} (hpoint : x.point = .random i)
      (hlt : i < opts.randomSimNum) (hmem : m'.dataMem = data.inputVector)
      (hpaths : m'.pathData = Function.update m.pathData x.pathCount data)
  | extend {path : Nat} {data : PathData} {rows : List Line} (hpath : x.path = some path)
      (hpoint : (∃ target, x.point = .iterate target) ∨ ∃ target, x.point = .restart target)
      (hne : rows ≠ []) (hrows : data.inputVector = (m.pathData path).inputVector ++ rows)
      (hpaths : m'.pathData = Function.update m.pathData path data)
  | other (hnote : ∀ i, x.point = .random i → ¬ i < opts.randomSimNum)
      (hiterate : ∀ target, x.point ≠ .iterate target)
      (hrestart : ∀ target, x.point ≠ .restart target)
      (hpaths : ∀ p, p ≠ x.pathCount → m'.pathData p = m.pathData p)

theorem Rows.changes_of_step (h : m.step opts enableObsPadding firstAssign d x a y = some m') :
    m.Changes opts x m' := by
  obtain ⟨w, hdump, hsave⟩ := Option.bind_eq_some_iff.mp h
  unfold dump at hdump
  unfold save at hsave
  have hother : ∀ p, x.point = p → (∀ i, p ≠ .random i) → (∀ target, p ≠ .iterate target) →
      (∀ target, p ≠ .restart target) → (∀ q, q ≠ x.pathCount → m'.pathData q = m.pathData q) →
      m.Changes opts x m' := by
    rintro p rfl hrandom hiterate hrestart hpaths
    exact .other (fun i hi => absurd hi (hrandom i)) hiterate hrestart hpaths
  cases hpoint : x.point with
  | random i =>
      simp only [hpoint] at hdump hsave
      split at hsave
      · rename_i hlt
        rw [if_pos hlt] at hdump
        obtain ⟨data, -, rfl⟩ := Option.map_eq_some_iff.mp hdump
        obtain rfl := Option.some.inj hsave
        exact .note hpoint hlt rfl rfl
      · rename_i hge
        rw [if_neg hge] at hdump
        obtain rfl := Option.some.inj hdump
        obtain rfl := Option.some.inj hsave
        refine .other (fun j hj => ?_) (fun t ht => ?_) (fun t ht => ?_) fun p _ => rfl
        · cases hpoint.symm.trans hj
          exact hge
        · cases hpoint.symm.trans ht
        · cases hpoint.symm.trans ht
  | iterate target =>
      simp only [hpoint] at hdump hsave
      obtain ⟨path, hpath, hdump⟩ := Option.bind_eq_some_iff.mp hdump
      obtain ⟨data, rows, hne, hrows, hpaths⟩ := exploreOneStep_eq hdump
      obtain rfl := Option.some.inj hsave
      exact .extend hpath (.inl ⟨target, hpoint⟩) hne hrows hpaths
  | restart target =>
      simp only [hpoint] at hdump hsave
      obtain ⟨path, hpath, hdump⟩ := Option.bind_eq_some_iff.mp hdump
      obtain ⟨data, rows, hne, hrows, hpaths⟩ := exploreOneStep_eq hdump
      obtain rfl := Option.some.inj hsave
      exact .extend hpath (.inr ⟨target, hpoint⟩) hne hrows hpaths
  | pick =>
      simp only [hpoint] at hdump hsave
      obtain rfl := Option.some.inj hsave
      refine hother _ hpoint nofun nofun nofun fun q _ => ?_
      split at hdump
      · rw [← Option.some.inj hdump]
      · rw [← Option.some.inj hdump]
  | search target initClk =>
      simp only [hpoint] at hdump hsave
      obtain rfl := Option.some.inj hdump
      obtain ⟨path, -, hsave⟩ := Option.bind_eq_some_iff.mp hsave
      refine hother _ hpoint nofun nofun nofun fun q _ => ?_
      unfold tryCandidates at hsave
      split at hsave
      · obtain ⟨data, -, rfl⟩ := Option.map_eq_some_iff.mp hsave
        rfl
      · split at hsave
        · rw [← Option.some.inj hsave]
        · rw [← Option.some.inj hsave]
  | confirm target clock =>
      simp only [hpoint] at hdump hsave
      obtain rfl := Option.some.inj hdump
      obtain rfl := Option.some.inj hsave
      exact hother _ hpoint nofun nofun nofun fun q _ => rfl
  | again target clock =>
      -- the rows of the new path object
      simp only [hpoint] at hdump hsave
      obtain rfl := Option.some.inj hdump
      refine hother _ hpoint nofun nofun nofun fun q hq => ?_
      rw [← Option.some.inj hsave]
      exact Function.update_of_ne hq _ _
  | done =>
      simp only [hpoint] at hdump hsave
      obtain rfl := Option.some.inj hdump
      obtain rfl := Option.some.inj hsave
      exact hother _ hpoint nofun nofun nofun fun q _ => rfl

variable [DecidableEq S] {events : List Event}

/-- What happens to the path objects and to who points to them. -/
inductive Search.PathMoves (opts : Options) (x : Search S) (a : Answer S) (y : Search S) : Prop
  | note {i : Nat} (hpoint : x.point = .random i) (hlt : i < opts.randomSimNum)
      (hcount : y.pathCount = x.pathCount + 1) (hpath : y.path = some x.pathCount)
      (hclosest : ∀ target, y.closestPath target =
        if target ∈ x.session.targetList ∧ a.isCloser target then some x.pathCount
        else x.closestPath target)
  | new (hnote : ∀ i, x.point = .random i → ¬ i < opts.randomSimNum)
      (hcount : y.pathCount = x.pathCount + 1) (hpath : y.path = some x.pathCount)
      (hclosest : y.closestPath = x.closestPath)
  | keep (hnote : ∀ i, x.point = .random i → ¬ i < opts.randomSimNum)
      (hcount : y.pathCount = x.pathCount)
      (hpath : ∀ p, y.path = some p → x.path = some p ∨ ∃ target, x.closestPath target = some p)
      (hclosest : y.closestPath = x.closestPath)

theorem Search.pathMoves_of_step (h : x.step d opts firstAssign a.toAnswer = some (y, events)) :
    x.PathMoves opts a.toAnswer y := by
  have hnote : ∀ p, x.point = p → (∀ i, p ≠ .random i) →
      ∀ i, x.point = .random i → ¬ i < opts.randomSimNum := by
    rintro p rfl hp i hi
    exact absurd hi (hp i)
  cases moves_of_step h with
  | @random i z _ hpoint hlt hsim =>
      obtain ⟨session, hsession, -, rfl, -⟩ := simulate_eq hsim
      refine .note hpoint hlt rfl rfl fun target => ?_
      have htargets := (Session.marking_simulate hsession).targetList
      simp only [updateAllClosestPaths, newPath, htargets]
  | explore hpoint hge =>
      refine .keep (fun j hj => ?_) rfl (fun p hp => .inl hp) rfl
      cases hpoint.symm.trans hj
      exact hge
  | finish hpoint => exact .keep (hnote _ hpoint nofun) rfl (fun p hp => .inl hp) rfl
  | skip hpoint => exact .keep (hnote _ hpoint nofun) rfl (fun p hp => .inl hp) rfl
  | @resume target _ z _ hpoint _ _ _ hsim =>
      obtain ⟨session, -, -, rfl, -⟩ := simulate_eq hsim
      exact .keep (hnote _ hpoint nofun) rfl (fun p hp => .inr ⟨target, hp⟩) rfl
  | stay hpoint => exact .keep (hnote _ hpoint nofun) rfl (fun p hp => .inl hp) rfl
  | iterate hpoint _ hcheck hsim =>
      obtain ⟨context, rfl⟩ := errorCheck_eq hcheck
      obtain ⟨session', -, -, rfl, -⟩ := exploreOneStep_eq hsim
      exact .keep (hnote _ hpoint nofun) rfl (fun p hp => .inl hp) rfl
  | reject hpoint => exact .keep (hnote _ hpoint nofun) rfl nofun rfl
  | accept hpoint _ _ haccept =>
      obtain rfl := accept_eq haccept
      exact .keep (hnote _ hpoint nofun) rfl (fun p hp => .inl hp) rfl
  | confirm hpoint hsim =>
      obtain ⟨session, -, -, rfl, -⟩ := simulate_eq hsim
      exact .keep (hnote _ hpoint nofun) rfl (fun p hp => .inl hp) rfl
  | cover hpoint hsim =>
      obtain ⟨session, -, -, rfl, -⟩ := simulate_eq hsim
      exact .new (hnote _ hpoint nofun) rfl rfl rfl
  | clear hpoint hsim =>
      obtain ⟨session, -, -, rfl, -⟩ := simulate_eq hsim
      exact .new (hnote _ hpoint nofun) rfl rfl rfl
  | @again target clock z _ hpoint hsim =>
      obtain ⟨session, -, -, rfl, -⟩ := simulate_eq hsim
      obtain ⟨targets, covered, uncovered, point, -, heq⟩ :=
        checkTarget_eq opts firstAssign target (newPath clock { x with session := session })
      rw [heq]
      exact .new (hnote _ hpoint nofun) rfl rfl rfl
  | @restart target path z _ hpoint _ hsim =>
      obtain ⟨session, -, -, rfl, -⟩ := exploreOneStep_eq hsim
      obtain ⟨targets, covered, uncovered, point, -, heq⟩ :=
        checkTarget_eq opts firstAssign target
          { x with
            clk := Function.update x.clk path (x.clk path + opts.step)
            session := session }
      rw [heq]
      exact .keep (hnote _ hpoint nofun) rfl (fun p hp => .inl hp) rfl

end Steps

/-! ## The rows of the closest paths -/

section Runs

variable [DecidableEq S] {d : Design S} {opts : Options} {enableObsPadding : Bool}
  {firstAssign : Nat → Nat} {s t : (Search S × Rows) × PathNotes} {a : DataAnswer S}
  {events : List Event}

/-- The invariant: a closest path has the rows that were noted, and more exactly
when it was extended. -/
structure Grown (s : (Search S × Rows) × PathNotes) : Prop where
  path : ∀ path, s.1.1.path = some path → path < s.1.1.pathCount
  closest : ∀ target path, s.1.1.closestPath target = some path → path < s.1.1.pathCount ∧
    ∃ more, (s.1.2.pathData path).inputVector = s.2.rows target ++ more ∧
      (s.2.extended path = false ↔ more = [])
  fresh : ∀ path, s.1.1.pathCount ≤ path → s.2.extended path = false

omit [DecidableEq S] in
theorem Grown.keepsRows_iff (h : Grown s) : KeepsRows firstAssign s ↔ NotExtended firstAssign s := by
  refine forall_congr' fun _ => forall₂_congr fun target path => forall₃_congr fun _ _ hpath => ?_
  obtain ⟨-, more, hrows, hextended⟩ := h.closest target path hpath
  rw [hextended, hrows, List.append_right_eq_self]

omit [DecidableEq S] in
theorem grown_start {printed : Nat → List Char} {session : Session S} {targets : List Nat}
    (m : Rows) : Grown ((Search.start d opts printed session targets, m), .start) :=
  ⟨nofun, nofun, fun _ _ => rfl⟩

omit [DecidableEq S] in
/-- A path is noted: the new object, with the rows that were just simulated. -/
theorem grown_note {x y : Search S} {m m' : Rows} {n : PathNotes} (h : Grown ((x, m), n))
    (hchanges : m.Changes opts x m') {i : Nat} (hpoint : x.point = .random i)
    (hlt : i < opts.randomSimNum) (hcount : y.pathCount = x.pathCount + 1)
    (hpath : y.path = some x.pathCount)
    (hclosest : ∀ target, y.closestPath target =
      if target ∈ x.session.targetList ∧ a.isCloser target then some x.pathCount
      else x.closestPath target) :
    Grown ((y, m'), n.step opts x a.toAnswer m') := by
  rw [PathNotes.step_note hpoint hlt]
  cases hchanges with
  | extend _ hother =>
      rcases hother with ⟨target, hother⟩ | ⟨target, hother⟩
      · cases hpoint.symm.trans hother
      · cases hpoint.symm.trans hother
  | other hnote => exact absurd hlt (hnote i hpoint)
  | @note j data _ _ hmem hpaths =>
      refine ⟨fun p hp => ?_, fun target p hp => ?_, fun p hp => h.fresh p ?_⟩
      · dsimp only at hp ⊢
        rw [hpath] at hp
        cases hp
        omega
      · dsimp only at hp ⊢
        rw [hclosest] at hp
        rw [hcount, hpaths]
        split at hp
        · rename_i hcloser
          cases hp
          refine ⟨Nat.lt_succ_self _, [], ?_, iff_of_true (h.fresh _ le_rfl) rfl⟩
          rw [Function.update_self, if_pos hcloser, hmem, List.append_nil]
        · rename_i hcloser
          obtain ⟨hbelow, more, hrows, hextended⟩ := h.closest target p hp
          refine ⟨Nat.lt_succ_of_lt hbelow, more, ?_, hextended⟩
          rw [Function.update_of_ne (Nat.ne_of_lt hbelow), if_neg hcloser]
          exact hrows
      · dsimp only at hp ⊢
        omega

omit [DecidableEq S] in
/-- The other steps: rows are appended to the path, which is extended then, or no
object that is noted changes. -/
theorem grown_other {x y : Search S} {m m' : Rows} {n : PathNotes} (h : Grown ((x, m), n))
    (hchanges : m.Changes opts x m')
    (hnote : ∀ i, x.point = .random i → ¬ i < opts.randomSimNum)
    (hcount : x.pathCount ≤ y.pathCount) (hpath : ∀ p, y.path = some p → p < y.pathCount)
    (hclosest : y.closestPath = x.closestPath) :
    Grown ((y, m'), n.step opts x a.toAnswer m') := by
  cases hchanges with
  | note hpoint hlt => exact absurd hlt (hnote _ hpoint)
  | @extend path data rows hx hpoint hne hrows hpaths =>
      rw [PathNotes.step_extend hx hpoint]
      have hbelow := h.path path hx
      refine ⟨hpath, fun target p hp => ?_, fun p hp => ?_⟩
      · dsimp only at hp ⊢
        rw [hclosest] at hp
        rw [hpaths]
        obtain ⟨hlt, more, hold, hextended⟩ := h.closest target p hp
        refine ⟨hlt.trans_le hcount, ?_⟩
        by_cases heq : p = path
        · subst heq
          refine ⟨more ++ rows, ?_, ?_⟩
          · rw [Function.update_self, hrows, hold, List.append_assoc]
          · rw [Function.update_self]
            simp [hne]
        · refine ⟨more, ?_, ?_⟩
          · rw [Function.update_of_ne heq]
            exact hold
          · rw [Function.update_of_ne heq]
            exact hextended
      · dsimp only at hbelow hp ⊢
        rw [Function.update_of_ne (by omega)]
        exact h.fresh p (hcount.trans hp)
  | other _ hiterate hrestart hpaths =>
      rw [PathNotes.step_other hnote hiterate hrestart]
      refine ⟨hpath, fun target p hp => ?_, fun p hp => h.fresh p (hcount.trans hp)⟩
      dsimp only at hp ⊢
      rw [hclosest] at hp
      obtain ⟨hlt, more, hold, hextended⟩ := h.closest target p hp
      refine ⟨hlt.trans_le hcount, more, ?_, hextended⟩
      rw [hpaths p (Nat.ne_of_lt hlt)]
      exact hold

theorem grown_step (h : Grown s)
    (ht : Search.stepNoted d opts enableObsPadding firstAssign s a = some (t, events)) :
    Grown t := by
  obtain ⟨⟨⟨y, m'⟩, events'⟩, hrows, heq⟩ := Option.map_eq_some_iff.mp ht
  cases heq
  obtain ⟨⟨y', events''⟩, hstep, hrows⟩ := Option.bind_eq_some_iff.mp hrows
  obtain ⟨m'', hm, heq⟩ := Option.map_eq_some_iff.mp hrows
  cases heq
  obtain ⟨⟨x, m⟩, n⟩ := s
  have hchanges := Rows.changes_of_step hm
  cases Search.pathMoves_of_step hstep with
  | note hpoint hlt hcount hpath hclosest =>
      exact grown_note h hchanges hpoint hlt hcount hpath hclosest
  | new hnote hcount hpath hclosest =>
      refine grown_other h hchanges hnote (by omega) (fun p hp => ?_) hclosest
      rw [hpath] at hp
      cases hp
      omega
  | keep hnote hcount hpath hclosest =>
      refine grown_other h hchanges hnote hcount.ge (fun p hp => ?_) hclosest
      rw [hcount]
      rcases hpath p hp with hp | ⟨target, hp⟩
      · exact h.path p hp
      · exact (h.closest target p hp).1

/-- **Closest paths.** In a run of `step_coverage`, the closest path of every
target that is taken up has the rows that were simulated when it was noted, if
and only if the exploration has started no step from that path before. -/
theorem stepCoverage_keepsRows_iff {printed : Nat → List Char} {session : Session S}
    {targets : List Nat} {ports : CTDataMem} {dataMem : List Line}
    (answers : List (DataAnswer S)) :
    ObservedSteps (Search.stepNoted d opts enableObsPadding firstAssign)
        (fun s _ => KeepsRows firstAssign s)
        ((Search.start d opts printed session targets, Rows.start ports dataMem), .start) answers ↔
      ObservedSteps (Search.stepNoted d opts enableObsPadding firstAssign)
        (fun s _ => NotExtended firstAssign s)
        ((Search.start d opts printed session targets, Rows.start ports dataMem), .start)
        answers :=
  observedSteps_iff Grown (V := fun _ => True) (grown_start _) (fun _ _ => trivial)
    (fun _ _ hs _ => hs.keepsRows_iff) fun _ _ _ _ hs _ _ ht => grown_step hs ht

end Runs

/-! ## A path that was explored from -/

def closestStart : (Search Bool × Rows) × PathNotes := (resumeStart, .start)

/-- The loop over the targets is at its head. -/
def Search.picks {S : Type} (x : Search S) : Bool :=
  match x.point with
  | .pick => true
  | _ => false

theorem Search.point_of_picks {S : Type} {x : Search S} (h : x.picks = true) : x.point = .pick := by
  unfold picks at h
  split at h
  · assumption
  · cases h

/-- The second target is taken up with the path of the first, which has two rows
more than were simulated when it was noted. -/
theorem closest_not_kept :
    ¬ ObservedSteps (Search.stepNoted nestedDesign resumeOptions true id)
      (fun s _ => KeepsRows id s) closestStart (resumeAnswers ++ [resumeAnswer]) := by
  have hrun : (observe (Search.stepNoted nestedDesign resumeOptions true id) closestStart
      resumeAnswers).map (fun r =>
        (r.1.1.1.picks,
          r.1.1.1.session.targetList, r.1.1.1.isCovered id 3, r.1.1.1.closestPath 3,
          (r.1.1.2.pathData 0).inputVector.length, (r.1.2.rows 3).length)) =
      some (true, [3], false, some 0, 4, 2) := by decide +kernel
  obtain ⟨⟨s, events⟩, hs, heq⟩ := Option.map_eq_some_iff.mp hrun
  simp only [Prod.mk.injEq] at heq
  obtain ⟨hpicks, htargets, hcovered, hclosest, hlength, hnoted⟩ := heq
  intro h
  have hkeeps := h.of_observe hs
  have hrows := hkeeps (Search.point_of_picks hpicks) 3 0 (by rw [htargets]; rfl) hcovered hclosest
  rw [hrows, hnoted] at hlength
  cases hlength

end Conquest
