import Conquest.Explore.StepCoverage
import Conquest.Lib.Aging

/-!
# Waiting — an alternative that stays available has its turn

`find_next_cfg` tries the candidates in the order of the distances of their
blocks, accepts the first one, and adds one to the distance of its block. While
an alternative stays available in a pass, the others can therefore only be
accepted until the distances of their blocks have passed that of its own.
-/

namespace Conquest

open Bv Run

/-! ## The first candidate is accepted -/

/-- What is asserted last does not make a context satisfiable. -/
def Check.Consistent (check : Check) : Prop :=
  ∀ ctx ctx', (check (ctx ++ ctx')).isSome → (check ctx).isSome

theorem Solver.consistent (solver : Solver) : Check.Consistent solver.check := by
  intro ctx ctx' h
  obtain ⟨ρ, hρ⟩ := Option.isSome_iff_exists.mp h
  rw [Option.isSome_iff_ne_none]
  intro hnone
  refine solver.complete hnone ρ fun t ht => ?_
  exact solver.sound hρ t (List.mem_append_left _ ht)

section First

variable {S : Type} [DecidableEq S] {d : Design S} {check : Check}

namespace Session

theorem dumpLoop_of_consistent (hcheck : Check.Consistent check) {ctx ts : List TermT}
    (h : (check (ctx ++ ts)).isSome) : dumpLoop check ctx ts = ctx ++ ts := by
  induction ts generalizing ctx with
  | nil => exact (List.append_nil ctx).symm
  | cons t ts ih =>
      rw [List.append_cons] at h
      have hstep : ¬ (check (ctx ++ [t])).isNone := by
        rw [Option.isNone_iff_eq_none, ← ne_eq, ← Option.isSome_iff_ne_none]
        exact hcheck _ _ h
      rw [dumpLoop, if_neg hstep, ih h, List.append_cons ctx t ts]

omit [DecidableEq S] in
theorem checkSatisfiability_of_consistent (hcheck : Check.Consistent check) (x : Session S) :
    x.checkSatisfiability d check =
      if (check (d.regInit x.sigs ++ x.terms)).isSome then
        some (x.setContext (d.regInit x.sigs ++ x.terms))
      else none := by
  unfold checkSatisfiability
  dsimp only
  rw [setContext_context]
  cases hsome : check (d.regInit x.sigs ++ x.terms) with
  | none => rfl
  | some ρ =>
      have hall : (check (d.regInit x.sigs ++ x.terms)).isSome := by rw [hsome]; rfl
      unfold dumpError
      rw [setContext_sigs, setContext_terms, setContext_setContext,
        dumpLoop_of_consistent hcheck hall]
      rfl

/-- After `check_satisfiability` the solver has a model. -/
theorem isSome_of_tryCandidate (hcheck : Check.Consistent check) {cand : Candidate S}
    {x y : Session S} {model? : Option Valuation}
    (h : x.tryCandidate d check cand = some (model?, y)) : model?.isSome := by
  unfold tryCandidate at h
  split at h
  · obtain ⟨z, -, h⟩ := Option.bind_eq_some_iff.mp h
    obtain ⟨w, hsat, heq⟩ := Option.map_eq_some_iff.mp h
    cases heq
    rw [checkSatisfiability_of_consistent hcheck, Option.ite_none_right_eq_some] at hsat
    obtain ⟨hsome, hw⟩ := hsat
    rw [← Option.some.inj hw]
    exact hsome
  · cases h

/-- The accepted candidate is the first one. -/
theorem head_of_tryCandidates (hcheck : Check.Consistent check) {cands : List (Candidate S)}
    {cand : Candidate S} {model : Valuation} {x y : Session S}
    (h : x.tryCandidates d check cands = some (some (cand, model), y)) :
    ∃ rest, cands = cand :: rest := by
  cases cands with
  | nil => cases h
  | cons first cands =>
      obtain ⟨⟨model?, z⟩, htry, h⟩ := Option.bind_eq_some_iff.mp h
      have hsome := isSome_of_tryCandidate hcheck htry
      cases model? with
      | none => cases hsome
      | some ρ =>
          cases h
          exact ⟨cands, rfl⟩

end Session

end First

/-! ## The order of the candidates -/

section Order

variable {S : Type}

/-- `compare_dist`. -/
def compareDist (distance : Nat → Nat) (a b : Candidate S) : Bool :=
  if distance a.br.block = distance b.br.block then a.cnst.clock < b.cnst.clock
  else distance a.br.block < distance b.br.block

/-- What `sort` leaves: nothing stands behind a candidate that it is less than. -/
def SortedBy (distance : Nat → Nat) (cands : List (Candidate S)) : Prop :=
  cands.Pairwise fun a b => compareDist distance b a = false

instance (distance : Nat → Nat) (cands : List (Candidate S)) :
    Decidable (SortedBy distance cands) :=
  inferInstanceAs (Decidable (cands.Pairwise _))

theorem SortedBy.le_of_mem {distance : Nat → Nat} {cand c : Candidate S}
    {rest : List (Candidate S)} (h : SortedBy distance (cand :: rest)) (hc : c ∈ cand :: rest) :
    distance cand.br.block ≤ distance c.br.block := by
  rcases List.mem_cons.mp hc with rfl | hc
  · exact le_rfl
  · have hless := (List.pairwise_cons.mp h).1 c hc
    unfold compareDist at hless
    split at hless
    · rename_i heq
      exact heq.ge
    · simpa using hless

/-- The block of a record. -/
def Design.blockOf (d : Design S) (id : Nat) : Option Nat :=
  (d.getAssign id).map SMTAssign.block

/-- The blocks in which arms begin. -/
def Design.armBlocks (d : Design S) : Finset Nat :=
  ((d.assignMap.filter SMTAssign.isBranch).map SMTAssign.block).toFinset

/-- The blocks of the alternatives that were accepted. -/
def acceptedBlocks (d : Design S) (events : List Event) : List Nat :=
  events.filterMap fun
    | .accept id _ => d.blockOf id
    | .read _ => none

theorem acceptedBlocks_append (d : Design S) (events events' : List Event) :
    acceptedBlocks d (events ++ events') = acceptedBlocks d events ++ acceptedBlocks d events' :=
  List.filterMap_append

end Order

/-! ## The distances in a run -/

section Distances

variable {S : Type} [DecidableEq S] (d : Design S) (opts : Options) (firstAssign : Nat → Nat)
  (adjacencyList : Nat → Nat → Nat)

namespace Search

omit [DecidableEq S] in
/-- `selected_branch->block->distance++`. -/
def raiseSelected (x : Search S) (distance : Nat → Nat) : Nat → Nat :=
  match x.selected.bind fun s => d.blockOf s.1 with
  | some block => Aging.raise distance block
  | none => distance

omit [DecidableEq S] in
/-- The distances after a step to `y`. A pass begins with those to its target, and
`find_next_cfg` ends with a greater one. -/
def distancesAfter (x y : Search S) (distance : Nat → Nat) : Nat → Nat :=
  match x.point, y.point with
  | .pick, .iterate target => adjacencyList target
  | .confirm _ _, _ => x.raiseSelected d distance
  | _, _ => distance

/-- `step_coverage` with the distances of the blocks. -/
def stepDistances (s : Search S × (Nat → Nat)) (a : Answer S) :
    Option ((Search S × (Nat → Nat)) × List Event) :=
  (s.1.step d opts firstAssign a).map fun (y, events) =>
    ((y, s.1.distancesAfter d adjacencyList y s.2), events)

omit [DecidableEq S] in
/-- The distances when the candidate that is accepted has been counted. -/
def pending (x : Search S) (distance : Nat → Nat) : Nat → Nat :=
  match x.point with
  | .confirm _ _ => x.raiseSelected d distance
  | _ => distance

omit [DecidableEq S] in
/-- The condition on a step within a pass: where `find_next_cfg` is called, the
candidates are sorted, and there is one whose arm begins in the block `b`. -/
def Offers (b : Nat) (s : Search S × (Nat → Nat)) (a : Answer S) : Prop :=
  match s.1.point, s.1.path with
  | .pick, _ => False
  | .search _ initClk, some path =>
      SortedBy s.2 (a.rank (s.1.session.branches d (initClk + 1) (s.1.clk path))) ∧
        ∃ cand ∈ a.rank (s.1.session.branches d (initClk + 1) (s.1.clk path)),
          cand.br.block = b
  | _, _ => True

end Search

end Distances

section Steps

variable {S : Type} [DecidableEq S] {d : Design S} {opts : Options} {firstAssign : Nat → Nat}
  {adjacencyList : Nat → Nat → Nat} {x y : Search S} {a : Answer S} {events : List Event}
  {distance distance' : Nat → Nat} {b : Nat}

namespace Search

theorem acceptedBlocks_simulate (h : x.simulate d a = some (y, events)) :
    acceptedBlocks d events = [] := by
  obtain ⟨session, -, heq⟩ := Option.map_eq_some_iff.mp h
  cases heq
  rfl

omit [DecidableEq S] in
theorem pending_of_ne (h : ∀ target clock, x.point ≠ .confirm target clock)
    (distance : Nat → Nat) : x.pending d distance = distance := by
  unfold pending
  split
  · rename_i hpoint
    exact absurd hpoint (h _ _)
  · rfl

omit [DecidableEq S] in
theorem blockOf_of_mem {id : Nat} {cand : Candidate S} (h : d.getAssign id = some cand.br) :
    d.blockOf cand.br.id = some cand.br.block := by
  rw [d.getAssign_id h, Design.blockOf, h]
  rfl

omit [DecidableEq S] in
theorem mem_armBlocks {id : Nat} {assign : SMTAssign S} (h : d.getAssign id = some assign)
    (hbranch : assign.isBranch = true) : assign.block ∈ d.armBlocks := by
  rw [Design.armBlocks, List.mem_toFinset]
  exact List.mem_map_of_mem (List.mem_filter.mpr ⟨List.mem_of_getElem? h, hbranch⟩)

omit [DecidableEq S] in
theorem Offers.not_pick (h : Offers d b (x, distance) a) : x.point ≠ .pick := by
  intro hpoint
  simp only [Offers, hpoint] at h

omit [DecidableEq S] in
/-- Steps between other points keep the distances. -/
theorem pending_kept (hpick : x.point ≠ .pick)
    (hx : ∀ target clock, x.point ≠ .confirm target clock)
    (hy : ∀ target clock, y.point ≠ .confirm target clock) :
    y.pending d (x.distancesAfter d adjacencyList y distance) = x.pending d distance := by
  rw [pending_of_ne hx, pending_of_ne hy]
  unfold distancesAfter
  split
  · rename_i hpoint _
    exact absurd hpoint hpick
  · rename_i hpoint
    exact absurd hpoint (hx _ _)
  · rfl

/-- What a step does to the distances: the block of an accepted alternative is one
with a least distance, and is counted. -/
theorem pending_step (hcheck : Check.Consistent a.check)
    (hoffers : Offers d b (x, distance) a)
    (h : stepDistances d opts firstAssign adjacencyList (x, distance) a =
      some ((y, distance'), events)) :
    (acceptedBlocks d events = [] ∧ y.pending d distance' = x.pending d distance) ∨
    ∃ k ∈ d.armBlocks, acceptedBlocks d events = [k] ∧
      x.pending d distance k ≤ x.pending d distance b ∧
      y.pending d distance' = Aging.raise (x.pending d distance) k := by
  obtain ⟨⟨z, events'⟩, hstep, heq⟩ := Option.map_eq_some_iff.mp h
  cases heq
  have hpick := hoffers.not_pick
  change x.step d opts firstAssign a = some (y, events) at hstep
  clear h
  cases moves_of_step hstep with
  | random hpoint _ hsim =>
      exact .inl ⟨acceptedBlocks_simulate hsim, pending_kept hpick (by simp [hpoint]) (by simp)⟩
  | explore hpoint => exact .inl ⟨rfl, pending_kept hpick (by simp [hpoint]) (by simp)⟩
  | finish hpoint => exact absurd hpoint hpick
  | skip hpoint => exact absurd hpoint hpick
  | resume hpoint => exact absurd hpoint hpick
  | stay hpoint => exact absurd hpoint hpick
  | iterate hpoint _ _ hsim =>
      exact .inl ⟨acceptedBlocks_simulate hsim, pending_kept hpick (by simp [hpoint]) (by simp)⟩
  | reject hpoint => exact .inl ⟨rfl, pending_kept hpick (by simp [hpoint]) (by simp)⟩
  | accept hpoint hpath htry haccept =>
      obtain ⟨rest, hrank⟩ := Session.head_of_tryCandidates hcheck htry
      have hmem := Answer.mem_rank (Session.tryCandidates_mem htry)
      obtain ⟨-, id, -, hget⟩ := Session.exists_of_mem_branches hmem
      have hblock := blockOf_of_mem hget
      refine .inr ⟨_, mem_armBlocks hget (Session.mem_branches hmem).2.1, ?_, ?_, ?_⟩
      · simp only [acceptedBlocks, List.filterMap_cons, hblock, List.filterMap_nil]
      · simp only [Offers, hpoint, hpath, hrank] at hoffers
        obtain ⟨hsorted, c, hc, rfl⟩ := hoffers
        rw [pending_of_ne (by simp [hpoint])]
        exact hsorted.le_of_mem hc
      · obtain rfl := accept_eq haccept
        simp only [pending, distancesAfter, raiseSelected, hpoint, Option.bind_some, hblock]
  | confirm hpoint hsim =>
      refine .inl ⟨acceptedBlocks_simulate hsim, ?_⟩
      simp only [pending, distancesAfter, hpoint]
  | cover hpoint hsim =>
      exact .inl ⟨acceptedBlocks_simulate hsim, pending_kept hpick (by simp [hpoint]) (by simp)⟩
  | clear hpoint hsim =>
      exact .inl ⟨acceptedBlocks_simulate hsim, pending_kept hpick (by simp [hpoint]) (by simp)⟩
  | again hpoint hsim =>
      refine .inl ⟨acceptedBlocks_simulate hsim, pending_kept hpick (by simp [hpoint]) ?_⟩
      intro target clock hy
      rcases point_checkTarget opts firstAssign _ _ with hz | hz <;> cases hz.symm.trans hy
  | restart hpoint hpath hsim =>
      refine .inl ⟨acceptedBlocks_simulate hsim, pending_kept hpick (by simp [hpoint]) ?_⟩
      intro target clock hy
      rcases point_checkTarget opts firstAssign _ _ with hz | hz <;> cases hz.symm.trans hy

/-- The acceptances of other blocks use up what their distances are below that of
`b`. -/
theorem slack_run {answers : List (Answer S)}
    (hcheck : ∀ a ∈ answers, Check.Consistent a.check)
    (hoffers : ObservedSteps (stepDistances d opts firstAssign adjacencyList) (Offers d b)
      (x, distance) answers)
    (hrun : observe (stepDistances d opts firstAssign adjacencyList) (x, distance) answers =
      some ((y, distance'), events)) :
    b ∈ acceptedBlocks d events ∨
      (acceptedBlocks d events).length + Aging.slack d.armBlocks (y.pending d distance') b ≤
        Aging.slack d.armBlocks (x.pending d distance) b := by
  induction answers generalizing x distance events with
  | nil =>
      cases hrun
      exact .inr (Nat.zero_add _).le
  | cons a answers ih =>
      obtain ⟨⟨z, distance₁⟩, es, es', hz, hy, rfl⟩ := observe_cons hrun
      have hrest := ih (fun c hc => hcheck c (List.mem_cons_of_mem a hc))
        (hoffers.2 _ _ hz) hy
      rw [acceptedBlocks_append, List.mem_append, List.length_append]
      rcases pending_step (hcheck a List.mem_cons_self) hoffers.1 hz with
        ⟨hnone, hpending⟩ | ⟨k, hk, hone, hle, hpending⟩
      · rw [hnone, ← hpending]
        simpa using hrest
      · rw [hone]
        by_cases hne : b = k
        · exact .inl (.inl (by rw [hne]; exact List.mem_singleton_self k))
        · have hslack := Aging.slack_raise hk hne hle
          rw [hpending] at hrest
          refine hrest.imp .inr fun hrest => ?_
          rw [List.length_singleton]
          omega

end Search

/-- **Every alternative has its turn.** Let a pass for a target begin, and let the
candidates, in all calls of `find_next_cfg` of the pass that follow, be sorted by
the distances and one of them begin in the block `b`. Then an arm of `b` is
accepted, or no more alternatives are accepted than the distances to the target
allow: for each block as many as its distance is below the one after that of `b`. -/
theorem stepCoverage_serves {z : Search S} {distance₀ : Nat → Nat} {a₀ : Answer S}
    {events₀ : List Event} (hpick : x.point = .pick)
    (hbegin : Search.stepDistances d opts firstAssign adjacencyList (x, distance) a₀ =
      some ((z, distance₀), events₀))
    {target : Nat} (hz : z.point = .iterate target) {answers : List (Answer S)}
    (hcheck : ∀ a ∈ answers, Check.Consistent a.check)
    (hoffers : ObservedSteps (Search.stepDistances d opts firstAssign adjacencyList)
      (Search.Offers d b) (z, distance₀) answers)
    (hrun : observe (Search.stepDistances d opts firstAssign adjacencyList) (z, distance₀)
      answers = some ((y, distance'), events)) :
    b ∈ acceptedBlocks d events ∨
      (acceptedBlocks d events).length ≤
        ∑ k ∈ d.armBlocks, (adjacencyList target b + 1 - adjacencyList target k) := by
  obtain ⟨⟨w, events'⟩, -, heq⟩ := Option.map_eq_some_iff.mp hbegin
  obtain ⟨⟨rfl, hdistance⟩, -⟩ : (w = z ∧ x.distancesAfter d adjacencyList w distance =
      distance₀) ∧ events' = events₀ := by
    simpa only [Prod.mk.injEq] using heq
  have hinitial : distance₀ = adjacencyList target := by
    rw [← hdistance]
    simp only [Search.distancesAfter, hpick, hz]
  refine (Search.slack_run hcheck hoffers hrun).imp_right fun hslack => ?_
  rw [Search.pending_of_ne (by simp [hz]) distance₀, hinitial] at hslack
  exact (Nat.le_add_right _ _).trans hslack

end Steps

/-! ## Two alternatives -/

section Turns

variable {S : Type} {d : Design S}

instance Search.Offers.decidable (b : Nat) (s : Search S × (Nat → Nat)) (a : Answer S) :
    Decidable (Search.Offers d b s a) := by
  unfold Search.Offers
  split <;> infer_instance

end Turns

/-- The else arm is taken at clock 3 and the other one at clock 4. -/
def turnAnswer : Answer Bool :=
  { elseAnswer with
    log := [.clock 1, .assign 2, .clock 2, .assign 2, .clock 3, .assign 2, .clock 4, .assign 0,
      .assign 1, .clock 5]
    actionList := [2, 0] }

def turnOptions : Options := { elseOptions with step := 2 }

/-- The block of the else arm is closer. -/
def turnDistances (_ block : Nat) : Nat := if block = 0 then 1 else 0

def Point.isPick : Point → Bool
  | .pick => true
  | _ => false

theorem Point.isPick_iff {p : Point} : p.isPick = true ↔ p = .pick := by
  cases p <;> simp [isPick]

def Point.iterates : Point → Option Nat
  | .iterate target => some target
  | _ => none

theorem Point.iterates_iff {p : Point} {target : Nat} :
    p.iterates = some target ↔ p = .iterate target := by
  cases p <;> simp [iterates]

def turnStep := Search.stepDistances elseDesign turnOptions (fun _ => 0) turnDistances

/-- The closer arm is accepted, and the other one waits. -/
theorem turn_serves :
    ∃ x z y events events₀ events', observe turnStep
        (Search.start elseDesign turnOptions (fun _ => ['a']) elseSession [0], fun _ => 0)
        (List.replicate 2 turnAnswer) = some (x, events) ∧
      turnStep x turnAnswer = some (z, events₀) ∧
      observe turnStep z (List.replicate 3 turnAnswer) = some (y, events') ∧
      acceptedBlocks elseDesign events' = [1] ∧ (acceptedBlocks elseDesign events').length ≤ 3 := by
  have hrun : ((observe turnStep
      (Search.start elseDesign turnOptions (fun _ => ['a']) elseSession [0], fun _ => 0)
      (List.replicate 2 turnAnswer)).bind fun r => (turnStep r.1 turnAnswer).bind fun s =>
        (observe turnStep s.1 (List.replicate 3 turnAnswer)).map fun t =>
          (r.1.1.point.isPick, s.1.1.point.iterates,
            decide (ObservedSteps turnStep (Search.Offers elseDesign 0) s.1
              (List.replicate 3 turnAnswer)), acceptedBlocks elseDesign t.2)) =
      some (true, some 0, true, [1]) := by
    decide +kernel
  obtain ⟨⟨x, events⟩, hx, hrun⟩ := Option.bind_eq_some_iff.mp hrun
  obtain ⟨⟨z, events₀⟩, hz, hrun⟩ := Option.bind_eq_some_iff.mp hrun
  obtain ⟨⟨y, events'⟩, hy, heq⟩ := Option.map_eq_some_iff.mp hrun
  simp only [Prod.mk.injEq, decide_eq_true_eq] at heq
  obtain ⟨hpick, hiterate, hoffers, haccepted⟩ := heq
  refine ⟨x, z, y, events, events₀, events', hx, hz, hy, haccepted, ?_⟩
  have hcheck : ∀ a ∈ List.replicate 3 turnAnswer, Check.Consistent a.check := by
    intro a ha ctx ctx' _
    rw [List.eq_of_mem_replicate ha]
    rfl
  refine (stepCoverage_serves (Point.isPick_iff.mp hpick) hz (Point.iterates_iff.mp hiterate)
    hcheck hoffers hy).resolve_left ?_
  rw [haccepted]
  decide

end Conquest
