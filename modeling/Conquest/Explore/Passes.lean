import Conquest.Explore.Targets

/-!
# Passes — the outer loop of the exploration

Each pass of the loop over the targets is to end with the target in front taken
off the list: it is covered, or its limit is reached, as the clock of the path
grows in every iteration and the path starts anew when it is too long. A pass
also ends when `find_next_cfg` comes back without a path.
-/

namespace Conquest

open Bv Run

variable {S : Type} [DecidableEq S] {d : Design S} {opts : Options} {firstAssign : Nat → Nat}

namespace Search

variable {x y : Search S} {a : Answer S} {events : List Event}

/-! ## The end of a pass -/

/-- A step to the head of the loop takes the target in front off the list. -/
def RemovesFront (d : Design S) (opts : Options) (firstAssign : Nat → Nat) (x : Search S)
    (a : Answer S) : Prop :=
  ∀ y events, x.step d opts firstAssign a = some (y, events) → y.point = .pick →
    (∀ i, x.point ≠ .random i) →
      x.session.targetList ≠ [] ∧ y.session.targetList.Sublist x.session.targetList.tail

/-- The condition on a step: `find_next_cfg` does not come back empty-handed. -/
def FindsNext (d : Design S) (x : Search S) (a : Answer S) : Prop :=
  ∀ target initClk path session, x.point = .search target initClk → x.path = some path →
    x.session.tryCandidates d a.check
      (a.rank (x.session.branches d (initClk + 1) (x.clk path))) ≠ some (none, session)

theorem ne_nil_of_head? {targetList : List Nat} {target : Nat}
    (h : targetList.head? = some target) : targetList ≠ [] := by
  rintro rfl
  cases h

theorem removesFront_iff {targets : List Nat} (hx : Tracked firstAssign targets x)
    (a : Answer S) : RemovesFront d opts firstAssign x a ↔ FindsNext d x a := by
  constructor
  · intro hremoves target initClk path session hpoint hpath htry
    have hstep : x.step d opts firstAssign a =
        some ({ x with session := session, path := none, point := .pick }, []) := by
      simp only [step, hpoint, hpath, Option.bind_some, htry]
    have hfront := hx.front target (by rw [hpoint]; rfl)
    have hrandom : ∀ i, x.point ≠ .random i := by
      intro i hi
      rw [hpoint] at hi
      cases hi
    obtain ⟨-, hsub⟩ := hremoves _ _ hstep rfl hrandom
    obtain ⟨sigs, context, rfl⟩ := Session.tryCandidates_eq htry
    have hlength := hsub.length_le
    have hpos := List.length_pos_iff.mpr (ne_nil_of_head? hfront)
    rw [List.length_tail] at hlength
    dsimp only at hlength
    omega
  · intro hfinds y events hstep hpick hrandom
    cases shifts_of_step hstep with
    | keep hgive hmark hgoes =>
        cases hgoes with
        | random hpoint => exact absurd hpoint (hrandom _)
        | finish _ _ hy => cases hpick.symm.trans hy
        | enter _ _ hy =>
            rw [hpick] at hy
            cases hy
        | stay _ hy =>
            rw [hpick] at hy
            cases hy
    | @reject target initClk hpoint hmark =>
        simp only [step, hpoint] at hstep
        obtain ⟨path, hpath, hstep⟩ := Option.bind_eq_some_iff.mp hstep
        obtain ⟨⟨found, session⟩, htry, hstep⟩ := Option.bind_eq_some_iff.mp hstep
        cases found with
        | none => exact absurd htry (hfinds target initClk path session hpoint hpath)
        | some found =>
            obtain ⟨z, -, heq⟩ := Option.map_eq_some_iff.mp hstep
            cases heq
            cases hpick
    | skip hpoint hevents htargets hcovered hy =>
        subst hy
        rw [htargets]
        exact ⟨List.cons_ne_nil _ _, List.Sublist.refl _⟩
    | @remove w hgive hmark hcovered hy =>
        subst hy
        rcases hcovered with ⟨i, hi⟩ | ⟨target, htarget, hcovered⟩
        · exact absurd hi (hrandom i)
        · have hfront := hx.front target htarget
          obtain ⟨targets', htargets⟩ := List.head?_eq_some_iff.mp hfront
          refine ⟨ne_nil_of_head? hfront, ?_⟩
          change (w.session.targetList.filter _).Sublist _
          rw [hmark.targetList, htargets, List.filter_cons_of_neg (by simp [hcovered]),
            List.tail_cons]
          exact List.filter_sublist
    | @giveUp target w hgive hmark hy =>
        subst hy
        refine ⟨ne_nil_of_head? (hx.front target (target_of_givesUp hgive)), ?_⟩
        change w.session.targetList.tail.Sublist _
        rw [hmark.targetList]

/-- With a solver whose answers are right, there only has to be a candidate. -/
theorem findsNext_iff_rank {solver : Solver} (hsolver : a.check = solver.check)
    (hreg : ∀ r, .record r ∈ x.session.stack → r.obj.writesReg d.decl = true) :
    FindsNext d x a ↔ ∀ target initClk path, x.point = .search target initClk →
      x.path = some path → a.rank (x.session.branches d (initClk + 1) (x.clk path)) ≠ [] := by
  constructor
  · intro hfinds target initClk path hpoint hpath hnil
    refine hfinds target initClk path x.session hpoint hpath ?_
    rw [hnil]
    rfl
  · intro hrank target initClk path session hpoint hpath htry
    obtain ⟨cand, cands, hcons⟩ := List.exists_cons_of_ne_nil (hrank target initClk path hpoint hpath)
    have hbr : cand.br.writesReg d.decl = true :=
      (Session.mem_branches (Answer.mem_rank (hcons ▸ List.mem_cons_self))).2.2
    rw [hcons, hsolver] at htry
    obtain ⟨⟨model?, z⟩, hcand, htry⟩ := Option.bind_eq_some_iff.mp htry
    obtain ⟨-, -, -, hsome⟩ := Session.tryCandidate_spec hreg hbr hcand
    obtain ⟨model, rfl⟩ := Option.isSome_iff_exists.mp hsome
    cases htry

/-! ## How many passes -/

/-- The state before a pass. -/
def startsPass (x : Search S) : Bool :=
  match x.point with
  | .pick => !x.session.targetList.isEmpty
  | _ => false

/-- The passes to come. -/
def passesLeft (x : Search S) : Nat :=
  match x.point with
  | .random _ => x.session.targetList.length
  | .pick => x.session.targetList.length
  | .done => 0
  | _ => x.session.targetList.length - 1

omit [DecidableEq S] in
/-- Points within a pass. -/
theorem passesLeft_of_target {target : Nat} (h : x.point.target? = some target) :
    x.startsPass = false ∧ x.passesLeft = x.session.targetList.length - 1 := by
  unfold startsPass passesLeft
  cases hpoint : x.point with
  | random i => rw [hpoint] at h; cases h
  | pick => rw [hpoint] at h; cases h
  | done => rw [hpoint] at h; cases h
  | _ => exact ⟨rfl, rfl⟩

omit [DecidableEq S] in
theorem passesLeft_of_pick (h : x.point = .pick) :
    x.startsPass = !x.session.targetList.isEmpty ∧
      x.passesLeft = x.session.targetList.length := by
  rw [startsPass, passesLeft, h]
  exact ⟨rfl, rfl⟩

/-- The list at the end of a pass. -/
theorem length_le_of_pick {targets : List Nat} (hx : Tracked firstAssign targets x)
    (hfinds : FindsNext d x a) (h : x.step d opts firstAssign a = some (y, events))
    (hpick : y.point = .pick) {target : Nat} (htarget : x.point.target? = some target) :
    y.session.targetList.length + 1 ≤ x.session.targetList.length := by
  have hrandom : ∀ i, x.point ≠ .random i := by
    intro i hi
    rw [hi] at htarget
    cases htarget
  obtain ⟨hne, hsub⟩ := (removesFront_iff hx a).mpr hfinds y events h hpick hrandom
  have hlength := hsub.length_le
  have hpos := List.length_pos_iff.mpr hne
  rw [List.length_tail] at hlength
  omega

theorem passesLeft_step {targets : List Nat} (hx : Tracked firstAssign targets x)
    (hfinds : FindsNext d x a) (h : x.step d opts firstAssign a = some (y, events)) :
    x.startsPass.toNat + y.passesLeft ≤ x.passesLeft := by
  have hends : ∀ {target : Nat}, x.point.target? = some target → y.point = .pick →
      x.startsPass.toNat + y.passesLeft ≤ x.passesLeft := by
    intro target htarget hpick
    have hlength := length_le_of_pick hx hfinds h hpick htarget
    obtain ⟨hstarts, hleft⟩ := passesLeft_of_target htarget
    rw [hstarts, hleft, (passesLeft_of_pick hpick).2, Bool.toNat_false]
    omega
  cases shifts_of_step h with
  | keep hgive hmark hgoes =>
      cases hgoes with
      | random hi _ hnext =>
          rw [startsPass, passesLeft, passesLeft, hi, hnext, hmark.targetList]
          exact (Nat.zero_add _).le
      | finish hpoint htargets hdone =>
          rw [startsPass, passesLeft, hpoint, hdone, htargets]
          exact Nat.zero_le _
      | enter hpoint hfront htarget =>
          obtain ⟨targets', htargets⟩ := List.head?_eq_some_iff.mp hfront
          obtain ⟨hstarts, hleft⟩ := passesLeft_of_pick hpoint
          rw [hstarts, hleft, (passesLeft_of_target htarget).2, hmark.targetList, htargets,
            List.length_cons]
          exact (Nat.add_comm 1 _).le
      | stay hpoint htarget =>
          obtain ⟨hstarts, hleft⟩ := passesLeft_of_target hpoint
          rw [hstarts, hleft, (passesLeft_of_target htarget).2, hmark.targetList]
          exact (Nat.zero_add _).le
  | reject hpoint hmark hpick => exact hends (by rw [hpoint]; rfl) hpick
  | skip hpoint hevents htargets hcovered hy =>
      subst hy
      obtain ⟨hstarts, hleft⟩ := passesLeft_of_pick hpoint
      rw [hstarts, hleft, (passesLeft_of_pick (x := { x with
        session := { x.session with simNum := 0, targetList := _ }
        coveredTargetList := _ }) hpoint).2, htargets, List.length_cons]
      exact (Nat.add_comm 1 _).le
  | @remove w hgive hmark hcovered hy =>
      have hpick : y.point = .pick := by rw [hy]
      have hlist : y.session.targetList =
          x.session.targetList.filter fun target => !w.isCovered firstAssign target := by
        rw [hy, ← hmark.targetList]
        rfl
      rcases hcovered with ⟨i, hi⟩ | ⟨target, htarget, -⟩
      · rw [(passesLeft_of_pick hpick).2, hlist, startsPass, passesLeft, hi]
        exact (Nat.zero_add _).le.trans (List.length_filter_le _ _)
      · exact hends htarget hpick
  | giveUp hgive hmark hy => exact hends (target_of_givesUp hgive) (by rw [hy])

/-! ## How many steps -/

/-- `sim_num` within its limit. -/
def SimNumLe (opts : Options) (x : Search S) : Prop :=
  match x.point with
  | .restart _ => x.session.simNum ≤ opts.totalLimit + 1
  | .iterate _ | .search _ _ | .confirm _ _ | .again _ _ => x.session.simNum ≤ opts.totalLimit
  | _ => True

/-- Enough steps until the path starts anew or the pass ends. -/
def roundSteps (opts : Options) : Nat := 4 * opts.unroll + 10

/-- The steps until the path is too long: four for each iteration, and the clock
of the path grows in each. -/
def stepsToUnroll (opts : Options) (x : Search S) : Nat :=
  match x.point with
  | .iterate _ => 4 * (opts.unroll + 1 - (x.path.elim 0 x.clk)) + 4
  | .search _ initClk => 4 * (opts.unroll + 1 - initClk) + 3
  | .confirm _ clock => 4 * (opts.unroll + 2 - clock) + 2
  | .again _ clock => 4 * (opts.unroll + 2 - clock) + 1
  | .restart _ => roundSteps opts
  | _ => 0

def stepsInPass (opts : Options) (x : Search S) : Nat :=
  (opts.totalLimit + 1 - x.session.simNum) * roundSteps opts + x.stepsToUnroll opts

/-- Enough steps for a pass. -/
def passSteps (opts : Options) : Nat := (opts.totalLimit + 2) * roundSteps opts + 1

/-- The steps to come. -/
def stepsLeft (opts : Options) (x : Search S) : Nat :=
  match x.point with
  | .random i => opts.randomSimNum - i + x.session.targetList.length * passSteps opts + 2
  | .pick => x.session.targetList.length * passSteps opts + 1
  | .done => 0
  | _ => (x.session.targetList.length - 1) * passSteps opts + x.stepsInPass opts + 1

omit [DecidableEq S] in
theorem stepsLeft_of_target {target : Nat} (h : x.point.target? = some target) :
    x.stepsLeft opts =
      (x.session.targetList.length - 1) * passSteps opts + x.stepsInPass opts + 1 := by
  unfold stepsLeft
  cases hpoint : x.point with
  | random i => rw [hpoint] at h; cases h
  | pick => rw [hpoint] at h; cases h
  | done => rw [hpoint] at h; cases h
  | _ => rfl

omit [DecidableEq S] in
theorem stepsLeft_of_pick (h : x.point = .pick) :
    x.stepsLeft opts = x.session.targetList.length * passSteps opts + 1 := by
  rw [stepsLeft, h]

omit [DecidableEq S] in
theorem stepsInPass_pos {target : Nat} (h : x.point.target? = some target) :
    0 < x.stepsInPass opts := by
  have hpos : 0 < x.stepsToUnroll opts := by
    unfold stepsToUnroll roundSteps
    cases hpoint : x.point with
    | random i => rw [hpoint] at h; cases h
    | pick => rw [hpoint] at h; cases h
    | done => rw [hpoint] at h; cases h
    | _ => dsimp only; omega
  exact Nat.lt_add_left _ hpos

omit [DecidableEq S] in
theorem stepsInPass_le (hsim : y.session.simNum = x.session.simNum)
    (h : y.stepsToUnroll opts + 1 ≤ x.stepsToUnroll opts) :
    y.stepsInPass opts + 1 ≤ x.stepsInPass opts := by
  unfold stepsInPass
  rw [hsim]
  omega

omit [DecidableEq S] in
theorem simNum_errorCheck (h : x.errorCheck d opts a = some y) :
    y.session.simNum = x.session.simNum := by
  obtain ⟨context, rfl⟩ := errorCheck_eq h
  rfl

omit [DecidableEq S] in
theorem simNum_accept {cand : Candidate S} (h : x.accept d opts cand = some y) :
    y.session.simNum = x.session.simNum := by
  obtain rfl := accept_eq h
  rfl

omit [DecidableEq S] in
/-- The pass goes on. -/
theorem checkTarget_iterate {target t : Nat}
    (h : (x.checkTarget opts firstAssign target).point.target? = some t) :
    x.session.simNum < opts.totalLimit ∧
      x.checkTarget opts firstAssign target = { x with point := .iterate target } := by
  unfold checkTarget at h ⊢
  split
  · rename_i hlimit
    rw [if_pos hlimit] at h
    cases h
  · rename_i hlimit
    rw [if_neg hlimit] at h
    split
    · rename_i hcovered
      rw [if_pos hcovered] at h
      cases h
    · exact ⟨Nat.lt_of_not_le hlimit, rfl⟩

theorem stepsInPass_again {target clock : Nat} (hpoint : x.point = .again target clock)
    (hsim : SimNumLe opts x) (h : x.step d opts firstAssign a = some (y, events)) {t : Nat}
    (ht : y.point.target? = some t) :
    SimNumLe opts y ∧ y.stepsInPass opts + 1 ≤ x.stepsInPass opts := by
  rw [SimNumLe, hpoint] at hsim
  dsimp only at hsim
  obtain ⟨w, hsimulate, hlong⟩ := step_again hpoint h
  have hsimNum := simNum_simulate hsimulate
  rcases hlong with ⟨-, -, rfl⟩ | ⟨-, rfl⟩ | ⟨hshort, rfl⟩
  · cases ht
  · refine ⟨?_, ?_⟩
    · change w.session.simNum + 1 ≤ _
      omega
    · -- one round less, and all of its steps
      have hround : opts.totalLimit + 1 - x.session.simNum =
          opts.totalLimit - x.session.simNum + 1 := by omega
      have hnext : opts.totalLimit + 1 - (w.session.simNum + 1) =
          opts.totalLimit - x.session.simNum := by omega
      change (opts.totalLimit + 1 - (w.session.simNum + 1)) * roundSteps opts + roundSteps opts + 1 ≤ _
      rw [stepsInPass, stepsToUnroll, hpoint, hnext, hround, Nat.add_mul, Nat.one_mul]
      dsimp only
      omega
  · obtain ⟨hlt, heq⟩ := checkTarget_iterate ht
    rw [heq]
    refine ⟨hlt.le, stepsInPass_le hsimNum ?_⟩
    have hclk : ((w.newPath clock).path.elim 0 (w.newPath clock).clk) = clock :=
      Function.update_self _ _ _
    change 4 * (opts.unroll + 1 - (w.newPath clock).path.elim 0 (w.newPath clock).clk) + 4 + 1 ≤ _
    rw [stepsToUnroll, hpoint, hclk]
    dsimp only
    omega

/-- Steps within a pass, to another point of it. -/
theorem stepsInPass_step (hsim : SimNumLe opts x)
    (h : x.step d opts firstAssign a = some (y, events)) {target : Nat}
    (htarget : x.point.target? = some target) {t : Nat} (ht : y.point.target? = some t) :
    SimNumLe opts y ∧ y.stepsInPass opts + 1 ≤ x.stepsInPass opts := by
  have hin : ∀ p, x.point = p → p.target? ≠ none := by
    rintro p rfl
    rw [htarget]
    nofun
  cases moves_of_step h with
  | random hpoint => exact absurd rfl (hin _ hpoint)
  | explore hpoint => exact absurd rfl (hin _ hpoint)
  | finish hpoint => exact absurd rfl (hin _ hpoint)
  | skip hpoint => exact absurd rfl (hin _ hpoint)
  | resume hpoint => exact absurd rfl (hin _ hpoint)
  | stay hpoint => exact absurd rfl (hin _ hpoint)
  | reject hpoint => cases ht
  | cover hpoint => exact stepsInPass_again hpoint hsim h ht
  | clear hpoint => exact stepsInPass_again hpoint hsim h ht
  | again hpoint => exact stepsInPass_again hpoint hsim h ht
  | iterate hpoint hpath hcheck hexplore =>
      rw [SimNumLe, hpoint] at hsim
      have hsimNum := (simNum_explore hexplore).trans (simNum_errorCheck hcheck)
      refine ⟨hsimNum.le.trans hsim, stepsInPass_le hsimNum ?_⟩
      rw [stepsToUnroll, stepsToUnroll, hpoint, hpath]
      exact le_rfl
  | @accept target initClk path cand model session z hpoint hpath htry haccept =>
      rw [SimNumLe, hpoint] at hsim
      have hclock := Session.clock_of_mem_branches
        (Answer.mem_rank (Session.tryCandidates_mem htry))
      obtain ⟨sigs, context, rfl⟩ := Session.tryCandidates_eq htry
      have hsimNum := simNum_accept haccept
      refine ⟨hsimNum.le.trans hsim, stepsInPass_le hsimNum ?_⟩
      rw [stepsToUnroll, stepsToUnroll, hpoint]
      dsimp only
      omega
  | confirm hpoint hsimulate =>
      rw [SimNumLe, hpoint] at hsim
      have hsimNum := simNum_simulate hsimulate
      refine ⟨hsimNum.le.trans hsim, stepsInPass_le hsimNum ?_⟩
      rw [stepsToUnroll, stepsToUnroll, hpoint]
  | @restart target path z _ hpoint hpath hexplore =>
      have hsimNum := simNum_explore hexplore
      obtain ⟨hlt, heq⟩ := checkTarget_iterate ht
      rw [heq]
      refine ⟨hlt.le, stepsInPass_le hsimNum ?_⟩
      change 4 * (opts.unroll + 1 - z.path.elim 0 z.clk) + 4 + 1 ≤ _
      rw [stepsToUnroll, hpoint, roundSteps]
      dsimp only
      omega

/-- A new pass starts with `sim_num` zero. -/
theorem stepsInPass_enter (hpoint : x.point = .pick)
    (h : x.step d opts firstAssign a = some (y, events)) {t : Nat}
    (ht : y.point.target? = some t) :
    SimNumLe opts y ∧ y.stepsInPass opts + 1 ≤ passSteps opts := by
  have hiterate : ∀ (z : Search S) (target : Nat), z.session.simNum = 0 →
      z.point = .iterate target → SimNumLe opts z ∧ z.stepsInPass opts + 1 ≤ passSteps opts := by
    intro z target hzero hz
    have hround : opts.totalLimit + 2 = opts.totalLimit + 1 + 1 := rfl
    refine ⟨?_, ?_⟩
    · rw [SimNumLe, hz]
      exact hzero.le.trans (Nat.zero_le _)
    · rw [stepsInPass, stepsToUnroll, hz, hzero, passSteps, hround, Nat.add_mul (_ + 1),
        Nat.one_mul, Nat.sub_zero]
      dsimp only
      unfold roundSteps
      omega
  cases moves_of_step h with
  | random hrandom => cases hpoint.symm.trans hrandom
  | explore hrandom => cases hpoint.symm.trans hrandom
  | finish => cases ht
  | skip => cases ht
  | resume _ _ _ _ hsim => exact hiterate _ _ (simNum_simulate hsim) rfl
  | stay => exact hiterate _ _ rfl rfl
  | iterate hin => cases hpoint.symm.trans hin
  | reject hin => cases hpoint.symm.trans hin
  | accept hin => cases hpoint.symm.trans hin
  | confirm hin => cases hpoint.symm.trans hin
  | cover hin => cases hpoint.symm.trans hin
  | clear hin => cases hpoint.symm.trans hin
  | again hin => cases hpoint.symm.trans hin
  | restart hin => cases hpoint.symm.trans hin

/-- Every step is one of those to come. -/
theorem stepsLeft_step {targets : List Nat} (hx : Tracked firstAssign targets x)
    (hsim : SimNumLe opts x) (hfinds : FindsNext d x a)
    (h : x.step d opts firstAssign a = some (y, events)) :
    SimNumLe opts y ∧ 1 + y.stepsLeft opts ≤ x.stepsLeft opts := by
  have hends : ∀ {target : Nat}, x.point.target? = some target → y.point = .pick →
      SimNumLe opts y ∧ 1 + y.stepsLeft opts ≤ x.stepsLeft opts := by
    intro target htarget hpick
    have hlength := length_le_of_pick hx hfinds h hpick htarget
    have hpos : 0 < x.stepsInPass opts := stepsInPass_pos htarget
    have hmul : y.session.targetList.length * passSteps opts ≤
        (x.session.targetList.length - 1) * passSteps opts := Nat.mul_le_mul_right _ (by omega)
    refine ⟨?_, ?_⟩
    · rw [SimNumLe, hpick]
      trivial
    · rw [stepsLeft_of_target htarget, stepsLeft_of_pick hpick]
      omega
  cases shifts_of_step h with
  | keep hgive hmark hgoes =>
      cases hgoes with
      | @random i hi hlt hnext =>
          refine ⟨?_, ?_⟩
          · rw [SimNumLe, hnext]
            trivial
          · rw [stepsLeft, stepsLeft, hi, hnext, hmark.targetList]
            dsimp only
            omega
      | finish hpoint htargets hdone =>
          refine ⟨?_, ?_⟩
          · rw [SimNumLe, hdone]
            trivial
          · rw [stepsLeft_of_pick hpoint, stepsLeft, hdone]
            exact Nat.le_add_left _ _
      | enter hpoint hfront htarget =>
          obtain ⟨targets', htargets⟩ := List.head?_eq_some_iff.mp hfront
          obtain ⟨hle, hsteps⟩ := stepsInPass_enter hpoint h htarget
          refine ⟨hle, ?_⟩
          rw [stepsLeft_of_pick hpoint, stepsLeft_of_target htarget, hmark.targetList, htargets,
            List.length_cons, Nat.add_sub_cancel, Nat.add_mul, Nat.one_mul]
          omega
      | stay hpoint htarget =>
          obtain ⟨hle, hsteps⟩ := stepsInPass_step hsim h hpoint htarget
          refine ⟨hle, ?_⟩
          rw [stepsLeft_of_target hpoint, stepsLeft_of_target htarget, hmark.targetList]
          omega
  | reject hpoint hmark hpick => exact hends (by rw [hpoint]; rfl) hpick
  | @skip target targets' hpoint hevents htargets hcovered hy =>
      have hpick : y.point = .pick := by rw [hy, ← hpoint]
      have hlist : y.session.targetList = targets' := by rw [hy]
      refine ⟨?_, ?_⟩
      · rw [SimNumLe, hpick]
        trivial
      · rw [stepsLeft_of_pick hpoint, stepsLeft_of_pick hpick, hlist, htargets, List.length_cons,
          Nat.add_mul, Nat.one_mul, passSteps]
        omega
  | @remove w hgive hmark hcovered hy =>
      have hpick : y.point = .pick := by rw [hy]
      have hlist : y.session.targetList =
          x.session.targetList.filter fun target => !w.isCovered firstAssign target := by
        rw [hy, ← hmark.targetList]
        rfl
      rcases hcovered with ⟨i, hi⟩ | ⟨target, htarget, -⟩
      · refine ⟨?_, ?_⟩
        · rw [SimNumLe, hpick]
          trivial
        · have hmul := Nat.mul_le_mul_right (passSteps opts) (List.length_filter_le
            (fun target => !w.isCovered firstAssign target) x.session.targetList)
          rw [stepsLeft_of_pick hpick, hlist, stepsLeft, hi]
          dsimp only
          omega
      · exact hends htarget hpick
  | giveUp hgive hmark hy => exact hends (target_of_givesUp hgive) (by rw [hy])

end Search

/-! ## The exploration ends -/

/-- Enough steps for the whole exploration. -/
def Options.explorationSteps (opts : Options) (targetCount : Nat) : Nat :=
  opts.randomSimNum + targetCount * Search.passSteps opts + 2

/-- **Every pass gets somewhere.** In a run of `step_coverage` every pass ends
with the target in front taken off the list exactly when `find_next_cfg` never
comes back empty-handed. There are then no more passes than targets, and the
exploration ends. -/
theorem stepCoverage_passes_iff {printed : Nat → List Char} {session : Session S}
    {targets : List Nat} (answers : List (Answer S)) :
    (ObservedSteps (Search.step d opts firstAssign)
        (Search.RemovesFront d opts firstAssign)
        (Search.start d opts printed session targets) answers ↔
      ObservedSteps (Search.step d opts firstAssign) (fun x a => x.FindsNext d a)
        (Search.start d opts printed session targets) answers) ∧
    (ObservedSteps (Search.step d opts firstAssign) (fun x a => x.FindsNext d a)
        (Search.start d opts printed session targets) answers →
      runCost (Search.step d opts firstAssign) (fun x => x.startsPass.toNat)
          (Search.start d opts printed session targets) answers ≤ targets.length ∧
        ∀ x events, observe (Search.step d opts firstAssign)
            (Search.start d opts printed session targets) answers = some (x, events) →
          answers.length ≤ opts.explorationSteps targets.length) := by
  have hstart : Search.Tracked firstAssign targets (Search.start d opts printed session targets) :=
    Search.tracked_start printed session targets
  refine ⟨?_, fun hfinds => ⟨?_, fun x events h => ?_⟩⟩
  · exact observedSteps_iff (Search.Tracked firstAssign targets) (V := fun _ => True) hstart
      (fun _ _ => trivial) (fun x a hx _ => Search.removesFront_iff hx a)
      fun x a y events hx _ _ h => hx.shift (Search.shifts_of_step h)
  · exact runCost_le (Search.Tracked firstAssign targets) hfinds hstart
      fun x a y events hx ha h =>
        ⟨hx.shift (Search.shifts_of_step h), Search.passesLeft_step hx ha h⟩
  · have hcost : runCost (Search.step d opts firstAssign) (fun _ => 1)
        (Search.start d opts printed session targets) answers ≤
          (Search.start d opts printed session targets).stepsLeft opts := by
      refine runCost_le (fun x => Search.Tracked firstAssign targets x ∧ Search.SimNumLe opts x)
        hfinds ⟨hstart, trivial⟩ fun x a y events hx ha h => ?_
      obtain ⟨hle, hsteps⟩ := Search.stepsLeft_step hx.1 hx.2 ha h
      exact ⟨⟨hx.1.shift (Search.shifts_of_step h), hle⟩, hsteps⟩
    rw [runCost_one h] at hcost
    exact hcost

/-! ## A ranking without ids -/

/-- The network ranks nothing, and the random path is the closest. -/
def unrankedAnswer : Answer Bool :=
  { elseAnswer with actionList := [], isCloser := fun _ => true }

def unrankedOptions : Options := { elseOptions with totalLimit := 10 }

def unrankedStart : Search Bool :=
  Search.start elseDesign unrankedOptions (fun _ => ['a']) elseSession [0]

deriving instance DecidableEq for Point

/-- The first pass ends with its target still in the list, and the second one is
one too many. -/
theorem unranked_stuck :
    ¬ ObservedSteps (Search.step elseDesign unrankedOptions fun _ => 0)
      (Search.RemovesFront elseDesign unrankedOptions fun _ => 0) unrankedStart
      (List.replicate 6 unrankedAnswer) ∧
    runCost (Search.step elseDesign unrankedOptions fun _ => 0) (fun x => x.startsPass.toNat)
      unrankedStart (List.replicate 6 unrankedAnswer) = 2 := by
  refine ⟨fun h => ?_, by decide +kernel⟩
  have hrun : ((observe (Search.step elseDesign unrankedOptions fun _ => 0) unrankedStart
      (List.replicate 4 unrankedAnswer)).bind fun r =>
        (r.1.step elseDesign unrankedOptions (fun _ => 0) unrankedAnswer).map fun s =>
          decide (r.1.session.targetList = [0] ∧ s.1.session.targetList = [0] ∧
            r.1.point = .search 0 1 ∧ s.1.point = .pick)) = some true := by decide +kernel
  obtain ⟨⟨x, events⟩, hx, hrun⟩ := Option.bind_eq_some_iff.mp hrun
  obtain ⟨⟨y, events'⟩, hy, heq⟩ := Option.map_eq_some_iff.mp hrun
  obtain ⟨hbefore, hafter, hsearch, hpick⟩ := of_decide_eq_true heq
  have hsplit : List.replicate 6 unrankedAnswer =
      List.replicate 4 unrankedAnswer ++ unrankedAnswer :: [unrankedAnswer] := rfl
  have hremoves := (hsplit ▸ h).of_observe hx
  have hnot : ∀ i, x.point ≠ .random i := by
    intro i
    rw [hsearch]
    intro hpoint
    cases hpoint
  obtain ⟨-, hsub⟩ := hremoves y events' hy hpick hnot
  rw [hbefore, hafter] at hsub
  cases List.sublist_nil.mp hsub

end Conquest
