import Conquest.Explore.Query

/-!
# Project — a clock replayed in part

Before it asserts an alternative, `find_next_cfg` restores the versions of its
clock and runs the records of the clock again, but only those of level-sensitive
processes and of the process of the branch. What the edge-triggered processes
that are left out assign without blocking is read by nobody before the next
marker, so the records that are replayed make the constraints they have on the
stack.
-/

namespace Conquest

open Bv Run

variable {S : Type}

/-! ## The records of a clock -/

/-- The records of one clock, in the order of the log. -/
def Session.recordsAt (n : Nat) (x : Session S) : List (Record S) :=
  x.records.filter fun r => r.clock = n

/-- Records of scalars, in which edge-triggered processes do not block and every
signal is assigned by one process. -/
structure Separate (d : Design S) (recs : List (Record S)) : Prop where
  scalar : ∀ r ∈ recs, r.obj.makesTerm = false
  nonBlocking : ∀ r ∈ recs, d.isEdgeTriggered r.obj.process = true →
    r.obj.assignType ≠ .blocking
  single : ∀ r ∈ recs, ∀ r' ∈ recs, ∀ s, r.obj.assigned = some s → r'.obj.assigned = some s →
    r.obj.process = r'.obj.process

section Separate

variable {d : Design S} {recs : List (Record S)}

/-- A signal that some record assigns which is left out. -/
def LeftOut (d : Design S) (process : Nat) (recs : List (Record S)) (s : S) : Prop :=
  ∃ r ∈ recs, d.keeps process r = false ∧ r.obj.assigned = some s

/-- The records that are replayed do not assign these signals. -/
theorem Separate.not_leftOut (h : Separate d recs) {process : Nat} {r : Record S} (hr : r ∈ recs)
    (hkeeps : d.keeps process r = true) {s : S} (hs : r.obj.assigned = some s) :
    ¬ LeftOut d process recs s := by
  rintro ⟨r', hr', hleft, hs'⟩
  have hprocess := h.single r hr r' hr' s hs hs'
  rw [Design.keeps, hprocess] at hkeeps
  rw [Design.keeps, hkeeps] at hleft
  cases hleft

/-- A record that is left out commits nothing. -/
theorem Separate.nonBlocking_of_left (h : Separate d recs) {process : Nat} {r : Record S}
    (hr : r ∈ recs) (hleft : d.keeps process r = false) : r.obj.assignType ≠ .blocking := by
  rw [Design.keeps, Bool.or_eq_false_iff, Bool.not_eq_false'] at hleft
  exact h.nonBlocking r hr hleft.1

variable [DecidableEq S] {st st' : SigState S}

/-- The replay of a part of such records. -/
theorem Separate.replay (h : Separate d recs) (process : Nat) (hmatches : Matches d.decl st st')
    (hb : st.RegsInBounds d.decl)
    (hmade : AllSteps (stackStep d.decl) (Made d) st (recs.map Constraint.record))
    (hext : SigState.Extends d.decl
      (exec (stackStep d.decl) st (recs.map Constraint.record)) st') :
    replayTerms d.decl st' ((recs.filter (d.keeps process)).map Record.obj) =
      (recs.filter (d.keeps process)).map Record.term := by
  have hkept : ∀ r ∈ recs, d.keeps process r = true →
      ∀ s, r.obj.assigned = some s → ¬ LeftOut d process recs s :=
    fun r hr hkeeps s hs => h.not_leftOut hr hkeeps hs
  have hleft : ∀ r ∈ recs, d.keeps process r = false →
      r.obj.assignType ≠ .blocking ∧
        ∀ s, r.obj.assigned = some s → LeftOut d process recs s :=
    fun r hr hleft => ⟨h.nonBlocking_of_left hr hleft, fun s hs => ⟨r, hr, hleft, hs⟩⟩
  exact ((hmatches.projects (LeftOut d process recs)).replay (d.keeps process) hb hmade h.scalar
    hkept hleft hext).1

end Separate

/-! ## The replay of a clock -/

section Replay

variable [DecidableEq S] {d : Design S} {st st' : SigState S}

omit [DecidableEq S] in
/-- Later states restore the same versions while they remember them. -/
theorem Matches.restore_of_extends {st₁ : SigState S} {n : Nat}
    (h : Matches d.decl st (st₁.restoreVersions d.decl n))
    (hext : SigState.Extends d.decl st₁ st')
    (hversion : ∀ s, (st'.core s).versionAtClock = (st₁.core s).versionAtClock) :
    Matches d.decl st (st'.restoreVersions d.decl n) := by
  refine ⟨fun s => ?_, fun s hs => ?_, ?_⟩
  · rw [← h.curr s, restore_core, restore_core]
    split
    · rfl
    · exact congrFun (hversion s) n
  · rw [← h.next s hs, restore_core, restore_core, if_neg (by simp [hs]), if_neg (by simp [hs])]
    exact congrFun (hversion s) n
  · refine ⟨fun s => ?_, fun s hs => ?_, h.terms.fresh.trans hext.fresh⟩
    · refine (h.terms.grown s).trans ?_
      rw [restore_core, restore_core]
      split <;> exact hext.grown s
    · rw [← h.terms.inputs s hs, restore_core, restore_core, if_pos hs, if_pos hs]
      exact hext.inputs s hs

/-- The records after a marker, run again in the versions of its clock. -/
theorem Separate.replay_stack {x y : Session S} {before rest : List (Constraint S)}
    {recs : List (Record S)} {n : Nat} (h : Separate d recs)
    (hstack : x.stack = before ++ .clk n :: (recs.map Constraint.record ++ rest))
    (hn : n ∉ (recs.map Constraint.record ++ rest).filterMap Constraint.marker?)
    (hb : st.RegsInBounds d.decl) (hmade : AllSteps (stackStep d.decl) (Made d) st x.stack)
    (hsigs : x.sigs = exec (stackStep d.decl) st x.stack) (hkept : Session.Kept d x y)
    (process : Nat) :
    replayTerms d.decl (y.sigs.restoreVersions d.decl n)
        ((recs.filter (d.keeps process)).map Record.obj) =
      (recs.filter (d.keeps process)).map Record.term := by
  have hmatches := (hsigs ▸ matches_restore hstack hn hmade).restore_of_extends hkept.sigs
    hkept.versionAtClock
  obtain ⟨hclock, hlater⟩ := made_clock hstack hmade
  refine h.replay process hmatches (regsInBounds_exec hb _) hclock ?_
  refine .trans ?_ (extends_restore _ _)
  refine .trans ?_ hkept.sigs
  rw [hsigs]
  exact hlater

/-- **A clock replayed in part.** After a simulation whose clock markers increase,
let edge-triggered processes not block in a clock and every signal be assigned by
one process. Whatever candidates were tried since, the records of that clock that
belong to level-sensitive processes or to one chosen process return, run again in
the restored versions, the terms they have on the stack. -/
theorem replay_recorded {x₀ x y : Session S} {log : List LogRecord}
    (hbuild : x₀.simulateBuildStack d log = some x)
    (hne : ∀ s, (x₀.sigs.core s).termStack ≠ [])
    (hmarkers : ((recorded x₀.simClk (.clock 0 :: log)).filterMap LogRecord.marker?).Pairwise
      (· < ·))
    {n : Nat} (hn : .clk n ∈ x.stack) (hseparate : Separate d (x.recordsAt n))
    (hkept : Session.Kept d x y) (process : Nat) :
    replayTerms d.decl (y.sigs.restoreVersions d.decl n)
        (((x.recordsAt n).filter (d.keeps process)).map Record.obj) =
      ((x.recordsAt n).filter (d.keeps process)).map Record.term := by
  obtain ⟨-, hscan⟩ := Session.scanned_of_simulate hbuild
  obtain ⟨hmade, hsigs⟩ := made_scanned hscan
  obtain ⟨_, hfirst⟩ := hscan.first
  obtain ⟨before, recs, after, hstack, hbefore, hrecs, hafter, hnot⟩ :=
    exists_clock hfirst (clocked_scanned hscan) (markers_scanned hscan ▸ hmarkers) hn
  have hat : x.recordsAt n = recs := by
    rw [Session.recordsAt, Session.records, hstack, List.filterMap_append, List.filterMap_cons,
      List.filterMap_append, filterMap_record?_map, List.filter_append]
    dsimp only [Constraint.record?]
    rw [List.filter_append, List.filter_eq_nil_iff.mpr, List.nil_append,
      List.filter_eq_self.mpr fun r hr => decide_eq_true (hrecs r hr),
      List.filter_eq_nil_iff.mpr, List.append_nil]
    · intro r hr
      have hlt : n < r.clock := hafter _ (mem_filterMap_record?.mp hr)
      simp [hlt.ne']
    · intro r hr
      have hlt : r.clock < n := hbefore _ (mem_filterMap_record?.mp hr)
      simp [hlt.ne]
  rw [hat] at hseparate ⊢
  exact hseparate.replay_stack hstack hnot (SigState.regsInBounds_clear hne) hmade hsigs hkept
    process

/-! ## The loop of find_next_cfg -/

theorem SMTAssign.side_eq_nil {decl : S → SigDecl} {a : SMTAssign S} (h : a.makesTerm = false)
    (st : SigState S) : (a.updateTerm decl st).side = [] := by
  cases htarget : a.target with
  | branch lval => simp only [SMTAssign.updateTerm, htarget]
  | assign isCommit lval =>
      cases lval with
      | array arr index => simp [SMTAssign.makesTerm, htarget] at h
      | signal sig index => exact (updateTerm_of_not_makesTerm decl htarget h st).2.1

/-- The loop asserts what the records that it replays return. -/
theorem Session.context_replay {target : Record S} {recs : List (Record S)}
    {after : List (Constraint S)} {x y : Session S}
    (hindex : ∀ r ∈ recs, r.index < target.index) (hmakes : ∀ r ∈ recs, r.obj.makesTerm = false)
    (h : x.replay d target (recs.map Constraint.record ++ .record target :: after) = some y) :
    y.context = x.context ++
      replayTerms d.decl x.sigs
        ((recs.filter (d.keeps target.obj.process)).map Record.obj) := by
  induction recs generalizing x with
  | nil =>
      rw [List.map_nil, List.nil_append, replay, if_pos rfl] at h
      obtain rfl := Option.some.inj h
      exact (List.append_nil _).symm
  | cons r recs ih =>
      obtain ⟨hlt, hindex⟩ := List.forall_mem_cons.mp hindex
      obtain ⟨hmake, hmakes⟩ := List.forall_mem_cons.mp hmakes
      rw [List.map_cons, List.cons_append, replay, if_neg hlt.ne] at h
      split at h
      · rename_i hreplayed
        rw [List.filter_cons_of_pos (p := d.keeps target.obj.process) hreplayed, List.map_cons,
          replayTerms, ih hindex hmakes h]
        simp [assertUpdate, SMTAssign.side_eq_nil hmake]
      · rename_i hreplayed
        rw [List.filter_cons_of_neg (p := d.keeps target.obj.process) hreplayed]
        exact ih hindex hmakes h

/-- For a candidate `find_next_cfg` asserts the recorded terms of the records of
its clock that come before it, as far as it replays them. -/
theorem Around.replay_context {x y z : Session S} {check : Check} {r : Record S}
    {before after : List (Constraint S)} {recs : List (Record S)}
    (h : Around x.stack r before recs after) (hb : st.RegsInBounds d.decl)
    (hmade : AllSteps (stackStep d.decl) (Made d) st x.stack)
    (hsigs : x.sigs = exec (stackStep d.decl) st x.stack) (hseparate : Separate d recs)
    (hkept : Session.Kept d x y)
    (hreplay : (y.fillPrior d check r.clock).replay d r
      (recs.map Constraint.record ++ .record r :: after) = some z) :
    z.context = (y.fillPrior d check r.clock).context ++
      (recs.filter (d.keeps r.obj.process)).map Record.term := by
  rw [Session.context_replay h.recs_index hseparate.scalar hreplay]
  congr 1
  exact hseparate.replay_stack h.stack_eq h.not_again hb hmade hsigs hkept r.obj.process

end Replay

/-! ## A flip-flop and a branch on its output -/

/-- `q <= a` at the clock, and `if (q)` in a process of its own that waits for
`q`. -/
def waitDesign : Design Bool :=
  { elseDesign with
    assignMap :=
      [{ id := 0, target := .assign false (.signal ⟨true, 0, 0, false⟩ none),
         rval := .leaf (.signal ⟨false, 0, 0, false⟩), process := 0, block := 0 },
       { id := 1, target := .branch (.leaf (.signal ⟨true, 0, 0, false⟩)),
         rval := .leaf (.number ⟨['1']⟩), process := 1, block := 1 }]
    isEdgeTriggered := fun process => process == 0
    branchNodes := [[1]]
    id_eq := by decide
    writesReg := by decide
    isBranch := by decide }

/-- A clock in which the branch is taken after `q` was written. -/
def waitLog : List LogRecord := [.clock 1, .assign 0, .assign 1, .clock 2]

theorem wait_built : (elseSession.simulateBuildStack waitDesign waitLog).isSome := by
  decide +kernel

def waitEnd : Session Bool := (elseSession.simulateBuildStack waitDesign waitLog).get wait_built

theorem wait_separate : Separate waitDesign (waitEnd.recordsAt 1) where
  scalar := by decide +kernel
  nonBlocking := by decide +kernel
  single := by decide +kernel

theorem wait_marker : .clk 1 ∈ waitEnd.stack := by
  have hmarkers : waitEnd.stack.filterMap Constraint.marker? = [0, 1] := by decide +kernel
  rw [← mem_markers_iff, hmarkers]
  exact List.mem_cons_of_mem _ List.mem_cons_self

theorem wait_recorded :
    replayTerms waitDesign.decl (waitEnd.sigs.restoreVersions waitDesign.decl 1)
        (((waitEnd.recordsAt 1).filter (waitDesign.keeps 1)).map Record.obj) =
      ((waitEnd.recordsAt 1).filter (waitDesign.keeps 1)).map Record.term :=
  replay_recorded (Option.some_get wait_built).symm (by decide) (by decide)
    wait_marker wait_separate (.refl _) 1

end Conquest
