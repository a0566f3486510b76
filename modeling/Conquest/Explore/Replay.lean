import Conquest.Explore.Stack
import Conquest.Smt.Fresh

/-!
# Replay — the records of one clock, run again

A candidate is tried in the versions that the signals had at the marker of its
clock. There the records of the clock make the same constraints again, as long
as none of them makes a term of its own and those that are left out commit
nothing.
-/

namespace Conquest

open Bv Run

variable {S : Type} [DecidableEq S]

/-! ## The stack as a run -/

/-- The versions after an entry of the stack. -/
def stackStep (decl : S → SigDecl) (st : SigState S) : Constraint S → SigState S
  | .clk n => (st.setInputVersion decl n).commitVersions decl n
  | .record r => (r.obj.updateTerm decl st).st

/-- An entry as `build_stack` makes it in given versions. -/
def Made (d : Design S) (st : SigState S) : Constraint S → Prop
  | .clk _ => True
  | .record r =>
      r.term = (r.obj.updateTerm d.decl st).term ∧ r.term.isSome ∧
        r.obj.writesReg d.decl = true

/-- The records have the clock of the marker before them. -/
def Clocked : Nat → List (Constraint S) → Prop
  | _, [] => True
  | _, .clk n :: entries => Clocked n entries
  | clock, .record r :: entries => r.clock = clock ∧ Clocked clock entries

/-- The numbers of the markers of a stack, and of a log. -/
def Constraint.marker? : Constraint S → Option Nat
  | .clk n => some n
  | .record _ => none

def LogRecord.marker? : LogRecord → Option Nat
  | .clock n => some n
  | _ => none

section Scanned

variable {d : Design S} {clock simClk : Nat} {st st' : SigState S} {log : List LogRecord}
  {r : LogRecord} {entries : List (Constraint S)}

theorem made_pushes (h : Pushes d clock st r entries st') :
    AllSteps (stackStep d.decl) (Made d) st entries ∧ st' = exec (stackStep d.decl) st entries := by
  cases h with
  | clock n => exact ⟨⟨trivial, trivial⟩, rfl⟩
  | assign id r hobj hclock hterm hsome =>
      exact ⟨⟨⟨hterm, hsome, d.writesReg_of_getAssign hobj⟩, trivial⟩, rfl⟩
  | state name value => exact ⟨trivial, rfl⟩

theorem clocked_pushes (h : Pushes d clock st r entries st') {rest : List (Constraint S)}
    (hrest : Clocked (r.clockAfter clock) rest) : Clocked clock (entries ++ rest) := by
  cases h with
  | clock n => exact hrest
  | assign id r hobj hclock hterm hsome => exact ⟨hclock, hrest⟩
  | state name value => exact hrest

theorem markers_pushes (h : Pushes d clock st r entries st') :
    entries.filterMap Constraint.marker? = r.marker?.toList := by
  cases h <;> rfl

/-- Every entry of the stack is made in the versions after the entries before. -/
theorem made_scanned (h : Scanned d simClk clock st log entries st') :
    AllSteps (stackStep d.decl) (Made d) st entries ∧ st' = exec (stackStep d.decl) st entries := by
  induction h with
  | stop clock st log => exact ⟨trivial, rfl⟩
  | step hr hpush hrest ih =>
      obtain ⟨hmade, rfl⟩ := made_pushes hpush
      exact ⟨allSteps_append.mpr ⟨hmade, ih.1⟩, ih.2.trans (exec_append _ _ _ _).symm⟩

theorem clocked_scanned (h : Scanned d simClk clock st log entries st') :
    Clocked clock entries := by
  induction h with
  | stop clock st log => trivial
  | step hr hpush hrest ih => exact clocked_pushes hpush ih

theorem markers_scanned (h : Scanned d simClk clock st log entries st') :
    entries.filterMap Constraint.marker? = (recorded simClk log).filterMap LogRecord.marker? := by
  induction h with
  | stop clock st log =>
      rw [recorded_stop]
      rfl
  | step hr hpush hrest ih =>
      rename_i r _ _ _
      rw [recorded_cons hr, List.filterMap_append, markers_pushes hpush, ih, List.filterMap_cons]
      cases r.marker? <;> rfl

end Scanned

/-! ## States that read alike -/

/-- The second state has the versions of the first, and at least its terms. -/
structure Matches (decl : S → SigDecl) (st st' : SigState S) : Prop where
  curr : ∀ s, (st'.core s).currVersion = (st.core s).currVersion
  next : ∀ s, (decl s).isInput = false → (st'.core s).nextVersion = (st.core s).nextVersion
  terms : SigState.Extends decl st st'

/-- The same apart from the next versions of the signals in `out`, of which the
second state has left writes out. -/
structure Projects (decl : S → SigDecl) (out : S → Prop) (st st' : SigState S) : Prop where
  curr : ∀ s, (st'.core s).currVersion = (st.core s).currVersion
  next : ∀ s, (decl s).isInput = false → ¬ out s →
    (st'.core s).nextVersion = (st.core s).nextVersion
  terms : SigState.Extends decl st st'

section Projects

variable {decl : S → SigDecl} {out : S → Prop} {st st' : SigState S}

omit [DecidableEq S] in
theorem Matches.projects (h : Matches decl st st') (out : S → Prop) : Projects decl out st st' :=
  ⟨h.curr, fun s hs _ => h.next s hs, h.terms⟩

omit [DecidableEq S] in
/-- Nothing is left out. -/
theorem Projects.matches (h : Projects decl (fun _ => False) st st') : Matches decl st st' :=
  ⟨h.curr, fun s hs => h.next s hs id, h.terms⟩

omit [DecidableEq S] in
theorem Projects.sigTerm_curr (h : Projects decl out st st') (hb : st.RegsInBounds decl) (s : S) :
    sigTerm decl st' s .curr = sigTerm decl st s .curr := by
  unfold sigTerm SMTSigCore.getTerm SMTSigCore.version
  dsimp only
  rw [h.curr s]
  cases hs : (decl s).isInput with
  | true => rw [h.terms.inputs s hs]
  | false =>
      obtain ⟨hcurr, hnext⟩ := hb s hs
      obtain ⟨rest, hrest⟩ := h.terms.grown s
      rw [← hrest, List.getElem?_append_left (by omega)]

omit [DecidableEq S] in
theorem Projects.sigTerm_next (h : Projects decl out st st') (hb : st.RegsInBounds decl) {s : S}
    (hs : (decl s).isInput = false) (hout : ¬ out s) :
    sigTerm decl st' s .next = sigTerm decl st s .next := by
  unfold sigTerm SMTSigCore.getTerm SMTSigCore.version
  dsimp only
  obtain ⟨rest, hrest⟩ := h.terms.grown s
  rw [h.next s hs hout, ← hrest, List.getElem?_append_left (hb s hs).2]

theorem Projects.updateNextVersion (h : Projects decl out st st') {s : S}
    (hs : (decl s).isInput = false) (hout : ¬ out s)
    (hext : SigState.Extends decl (st.updateNextVersion s) st') :
    Projects decl out (st.updateNextVersion s) (st'.updateNextVersion s) := by
  refine ⟨?_, ?_, hext.trans (extends_updateNextVersion hs st')⟩
  · intro s'
    rw [st.updateNextVersion_core, st'.updateNextVersion_core]
    split
    · simp [h.curr]
    · exact h.curr s'
  · intro s' hs' hout'
    rw [st.updateNextVersion_core, st'.updateNextVersion_core]
    split
    · simp [h.next s hs hout]
    · exact h.next s' hs' hout'

theorem Projects.commit (h : Projects decl out st st') {s : S} (hs : (decl s).isInput = false)
    (hout : ¬ out s) : Projects decl out (st.commit s) (st'.commit s) := by
  have hstack (st : SigState S) (s' : S) :
      ((st.commit s).core s').termStack = (st.core s').termStack := by
    rw [st.commit_core]
    split
    · rename_i heq
      rw [heq, SMTSigCore.commit_termStack]
    · rfl
  refine ⟨?_, ?_, ?_, ?_, h.terms.fresh⟩
  · intro s'
    rw [st.commit_core, st'.commit_core]
    split
    · exact h.next s hs hout
    · exact h.curr s'
  · intro s' hs' hout'
    rw [st.commit_core, st'.commit_core]
    split
    · exact h.next s hs hout
    · exact h.next s' hs' hout'
  · intro s'
    rw [hstack, hstack]
    exact h.terms.grown s'
  · intro s' hs'
    rw [hstack, hstack]
    exact h.terms.inputs s' hs'

omit [DecidableEq S] in
/-- A record that makes no term of its own. -/
theorem constrain_of_not_makesTerm {a : SMTAssign S} {isCommit : Bool} {sig : SMTSignal S}
    {index : Option (SMTExpr S)} (htarget : a.target = .assign isCommit (.signal sig index))
    (h : a.makesTerm = false) (st : SigState S) :
    constrain decl sig index a.rval st = signalWrite decl sig a.rval st := by
  rcases constrain_cases decl sig index a.rval st with ⟨n, hrval, hindex, -⟩ | heq
  · simp [SMTAssign.makesTerm, htarget, hrval, hindex] at h
  · exact heq

/-- What such a record does to a signal. -/
theorem updateTerm_of_not_makesTerm (decl : S → SigDecl) {a : SMTAssign S} {isCommit : Bool}
    {sig : SMTSignal S} {index : Option (SMTExpr S)}
    (htarget : a.target = .assign isCommit (.signal sig index))
    (h : a.makesTerm = false) (st : SigState S) :
    (a.updateTerm decl st).term =
        (signalWrite decl sig a.rval (st.updateNextVersion sig.parent)).term ∧
      (a.updateTerm decl st).side = [] ∧
      (a.updateTerm decl st).st =
        if isCommit then (st.updateNextVersion sig.parent).commit sig.parent
        else st.updateNextVersion sig.parent := by
  simp only [SMTAssign.updateTerm, htarget, constrain_of_not_makesTerm htarget h]
  cases isCommit <;> exact ⟨rfl, rfl, rfl⟩

/-- A record that both runs have makes the same constraint in both. -/
theorem Projects.updateTerm {a : SMTAssign S} (h : Projects decl out st st')
    (hb : st.RegsInBounds decl) (hreg : a.writesReg decl = true) (hmakes : a.makesTerm = false)
    (hout : ∀ s, a.assigned = some s → ¬ out s)
    (hext : SigState.Extends decl (a.updateTerm decl st).st st') :
    (a.updateTerm decl st').term = (a.updateTerm decl st).term ∧
      Projects decl out (a.updateTerm decl st).st (a.updateTerm decl st').st := by
  cases htarget : a.target with
  | branch lval =>
      simp only [SMTAssign.updateTerm, htarget]
      rw [SMTExpr.evalTerm_of_sigTerm decl (h.sigTerm_curr hb) lval,
        SMTExpr.evalTerm_of_sigTerm decl (h.sigTerm_curr hb) a.rval]
      exact ⟨rfl, h⟩
  | assign isCommit lval =>
      cases lval with
      | array arr index => simp [SMTAssign.makesTerm, htarget] at hmakes
      | signal sig index =>
          have hs : (decl sig.parent).isInput = false := by
            simpa [SMTAssign.writesReg, htarget, SMTLval.parent] using hreg
          have hkept : ¬ out sig.parent :=
            hout sig.parent (by simp [SMTAssign.assigned, htarget, SMTLval.parent])
          obtain ⟨hterm, -, hst⟩ := updateTerm_of_not_makesTerm decl htarget hmakes st
          obtain ⟨hterm', -, hst'⟩ := updateTerm_of_not_makesTerm decl htarget hmakes st'
          have hext' : SigState.Extends decl (st.updateNextVersion sig.parent) st' := by
            rw [hst] at hext
            split at hext
            · exact (extends_commit _ _).trans hext
            · exact hext
          have hnext := h.updateNextVersion hs hkept hext'
          have hb' : (st.updateNextVersion sig.parent).RegsInBounds decl :=
            (records_updateNextVersion st sig.parent).regsInBounds hb
          have hterms := hnext.sigTerm_curr hb'
          constructor
          · rw [hterm, hterm']
            simp only [signalWrite, SMTSignal.evalTerm, hnext.sigTerm_next hb' hs hkept]
            rw [SMTExpr.evalTerm_of_sigTerm decl hterms a.rval]
          · rw [hst, hst']
            split
            · exact hnext.commit hs hkept
            · exact hnext

/-- A record that only the first run has, and that commits nothing. -/
theorem Projects.skip {a : SMTAssign S} (h : Projects decl out st st')
    (hmakes : a.makesTerm = false) (hblocking : a.assignType ≠ .blocking)
    (hout : ∀ s, a.assigned = some s → out s)
    (hext : SigState.Extends decl (a.updateTerm decl st).st st') :
    Projects decl out (a.updateTerm decl st).st st' := by
  refine ⟨?_, ?_, hext⟩
  · intro s
    cases htarget : a.target with
    | branch lval =>
        simp only [SMTAssign.updateTerm, htarget]
        exact h.curr s
    | assign isCommit lval =>
        cases lval with
        | array arr index => simp [SMTAssign.makesTerm, htarget] at hmakes
        | signal sig index =>
            obtain ⟨-, -, hst⟩ := updateTerm_of_not_makesTerm decl htarget hmakes st
            cases isCommit with
            | true => simp [SMTAssign.assignType, htarget] at hblocking
            | false =>
                rw [hst, if_neg Bool.false_ne_true, st.updateNextVersion_core]
                split
                · rename_i heq
                  rw [SMTSigCore.updateNextVersion_currVersion, heq]
                  exact h.curr sig.parent
                · exact h.curr s
  · intro s hs hkept
    have hother : some s ≠ a.assigned := fun heq => hkept (hout s heq.symm)
    rw [(a.records decl st).other s hother]
    exact h.next s hs hkept

end Projects

section Matches

variable {decl : S → SigDecl} {st st' : SigState S}

omit [DecidableEq S] in
theorem Matches.sigTerm_curr (h : Matches decl st st') (hb : st.RegsInBounds decl) (s : S) :
    sigTerm decl st' s .curr = sigTerm decl st s .curr :=
  (h.projects fun _ => False).sigTerm_curr hb s

end Matches

/-! ## Runs -/

/-- The constraints that a list of records makes one after the other. -/
def replayTerms (decl : S → SigDecl) : SigState S → List (SMTAssign S) → List TermT
  | _, [] => []
  | st, a :: as => (a.updateTerm decl st).term :: replayTerms decl (a.updateTerm decl st).st as

/-- The versions after them. -/
def replayState (decl : S → SigDecl) (st : SigState S) (as : List (SMTAssign S)) : SigState S :=
  as.foldl (fun st a => (a.updateTerm decl st).st) st

section Runs

variable {d : Design S} {decl : S → SigDecl} {st st' : SigState S} {entries : List (Constraint S)}

theorem length_replayTerms (st : SigState S) (as : List (SMTAssign S)) :
    (replayTerms decl st as).length = as.length := by
  induction as generalizing st with
  | nil => rfl
  | cons a as ih => exact congrArg Nat.succ (ih _)

theorem extends_stackStep {c : Constraint S} (h : Made d st c) :
    SigState.Extends d.decl st (stackStep d.decl st c) := by
  cases c with
  | clk n => exact extends_marker st n
  | record r => exact extends_updateTerm h.2.2 st

theorem extends_exec (h : AllSteps (stackStep d.decl) (Made d) st entries) :
    SigState.Extends d.decl st (exec (stackStep d.decl) st entries) := by
  induction entries generalizing st with
  | nil => exact .refl st
  | cons c entries ih => exact (extends_stackStep h.1).trans (ih h.2)

theorem regsInBounds_exec (hb : st.RegsInBounds d.decl) (entries : List (Constraint S)) :
    (exec (stackStep d.decl) st entries).RegsInBounds d.decl := by
  refine exec_inv (fun st c hst => ?_) hb entries
  cases c with
  | clk n => exact hst.marker n
  | record r => exact (SMTAssign.records d.decl r.obj st).regsInBounds hst

theorem below_stackStep (hst : st.Below) (c : Constraint S) : (stackStep d.decl st c).Below := by
  cases c with
  | clk n =>
      intro s id hid
      simp only [stackStep] at hid
      rw [marker_termStack] at hid
      exact hst s id hid
  | record r => exact (SMTAssign.records d.decl r.obj st).below hst

/-- The terms of recorded constraints exist after the run. -/
theorem over_made (hst : st.Below) (h : AllSteps (stackStep d.decl) (Made d) st entries) :
    ∀ r, .record r ∈ entries →
      Over (· < (exec (stackStep d.decl) st entries).fresh) r.term := by
  induction entries generalizing st with
  | nil => exact fun _ hr => absurd hr List.not_mem_nil
  | cons c entries ih =>
      obtain ⟨hmade, hrest⟩ := h
      intro r hr
      rcases List.mem_cons.mp hr with rfl | hr
      · have hfresh := (extends_exec hrest).fresh
        rw [hmade.1]
        exact (SMTAssign.over_updateTerm hst r.obj).mono fun _ hid => Nat.lt_of_lt_of_le hid hfresh
      · exact ih (below_stackStep hst c) hrest r hr

/-- The versions at a clock are remembered until its marker comes again. -/
theorem versionAtClock_exec {n : Nat} (hn : n ∉ entries.filterMap Constraint.marker?)
    (st : SigState S) {s : S} (hs : (decl s).isInput = false) :
    ((exec (stackStep decl) st entries).core s).versionAtClock n =
      (st.core s).versionAtClock n := by
  induction entries generalizing st with
  | nil => rfl
  | cons c entries ih =>
      cases c with
      | clk m =>
          have hne : n ≠ m := fun heq => hn (by simp [Constraint.marker?, heq])
          have hrest := ih (fun h => hn (by simp [Constraint.marker?, h])) (stackStep decl st (.clk m))
          refine hrest.trans ?_
          simp only [stackStep]
          rw [marker_core, if_neg (by simp [hs])]
          exact Function.update_of_ne hne _ _
      | record r =>
          refine (ih hn _).trans ?_
          exact congrFun (versionAtClock_updateTerm r.obj st s) n

/-- The restored versions are those after the marker of the clock. -/
theorem matches_restore {stack before rest : List (Constraint S)} {n : Nat}
    (hstack : stack = before ++ .clk n :: rest)
    (hn : n ∉ rest.filterMap Constraint.marker?)
    (hmade : AllSteps (stackStep d.decl) (Made d) st stack) :
    Matches d.decl (exec (stackStep d.decl) st (before ++ [.clk n]))
      ((exec (stackStep d.decl) st stack).restoreVersions d.decl n) := by
  rw [List.append_cons] at hstack
  subst hstack
  have hrest := (allSteps_append.mp hmade).2
  -- no later marker has the clock `n`, so its version is still the noted one
  have hversion (s : S) (hs : (d.decl s).isInput = false) :
      ((exec (stackStep d.decl) st (before ++ [.clk n] ++ rest)).core s).versionAtClock n =
        ((exec (stackStep d.decl) st before).core s).nextVersion := by
    rw [exec_append, versionAtClock_exec hn _ hs, exec_append]
    show (((_ : SigState S).commitVersions d.decl n).core s).versionAtClock n = _
    rw [marker_core, if_neg (by simp [hs])]
    exact Function.update_self _ _ _
  have hmarker (s : S) (hs : (d.decl s).isInput = false) :
      (exec (stackStep d.decl) st (before ++ [.clk n])).core s =
        { ((exec (stackStep d.decl) st before).core s).commit with
          versionAtClock := Function.update
            ((exec (stackStep d.decl) st before).core s).versionAtClock n
            ((exec (stackStep d.decl) st before).core s).nextVersion } := by
    rw [exec_append]
    show ((_ : SigState S).commitVersions d.decl n).core s = _
    rw [marker_core, if_neg (by simp [hs])]
  refine ⟨fun s => ?_, fun s hs => ?_, ?_⟩
  · rw [restore_core]
    cases hs : (d.decl s).isInput with
    | true =>
        rw [if_pos rfl, exec_append _ _ before]
        show _ = (((_ : SigState S).commitVersions d.decl n).core s).currVersion
        rw [marker_core, if_pos hs]
    | false =>
        rw [if_neg Bool.false_ne_true, hmarker s hs]
        exact hversion s hs
  · rw [restore_core, if_neg (by simp [hs]), hmarker s hs]
    exact hversion s hs
  · refine .trans ?_ (extends_restore _ _)
    rw [exec_append _ _ _ rest]
    exact extends_exec hrest

/-- The records of a clock were made in the versions after its marker, and their
terms are still there at the end of the scan. -/
theorem made_clock {stack before after : List (Constraint S)} {recs : List (Record S)} {n : Nat}
    (hstack : stack = before ++ .clk n :: (recs.map Constraint.record ++ after))
    (hmade : AllSteps (stackStep d.decl) (Made d) st stack) :
    let marked := exec (stackStep d.decl) st (before ++ [.clk n])
    AllSteps (stackStep d.decl) (Made d) marked (recs.map Constraint.record) ∧
      SigState.Extends d.decl (exec (stackStep d.decl) marked (recs.map Constraint.record))
        (exec (stackStep d.decl) st stack) := by
  rw [List.append_cons] at hstack
  obtain ⟨hclock, hlater⟩ := allSteps_append.mp (allSteps_append.mp (hstack ▸ hmade)).2
  refine ⟨hclock, ?_⟩
  conv_rhs => rw [hstack, exec_append, exec_append]
  exact extends_exec hlater

/-- Run again in a state that reads alike, records that make no terms of their
own return the constraints they have on the stack. Records may be left out if
they commit nothing and the others do not write their signals. -/
theorem Projects.replay {out : S → Prop} {recs : List (Record S)}
    (h : Projects d.decl out st st') (kept : Record S → Bool) (hb : st.RegsInBounds d.decl)
    (hmade : AllSteps (stackStep d.decl) (Made d) st (recs.map Constraint.record))
    (hmakes : ∀ r ∈ recs, r.obj.makesTerm = false)
    (hkept : ∀ r ∈ recs, kept r = true → ∀ s, r.obj.assigned = some s → ¬ out s)
    (hleft : ∀ r ∈ recs, kept r = false →
      r.obj.assignType ≠ .blocking ∧ ∀ s, r.obj.assigned = some s → out s)
    (hext : SigState.Extends d.decl
      (exec (stackStep d.decl) st (recs.map Constraint.record)) st') :
    replayTerms d.decl st' ((recs.filter kept).map Record.obj) =
        (recs.filter kept).map Record.term ∧
      Projects d.decl out (exec (stackStep d.decl) st (recs.map Constraint.record))
        (replayState d.decl st' ((recs.filter kept).map Record.obj)) := by
  induction recs generalizing st st' with
  | nil => exact ⟨rfl, h⟩
  | cons r recs ih =>
      obtain ⟨⟨hterm, -, hreg⟩, hrest⟩ := hmade
      obtain ⟨hmake, hmakes⟩ := List.forall_mem_cons.mp hmakes
      obtain ⟨hkeep, hkept⟩ := List.forall_mem_cons.mp hkept
      obtain ⟨hleave, hleft⟩ := List.forall_mem_cons.mp hleft
      have hstep := (extends_exec hrest).trans hext
      have hb' := (SMTAssign.records d.decl r.obj st).regsInBounds hb
      cases hr : kept r with
      | true =>
          obtain ⟨heq, hgo⟩ := h.updateTerm hb hreg hmake (hkeep hr) hstep
          obtain ⟨hterms, hend⟩ :=
            ih hgo hb' hrest hmakes hkept hleft (hext.trans (extends_updateTerm hreg st'))
          rw [List.filter_cons_of_pos hr]
          refine ⟨?_, hend⟩
          rw [List.map_cons, replayTerms, heq, ← hterm, hterms, List.map_cons]
      | false =>
          obtain ⟨hblocking, hout⟩ := hleave hr
          rw [List.filter_cons_of_neg (by simp [hr])]
          exact ih (h.skip hmake hblocking hout hstep) hb' hrest hmakes hkept hleft hext

/-- Nothing is left out. -/
theorem Matches.replay {recs : List (Record S)} (h : Matches d.decl st st')
    (hb : st.RegsInBounds d.decl)
    (hmade : AllSteps (stackStep d.decl) (Made d) st (recs.map Constraint.record))
    (hmakes : ∀ r ∈ recs, r.obj.makesTerm = false)
    (hext : SigState.Extends d.decl
      (exec (stackStep d.decl) st (recs.map Constraint.record)) st') :
    replayTerms d.decl st' (recs.map Record.obj) = recs.map Record.term ∧
      Matches d.decl (exec (stackStep d.decl) st (recs.map Constraint.record))
        (replayState d.decl st' (recs.map Record.obj)) := by
  obtain ⟨hterms, hend⟩ := (h.projects fun _ => False).replay (fun _ => true) hb hmade hmakes
    (fun _ _ _ _ _ => id) (fun _ _ hfalse => by cases hfalse) hext
  rw [List.filter_true] at hterms hend
  exact ⟨hterms, hend.matches⟩

/-- A record that makes a term is different in every run. -/
theorem exists_new_term {as : List (SMTAssign S)} (h : ∃ a ∈ as, a.makesTerm = true)
    (st : SigState S) {n : Nat} (hn : n ≤ st.fresh) :
    ∃ t ∈ replayTerms decl st as, t.isSome → ¬ Over (· < n) t := by
  induction as generalizing st with
  | nil => simp at h
  | cons a as ih =>
      by_cases ha : a.makesTerm = true
      · refine ⟨(a.updateTerm decl st).term, List.mem_cons_self, fun hsome hover => ?_⟩
        obtain ⟨id, hid, hlt⟩ := SMTAssign.uses_fresh ha hsome hover
        omega
      · have h' : ∃ a ∈ as, a.makesTerm = true := by
          simpa [ha] using h
        obtain ⟨t, ht, hnew⟩ := ih h' _ (hn.trans (SMTAssign.records decl a st).fresh)
        exact ⟨t, List.mem_cons_of_mem _ ht, hnew⟩

end Runs

/-! ## The records of one clock -/

section Split

omit [DecidableEq S]

theorem markers_clk (n : Nat) (entries : List (Constraint S)) :
    (Constraint.clk n :: entries).filterMap Constraint.marker? =
      n :: entries.filterMap Constraint.marker? := rfl

theorem markers_record (r : Record S) (entries : List (Constraint S)) :
    (Constraint.record r :: entries).filterMap Constraint.marker? =
      entries.filterMap Constraint.marker? := rfl

theorem mem_markers_iff {n : Nat} {entries : List (Constraint S)} :
    n ∈ entries.filterMap Constraint.marker? ↔ .clk n ∈ entries := by
  rw [List.mem_filterMap]
  constructor
  · rintro ⟨c, hc, hmarker⟩
    cases c with
    | clk m =>
        obtain rfl := Option.some.inj hmarker
        exact hc
    | record r => cases hmarker
  · exact fun hn => ⟨.clk n, hn, rfl⟩

/-- The records up to the next marker. -/
theorem exists_records (entries : List (Constraint S)) :
    ∃ (recs : List (Record S)) (after : List (Constraint S)),
      entries = recs.map Constraint.record ++ after ∧
        (after = [] ∨ ∃ n rest, after = .clk n :: rest) := by
  induction entries with
  | nil => exact ⟨[], [], rfl, .inl rfl⟩
  | cons c entries ih =>
      cases c with
      | clk n => exact ⟨[], .clk n :: entries, rfl, .inr ⟨n, entries, rfl⟩⟩
      | record r =>
          obtain ⟨recs, after, rfl, hafter⟩ := ih
          exact ⟨r :: recs, after, rfl, hafter⟩

theorem clocked_append_marker {clock n : Nat} {before after : List (Constraint S)}
    (h : Clocked clock (before ++ .clk n :: after)) : Clocked clock before ∧ Clocked n after := by
  induction before generalizing clock with
  | nil => exact ⟨trivial, h⟩
  | cons c before ih =>
      cases c with
      | clk m => exact ih h
      | record r =>
          obtain ⟨hr, h⟩ := h
          exact ⟨⟨hr, (ih h).1⟩, (ih h).2⟩

theorem clocked_append_records {n : Nat} {recs : List (Record S)} {after : List (Constraint S)}
    (h : Clocked n (recs.map Constraint.record ++ after)) :
    (∀ r ∈ recs, r.clock = n) ∧ Clocked n after := by
  induction recs with
  | nil => exact ⟨fun _ hr => absurd hr List.not_mem_nil, h⟩
  | cons r recs ih =>
      obtain ⟨hr, h⟩ := h
      exact ⟨List.forall_mem_cons.mpr ⟨hr, (ih h).1⟩, (ih h).2⟩

theorem clock_of_clocked {clock : Nat} {entries : List (Constraint S)}
    (h : Clocked clock entries) {c : Constraint S} (hc : c ∈ entries) :
    c.clock = clock ∨ c.clock ∈ entries.filterMap Constraint.marker? := by
  induction entries generalizing clock with
  | nil => cases hc
  | cons e entries ih =>
      cases e with
      | clk n =>
          refine .inr ?_
          rw [markers_clk, List.mem_cons]
          rcases List.mem_cons.mp hc with rfl | hc
          · exact .inl rfl
          · exact ih h hc
      | record r =>
          obtain ⟨hr, h⟩ := h
          rw [markers_record]
          rcases List.mem_cons.mp hc with rfl | hc
          · exact .inl hr
          · exact ih h hc

theorem index_of_append {stack before after : List (Constraint S)} {r : Record S}
    (h : Indexed stack) (heq : stack = before ++ .record r :: after) :
    r.index = before.length := by
  refine h before.length r ?_
  rw [heq, List.getElem?_append_right le_rfl, Nat.sub_self]
  rfl

/-- The records before a record have smaller indices, those after it greater
ones. -/
theorem index_lt_of_append {stack pre post : List (Constraint S)} {r : Record S}
    (h : Indexed stack) (heq : stack = pre ++ .record r :: post) :
    (∀ r', .record r' ∈ pre → r'.index < r.index) ∧
      ∀ r', .record r' ∈ post → r.index < r'.index := by
  rw [index_of_append h heq]
  constructor
  · intro r' hr'
    obtain ⟨as, bs, rfl⟩ := List.append_of_mem hr'
    rw [List.append_assoc, List.cons_append] at heq
    rw [index_of_append h heq, List.length_append, List.length_cons]
    omega
  · intro r' hr'
    obtain ⟨as, bs, rfl⟩ := List.append_of_mem hr'
    rw [← List.cons_append, ← List.append_assoc] at heq
    rw [index_of_append h heq, List.length_append, List.length_cons]
    omega

/-- The stack around a record: its clock's marker, the records of the clock
before it, and what follows. -/
structure Around (stack : List (Constraint S)) (r : Record S) (before : List (Constraint S))
    (recs : List (Record S)) (after : List (Constraint S)) : Prop where
  stack_eq : stack =
    before ++ .clk r.clock :: (recs.map Constraint.record ++ .record r :: after)
  before_clock : ∀ c ∈ before, c.clock < r.clock
  recs_clock : ∀ r' ∈ recs, r'.clock = r.clock
  after_clock : ∀ c ∈ after, r.clock ≤ c.clock
  index_eq : r.index = (before ++ .clk r.clock :: recs.map Constraint.record).length
  before_index : ∀ r', .record r' ∈ before → r'.index < r.index
  recs_index : ∀ r' ∈ recs, r'.index < r.index
  after_index : ∀ r', .record r' ∈ after → r.index < r'.index
  not_again : r.clock ∉ (recs.map Constraint.record ++ .record r :: after).filterMap
    Constraint.marker?

/-- Where the markers increase, the records of a clock stand together. -/
theorem exists_clock {entries rest : List (Constraint S)} (hfirst : entries = .clk 0 :: rest)
    (hclocked : Clocked 0 entries)
    (hmarkers : (entries.filterMap Constraint.marker?).Pairwise (· < ·)) {n : Nat}
    (hn : .clk n ∈ entries) :
    ∃ (before : List (Constraint S)) (recs : List (Record S)) (after : List (Constraint S)),
      entries = before ++ .clk n :: (recs.map Constraint.record ++ after) ∧
        (∀ c ∈ before, c.clock < n) ∧ (∀ r ∈ recs, r.clock = n) ∧ (∀ c ∈ after, n < c.clock) ∧
        n ∉ (recs.map Constraint.record ++ after).filterMap Constraint.marker? := by
  obtain ⟨before, entries', rfl⟩ := List.append_of_mem hn
  obtain ⟨recs, after, rfl, hafter⟩ := exists_records entries'
  obtain ⟨hbefore, hrest⟩ := clocked_append_marker hclocked
  obtain ⟨hrecs, hclocked'⟩ := clocked_append_records hrest
  rw [List.filterMap_append, markers_clk, List.pairwise_append, List.pairwise_cons] at hmarkers
  obtain ⟨-, ⟨hlater, -⟩, hlt⟩ := hmarkers
  refine ⟨before, recs, after, rfl, ?_, hrecs, ?_, fun h => lt_irrefl n (hlater n h)⟩
  · intro c hc
    -- the clock of an entry is a marker before it: the stack begins with one
    have hzero : 0 ∈ before.filterMap Constraint.marker? := by
      cases before with
      | nil => cases hc
      | cons b before =>
          obtain ⟨rfl, -⟩ := List.cons.inj hfirst
          rw [markers_clk]
          exact List.mem_cons_self
    have hmem : c.clock ∈ before.filterMap Constraint.marker? := by
      rcases clock_of_clocked hbefore hc with h | h
      · exact h ▸ hzero
      · exact h
    exact hlt _ hmem _ List.mem_cons_self
  · intro c hc
    refine hlater _ ?_
    rw [List.filterMap_append]
    refine List.mem_append_right _ ?_
    rcases hafter with rfl | ⟨m, rest', rfl⟩
    · cases hc
    · -- what follows the next marker has its clock, or a later one
      have hnext : Clocked m rest' := hclocked'
      rw [markers_clk, List.mem_cons]
      rcases List.mem_cons.mp hc with rfl | hc
      · exact .inl rfl
      · exact clock_of_clocked hnext hc

/-- The stack around one of its records. -/
theorem exists_around {entries rest : List (Constraint S)} (hfirst : entries = .clk 0 :: rest)
    (hclocked : Clocked 0 entries) (hindexed : Indexed entries)
    (hmarkers : (entries.filterMap Constraint.marker?).Pairwise (· < ·)) {r : Record S}
    (hr : .record r ∈ entries) : ∃ before recs after, Around entries r before recs after := by
  have hmarker : .clk r.clock ∈ entries := by
    rcases clock_of_clocked hclocked hr with h | h
    · rw [hfirst, show r.clock = 0 from h]
      exact List.mem_cons_self
    · exact mem_markers_iff.mp h
  obtain ⟨before, recs, after, heq, hbefore, hrecs, hafter, hnot⟩ :=
    exists_clock hfirst hclocked hmarkers hmarker
  have hmem : r ∈ recs := by
    rw [heq] at hr
    rcases List.mem_append.mp hr with hr | hr
    · exact absurd (hbefore _ hr) (lt_irrefl _)
    rcases List.mem_cons.mp hr with hr | hr
    · cases hr
    rcases List.mem_append.mp hr with hr | hr
    · obtain ⟨r', hr', h⟩ := List.mem_map.mp hr
      cases h
      exact hr'
    · exact absurd (hafter _ hr) (lt_irrefl _)
  obtain ⟨recs, recs', rfl⟩ := List.append_of_mem hmem
  rw [List.map_append, List.map_cons, List.append_assoc, List.cons_append] at heq hnot
  have hsplit : entries =
      (before ++ .clk r.clock :: recs.map Constraint.record) ++
        .record r :: (recs'.map Constraint.record ++ after) := by
    rw [heq, List.append_assoc, List.cons_append]
  obtain ⟨hless, hgreater⟩ := index_lt_of_append hindexed hsplit
  refine ⟨before, recs, recs'.map Constraint.record ++ after, heq, hbefore,
    fun r' hr' => hrecs r' (List.mem_append_left _ hr'), ?_, index_of_append hindexed hsplit,
    fun r' hr' => hless r' (List.mem_append_left _ hr'),
    fun r' hr' => hless r' (List.mem_append_right _ ?_), hgreater, hnot⟩
  · intro c hc
    rcases List.mem_append.mp hc with hc | hc
    · obtain ⟨r', hr', rfl⟩ := List.mem_map.mp hc
      exact (hrecs r' (List.mem_append_right _ (List.mem_cons_of_mem _ hr'))).ge
    · exact (hafter c hc).le
  · exact List.mem_cons_of_mem _ (List.mem_map_of_mem hr')

end Split

end Conquest
