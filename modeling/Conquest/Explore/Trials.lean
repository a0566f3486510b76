import Conquest.Smt.Cache
import Conquest.Explore.Query

/-!
# Trials — what a rejected candidate leaves behind

A trial runs records again from the versions remembered at its clock. In a
design whose records make no terms of their own it makes no more versions than
the scan of the log did, so that no stack of terms grows; the counters that it
moves are the ones the next trial restores, and the terms that the expressions
remember are right in all versions. The next trial starts where the first did.
-/

namespace Conquest

open Bv Run

variable {S : Type} [DecidableEq S]

/-! ## Trials with the objects of the expressions -/

/-- The expression objects behind the records of the design. -/
structure Objects (d : Design S) where
  heap : Nat → SMTExpr S
  assignObj : Nat → AssignObj S
  assign_eq : ∀ id a, d.getAssign id = some a → (assignObj id).assign = a
  fits : ∀ id, (assignObj id).Fits heap

/-- The variables that a trial reads and writes, with what the expression
objects remember. -/
structure Trial (d : Design S) (objs : Objects d) where
  session : Session S
  cells : Cells
  sound : cells.Sound d.decl objs.heap

namespace Session

variable (d : Design S)

/-- The versions of the clock restored, over a context. -/
def restoreWith (ctx : List TermT) (clock : Nat) (x : Session S) : Session S :=
  { x.setContext ctx with sigs := x.sigs.restoreVersions d.decl clock }

/-- The replay of a candidate's clock and the assertion of its condition, over
the context that the records before leave. -/
def ask (ctx : List TermT) (cand : Candidate S) (x : Session S) : Option (Session S) :=
  match x.stack.dropWhile fun c => c.clock ≠ cand.cnst.clock with
  | .clk _ :: rest =>
      ((x.restoreWith d ctx cand.cnst.clock).replay d cand.cnst rest).map fun x =>
        x.assertUpdate d cand.br
  | _ => none

/-- The initial formulas and the recorded prefix of a candidate. -/
def prior (cand : Candidate S) (x : Session S) : List TermT :=
  d.regInit x.sigs ++
    (x.stack.takeWhile fun c => c.clock ≠ cand.cnst.clock).filterMap Constraint.term?

/-- What `smt_yices_dump_error` leaves in the place of the prefix. -/
def dumped (check : Check) (x : Session S) : List TermT :=
  dumpLoop check (d.regInit x.sigs) x.terms

theorem tryCandidate_eq_ask (check : Check) (cand : Candidate S) (x : Session S) :
    x.tryCandidate d check cand =
      (x.ask d (x.dumped d check) cand).bind fun x =>
        (x.checkSatisfiability d check).map fun x => (check x.context, x) := by
  unfold tryCandidate ask
  cases x.stack.dropWhile fun c => c.clock ≠ cand.cnst.clock with
  | nil => rfl
  | cons c rest =>
      cases c with
      | clk n =>
          dsimp only
          rw [Option.bind_map]
          rfl
      | record r => rfl

/-- The candidates that `find_next_cfg` may try on the stack. -/
def IsCandidate (x : Session S) (cand : Candidate S) : Prop :=
  ∃ beginClk endClk, cand ∈ x.branches d beginClk endClk

end Session

namespace Trial

variable {d : Design S} {objs : Objects d}

/-- `update_term` of a record, asserted. -/
def assertUpdate (assign : SMTAssign S) (t : Trial d objs) : Trial d objs :=
  let r := (objs.assignObj assign.id).updateTerm d.decl t.session.sigs t.cells
  { session :=
      { t.session with
        sigs := r.1.st
        context := t.session.context ++ r.1.side ++ [r.1.term] }
    cells := r.2
    sound := (AssignObj.updateTerm_spec (objs.fits assign.id) t.session.sigs t.sound).2 }

/-- The loop that replays the records of a clock up to the target. -/
def replay (target : Record S) : List (Constraint S) → Trial d objs → Option (Trial d objs)
  | [], _ => none
  | .clk _ :: _, _ => none
  | .record r :: rest, t =>
      if r.index = target.index then some t
      else if d.keeps target.obj.process r then replay target rest (t.assertUpdate r.obj)
      else replay target rest t

/-- The replay of a candidate's clock and the assertion of its condition, over
the context that the records before leave. -/
def ask (ctx : List TermT) (cand : Candidate S) (t : Trial d objs) : Option (Trial d objs) :=
  match t.session.stack.dropWhile fun c => c.clock ≠ cand.cnst.clock with
  | .clk _ :: rest =>
      (replay cand.cnst rest
        { t with session := t.session.restoreWith d ctx cand.cnst.clock }).map fun t =>
          t.assertUpdate cand.br
  | _ => none

/-- One candidate, up to the answer of `solve_constraints`, for which the solver
runs once more. -/
def tryCandidate (check solve : Check) (cand : Candidate S) (t : Trial d objs) :
    Option (Option Valuation × Trial d objs) :=
  (t.ask (t.session.dumped d check) cand).bind fun t =>
    (t.session.checkSatisfiability d check).map fun x =>
      (solve x.context, { t with session := x })

/-- The formulas that the loop asserts for a candidate: the initial formulas and
the recorded prefix, the replayed records of the clock, and the condition of the
alternative. -/
def asserted (cand : Candidate S) (t : Trial d objs) : Option (List TermT) :=
  (t.ask (t.session.prior d cand) cand).map fun u => u.session.context

/-- The context before `check_satisfiability`, where the formulas that
`smt_yices_dump_error` asserts have taken the place of the prefix. -/
def context (check : Check) (cand : Candidate S) (t : Trial d objs) : Option (List TermT) :=
  (t.ask (t.session.dumped d check) cand).map fun u => u.session.context

/-- Candidates that are tried one after the other and rejected, with any answers
of the solver that reject them. -/
inductive Rejects : Trial d objs → List (Candidate S) → Trial d objs → Prop
  | nil (t : Trial d objs) : Rejects t [] t
  | cons {t u v : Trial d objs} {cand : Candidate S} {cands : List (Candidate S)}
      (check solve : Check) (h : t.tryCandidate check solve cand = some (none, u))
      (hrest : Rejects u cands v) : Rejects t (cand :: cands) v

/-! ## The objects make no difference -/

theorem assertUpdate_session {assign : SMTAssign S} {id : Nat} (h : d.getAssign id = some assign)
    (t : Trial d objs) :
    (t.assertUpdate assign).session = t.session.assertUpdate d assign := by
  have hid := d.getAssign_id h
  subst hid
  have hspec := (AssignObj.updateTerm_spec (objs.fits assign.id) t.session.sigs t.sound).1
  rw [objs.assign_eq assign.id assign h] at hspec
  simp only [assertUpdate, Session.assertUpdate, hspec]

/-- The records on the stack are those of the design. -/
def Recorded (d : Design S) (entries : List (Constraint S)) : Prop :=
  ∀ r, .record r ∈ entries → ∃ id, d.getAssign id = some r.obj

theorem replay_session (target : Record S) {entries : List (Constraint S)}
    (h : Recorded d entries) (t : Trial d objs) :
    (t.replay target entries).map Trial.session = t.session.replay d target entries := by
  induction entries generalizing t with
  | nil => rfl
  | cons c entries ih =>
      have hrest : Recorded d entries := fun r hr => h r (List.mem_cons_of_mem _ hr)
      cases c with
      | clk n => rfl
      | record r =>
          obtain ⟨id, hid⟩ := h r List.mem_cons_self
          rw [replay, Session.replay]
          split
          · rfl
          · split
            · rw [ih hrest, assertUpdate_session hid]
            · exact ih hrest t

theorem ask_session (ctx : List TermT) {cand : Candidate S} {t : Trial d objs}
    (h : Recorded d t.session.stack) {id : Nat} (hbr : d.getAssign id = some cand.br) :
    (t.ask ctx cand).map Trial.session = t.session.ask d ctx cand := by
  unfold ask Session.ask
  split
  · rename_i n rest hdrop
    have hrest : Recorded d rest := by
      intro r hr
      have hsuffix : Constraint.clk n :: rest <:+ t.session.stack :=
        hdrop ▸ List.dropWhile_suffix _
      exact h r (hsuffix.subset (List.mem_cons_of_mem _ hr))
    have hreplay := replay_session cand.cnst hrest
      { t with session := t.session.restoreWith d ctx cand.cnst.clock }
    dsimp only at hreplay
    rw [← hreplay, Option.map_map, Option.map_map]
    refine Option.map_congr fun u _ => ?_
    exact assertUpdate_session hbr u
  · rfl

/-- The outcome of a trial, apart from the objects, depends on its session. -/
theorem map_tryCandidate (check solve : Check) (cand : Candidate S) (t : Trial d objs) :
    (t.tryCandidate check solve cand).map (fun r => (r.1, r.2.session)) =
      ((t.ask (t.session.dumped d check) cand).map Trial.session).bind fun x =>
        (x.checkSatisfiability d check).map fun x => (solve x.context, x) := by
  rw [tryCandidate, Option.map_bind, Option.bind_map]
  congr 1
  funext u
  simp only [Function.comp_apply, Option.map_map]
  rfl

/-- A trial with the objects is the trial that builds all terms afresh. -/
theorem tryCandidate_session (check : Check) {cand : Candidate S} {t : Trial d objs}
    (h : Recorded d t.session.stack) {id : Nat} (hbr : d.getAssign id = some cand.br) :
    (t.tryCandidate check check cand).map (fun r => (r.1, r.2.session)) =
      t.session.tryCandidate d check cand := by
  rw [map_tryCandidate, ask_session _ h hbr, Session.tryCandidate_eq_ask]

end Trial

/-! ## What `restore_versions` resets -/

/-- The signals in versions that are restored alike: the counters of the
registers and the current versions of the inputs may differ. -/
structure SigState.Restores (decl : S → SigDecl) (st st' : SigState S) : Prop where
  fresh : st'.fresh = st.fresh
  termStack : ∀ s, (st'.core s).termStack = (st.core s).termStack
  versionAtClock : ∀ s, (st'.core s).versionAtClock = (st.core s).versionAtClock
  inputs : ∀ s, (decl s).isInput = true → (st'.core s).nextVersion = (st.core s).nextVersion

namespace SigState.Restores

variable {decl : S → SigDecl} {st st' st'' : SigState S}

omit [DecidableEq S]

theorem refl (st : SigState S) : Restores decl st st :=
  ⟨rfl, fun _ => rfl, fun _ => rfl, fun _ _ => rfl⟩

theorem trans (h : Restores decl st st') (h' : Restores decl st' st'') :
    Restores decl st st'' where
  fresh := h'.fresh.trans h.fresh
  termStack := fun s => (h'.termStack s).trans (h.termStack s)
  versionAtClock := fun s => (h'.versionAtClock s).trans (h.versionAtClock s)
  inputs := fun s hs => (h'.inputs s hs).trans (h.inputs s hs)

theorem restoreVersions (st : SigState S) (n : Nat) :
    Restores decl st (st.restoreVersions decl n) := by
  refine ⟨rfl, fun s => ?_, fun s => ?_, fun s hs => ?_⟩
  · rw [restore_core]
    split <;> rfl
  · rw [restore_core]
    split <;> rfl
  · rw [restore_core, if_pos hs]

/-- **Restored versions.** -/
theorem restoreVersions_eq (h : Restores decl st st') (n : Nat) :
    st'.restoreVersions decl n = st.restoreVersions decl n := by
  have hcore : (st'.restoreVersions decl n).core = (st.restoreVersions decl n).core := by
    funext s
    rw [restore_core, restore_core]
    cases hs : (decl s).isInput with
    | true =>
        rw [if_pos rfl, if_pos rfl]
        rw [SMTSigCore.mk.injEq]
        exact ⟨h.termStack s, rfl, h.inputs s hs, h.versionAtClock s⟩
    | false =>
        rw [if_neg Bool.false_ne_true, if_neg Bool.false_ne_true, h.versionAtClock s]
        rw [SMTSigCore.mk.injEq]
        exact ⟨h.termStack s, rfl, rfl, h.versionAtClock s⟩
  have hfresh : (st'.restoreVersions decl n).fresh = (st.restoreVersions decl n).fresh := h.fresh
  rw [SigState.mk.injEq]
  exact ⟨hcore, hfresh⟩

end SigState.Restores

section Untouched

variable {d : Design S}

/-- The session differs in counters and in the context only. -/
structure Session.Untouched (d : Design S) (x y : Session S) : Prop where
  rest : y = { x with sigs := y.sigs, context := y.context }
  sigs : SigState.Restores d.decl x.sigs y.sigs

namespace Session.Untouched

variable {x y z : Session S}

omit [DecidableEq S]

theorem refl (x : Session S) : Untouched d x x := ⟨rfl, .refl _⟩

theorem stack (h : Untouched d x y) : y.stack = x.stack := by
  rw [h.rest]

theorem trans (h : Untouched d x y) (h' : Untouched d y z) : Untouched d x z := by
  refine ⟨?_, h.sigs.trans h'.sigs⟩
  rw [h'.rest, h.rest]

theorem restoreWith (x : Session S) (ctx : List TermT) (clock : Nat) :
    Untouched d x (x.restoreWith d ctx clock) :=
  ⟨rfl, .restoreVersions x.sigs clock⟩

theorem regInit_eq (h : Untouched d x y) : d.regInit y.sigs = d.regInit x.sigs := by
  have hinit : d.initTerm y.sigs = d.initTerm x.sigs := by
    funext s
    unfold Design.initTerm
    rw [h.sigs.termStack s]
  unfold Design.regInit
  rw [hinit]

theorem prior_eq (h : Untouched d x y) (cand : Candidate S) :
    y.prior d cand = x.prior d cand := by
  unfold Session.prior
  rw [h.regInit_eq, h.stack]

theorem dumped_eq (h : Untouched d x y) (check : Check) :
    y.dumped d check = x.dumped d check := by
  unfold Session.dumped Session.terms
  rw [h.regInit_eq, h.stack]

/-- A trial starts in the same state. -/
theorem restoreWith_eq (h : Untouched d x y) (ctx : List TermT) (clock : Nat) :
    y.restoreWith d ctx clock = x.restoreWith d ctx clock := by
  unfold Session.restoreWith Session.setContext
  rw [h.sigs.restoreVersions_eq clock]
  conv_lhs => rw [h.rest]

theorem ask_eq [DecidableEq S] (h : Untouched d x y) (ctx : List TermT) (cand : Candidate S) :
    y.ask d ctx cand = x.ask d ctx cand := by
  unfold Session.ask
  rw [h.stack, h.restoreWith_eq]

end Session.Untouched

/-! ## What a trial does -/

/-- A record that makes no term of its own, to a signal whose next version is on
the stack. -/
theorem SigState.Restores.updateTerm {a : SMTAssign S} {st : SigState S}
    (hreg : a.writesReg d.decl = true) (hmakes : a.makesTerm = false)
    (hroom : ∀ s, a.assigned = some s →
      (st.core s).nextVersion + 1 < (st.core s).termStack.length) :
    Restores d.decl st (a.updateTerm d.decl st).st := by
  have hrec := SMTAssign.records d.decl a st
  have hother : ∀ s, (d.decl s).isInput = true →
      (a.updateTerm d.decl st).st.core s = st.core s := by
    intro s hs
    refine hrec.other s fun heq => ?_
    rw [SMTAssign.isInput_of_assigned hreg heq] at hs
    cases hs
  cases htarget : a.target with
  | branch lval =>
      simp only [SMTAssign.updateTerm, htarget]
      exact .refl st
  | assign isCommit lval =>
      cases lval with
      | array arr index => simp [SMTAssign.makesTerm, htarget] at hmakes
      | signal sig index =>
          obtain ⟨-, -, hst⟩ := updateTerm_of_not_makesTerm d.decl htarget hmakes st
          have hlt := hroom sig.parent (by simp [SMTAssign.assigned, htarget, SMTLval.parent])
          have hnot : ¬ (st.core sig.parent).nextVersion + 1 =
              (st.core sig.parent).termStack.length := by omega
          have hfresh : (st.updateNextVersion sig.parent).fresh = st.fresh := by
            simp [SigState.updateNextVersion, SMTSigCore.updateNextVersion, hnot]
          refine ⟨?_, fun s => ?_, versionAtClock_updateTerm a st, fun s hs => by rw [hother s hs]⟩
          · rw [hst]
            split
            · exact hfresh
            · exact hfresh
          · have hstack : ((st.updateNextVersion sig.parent).core s).termStack =
                (st.core s).termStack := by
              rw [SigState.updateNextVersion_core]
              split
              · rename_i hs
                rw [hs, SMTSigCore.updateNextVersion, if_neg hnot]
              · rfl
            rw [hst]
            split
            · rw [SigState.commit_core]
              split
              · rename_i hs
                subst hs
                exact hstack
              · exact hstack
            · exact hstack

namespace Session.Untouched

variable {x y z : Session S}

theorem assertUpdate {a : SMTAssign S} (hreg : a.writesReg d.decl = true)
    (hmakes : a.makesTerm = false)
    (hroom : ∀ s, a.assigned = some s →
      (y.sigs.core s).nextVersion + 1 < (y.sigs.core s).termStack.length) :
    Untouched d y (y.assertUpdate d a) :=
  ⟨rfl, .updateTerm hreg hmakes hroom⟩

/-- The replay of a clock, which makes no more versions than its records did:
`st` are the signals as the scan had them at the same record. -/
theorem replay {st : SigState S} {target : Record S} {recs : List (Record S)}
    {after : List (Constraint S)} (h : Untouched d x y)
    (hle : ∀ s, (d.decl s).isInput = false →
      (y.sigs.core s).nextVersion ≤ (st.core s).nextVersion)
    (hb : st.RegsInBounds d.decl)
    (hmade : AllSteps (stackStep d.decl) (Made d) st (recs.map Constraint.record))
    (hmakes : ∀ r ∈ recs, r.obj.makesTerm = false)
    (hindex : ∀ r ∈ recs, r.index < target.index)
    (hext : SigState.Extends d.decl
      (exec (stackStep d.decl) st (recs.map Constraint.record)) x.sigs)
    (hreplay : y.replay d target (recs.map Constraint.record ++ .record target :: after) =
      some z) : Untouched d x z := by
  induction recs generalizing st y with
  | nil =>
      rw [List.map_nil, List.nil_append, Session.replay, if_pos rfl] at hreplay
      obtain rfl := Option.some.inj hreplay
      exact h
  | cons r recs ih =>
      obtain ⟨⟨-, -, hreg⟩, hrest⟩ := hmade
      obtain ⟨hmake, hmakes⟩ := List.forall_mem_cons.mp hmakes
      obtain ⟨hlt, hindex⟩ := List.forall_mem_cons.mp hindex
      have hrec := SMTAssign.records d.decl r.obj st
      have hb' := hrec.regsInBounds hb
      have hgrow : ∀ s, (st.core s).nextVersion ≤
          ((r.obj.updateTerm d.decl st).st.core s).nextVersion := by
        intro s
        by_cases hs : some s = r.obj.assigned
        · rw [(hrec.bumped s hs).nextVersion]
          omega
        · rw [hrec.other s hs]
      rw [List.map_cons, List.cons_append, Session.replay, if_neg hlt.ne] at hreplay
      split at hreplay
      · -- the record is made again, at most in the version that it had
        have hrec' := SMTAssign.records d.decl r.obj y.sigs
        have hroom : ∀ s, r.obj.assigned = some s →
            (y.sigs.core s).nextVersion + 1 < (y.sigs.core s).termStack.length := by
          intro s hs
          have hinput := SMTAssign.isInput_of_assigned hreg hs.symm
          have hbound := (hb' s hinput).2
          have hlength : ((r.obj.updateTerm d.decl st).st.core s).termStack.length ≤
              (x.sigs.core s).termStack.length :=
            (((extends_exec hrest).trans hext).grown s).length_le
          have hnext := (hrec.bumped s hs.symm).nextVersion
          have hsame := congrArg List.length (h.sigs.termStack s)
          have := hle s hinput
          omega
        refine ih (h.trans (.assertUpdate hreg hmake hroom)) ?_ hb' hrest hmakes hindex hext
          hreplay
        intro s hinput
        show ((r.obj.updateTerm d.decl y.sigs).st.core s).nextVersion ≤
          ((r.obj.updateTerm d.decl st).st.core s).nextVersion
        by_cases hs : some s = r.obj.assigned
        · rw [(hrec.bumped s hs).nextVersion, (hrec'.bumped s hs).nextVersion]
          exact Nat.succ_le_succ (hle s hinput)
        · rw [hrec.other s hs, hrec'.other s hs]
          exact hle s hinput
      · exact ih h (fun s hs => (hle s hs).trans (hgrow s)) hb' hrest hmakes hindex hext hreplay

end Session.Untouched

theorem recorded_scanned {simClk clock : Nat} {st st' : SigState S} {log : List LogRecord}
    {entries : List (Constraint S)} (h : Scanned d simClk clock st log entries st') :
    Trial.Recorded d entries := by
  induction h with
  | stop clock st log => exact fun r hr => absurd hr List.not_mem_nil
  | step hr hpush hrest ih =>
      intro r hmem
      rcases List.mem_append.mp hmem with hmem | hmem
      · cases hpush with
        | clock n => simp at hmem
        | assign id r' hobj hclock hterm hsome =>
            obtain rfl : r = r' := by simpa using hmem
            exact ⟨id, hobj⟩
        | state name value => simp at hmem
      · exact ih r hmem

omit [DecidableEq S] in
theorem Session.IsCandidate.mem_stack {x : Session S} {cand : Candidate S}
    (h : x.IsCandidate d cand) : .record cand.cnst ∈ x.stack := by
  obtain ⟨_, _, h⟩ := h
  exact (exists_of_mem_branches h).1

/-- A candidate is asked about, whatever the solver answers. -/
theorem Session.ask_isSome {x : Session S} {cand : Candidate S}
    {before after : List (Constraint S)} {recs : List (Record S)}
    (h : Around x.stack cand.cnst before recs after) (ctx : List TermT) :
    (x.ask d ctx cand).isSome := by
  unfold ask
  rw [h.dropWhile_eq]
  dsimp only
  rw [Option.isSome_map]
  exact replay_isSome h.recs_index after _

/-- **A trial moves counters only.** After a simulation whose clock markers
increase, asserting the formulas of a candidate makes no term. -/
theorem Session.ask_untouched {x₀ x z : Session S} {log : List LogRecord}
    (hbuild : x₀.simulateBuildStack d log = some x)
    (hne : ∀ s, (x₀.sigs.core s).termStack ≠ [])
    (hmarkers : ((recorded x₀.simClk (.clock 0 :: log)).filterMap LogRecord.marker?).Pairwise
      (· < ·))
    (hmakes : ∀ a ∈ d.assignMap, a.makesTerm = false) {cand : Candidate S}
    (hcand : x.IsCandidate d cand) {ctx : List TermT} (h : x.ask d ctx cand = some z) :
    Untouched d x z := by
  obtain ⟨before, recs, after, hAround⟩ :=
    Session.exists_around hbuild hmarkers hcand.mem_stack
  obtain ⟨_, _, hcand⟩ := hcand
  obtain ⟨-, hscan⟩ := scanned_of_simulate hbuild
  obtain ⟨hmade, hsigs⟩ := made_scanned hscan
  obtain ⟨-, hbr, hbrReg⟩ := mem_branches hcand
  obtain ⟨-, id, -, hget⟩ := exists_of_mem_branches hcand
  obtain ⟨hclock, hext⟩ := made_clock hAround.stack_eq hmade
  have hmakes' : ∀ r ∈ recs, r.obj.makesTerm = false := by
    intro r hr
    obtain ⟨id, hid⟩ := recorded_scanned hscan r
      (mem_filterMap_record?.mp (hAround.mem_recs_iff.mp hr).1)
    exact hmakes r.obj (List.mem_of_getElem? hid)
  unfold ask at h
  rw [hAround.dropWhile_eq] at h
  obtain ⟨y, hreplay, rfl⟩ := Option.map_eq_some_iff.mp h
  have hmatches := hAround.matches_restore hmade
  have hy : Untouched d x y := by
    refine (Untouched.restoreWith x ctx cand.cnst.clock).replay (fun s hs => ?_)
      (regsInBounds_exec (SigState.regsInBounds_clear hne) _) hclock hmakes' hAround.recs_index
      (hsigs ▸ hext) hreplay
    show ((x.sigs.restoreVersions d.decl cand.cnst.clock).core s).nextVersion ≤ _
    rw [hsigs]
    exact (hmatches.next s hs).le
  refine hy.trans (.assertUpdate hbrReg (hmakes cand.br (List.mem_of_getElem? hget)) ?_)
  intro s hs
  -- the condition of an arm assigns nothing
  unfold SMTAssign.isBranch at hbr
  unfold SMTAssign.assigned at hs
  split at hbr
  · rename_i lval htarget
    rw [htarget] at hs
    cases hs
  · cases hbr

end Untouched

/-! ## Independent trials -/

omit [DecidableEq S] in
theorem Session.Untouched.checkSatisfiability {d : Design S} {check : Check} {x y : Session S}
    (h : x.checkSatisfiability d check = some y) : Untouched d x y := by
  unfold Session.checkSatisfiability at h
  dsimp only at h
  split at h
  · cases h
  · obtain rfl := Option.some.inj h
    exact ⟨rfl, .refl _⟩

namespace Trial

variable {d : Design S} {objs : Objects d} {x₀ : Session S} {log : List LogRecord}
  {t u v : Trial d objs} {cand : Candidate S}

/-- After rejected candidates the loop does what it would have done first. -/
theorem ask_of_untouched (hbuild : x₀.simulateBuildStack d log = some t.session)
    (hcand : t.session.IsCandidate d cand) (h : t.session.Untouched d u.session)
    (ctx : List TermT) : (u.ask ctx cand).map Trial.session = t.session.ask d ctx cand := by
  obtain ⟨_, _, hcand⟩ := hcand
  obtain ⟨-, hscan⟩ := Session.scanned_of_simulate hbuild
  obtain ⟨-, id, -, hget⟩ := Session.exists_of_mem_branches hcand
  have hrecorded : Recorded d u.session.stack := h.stack ▸ recorded_scanned hscan
  rw [ask_session ctx hrecorded hget, h.ask_eq]

theorem asserted_of_untouched (hbuild : x₀.simulateBuildStack d log = some t.session)
    (hcand : t.session.IsCandidate d cand) (h : t.session.Untouched d u.session) :
    u.asserted cand =
      (t.session.ask d (t.session.prior d cand) cand).map fun y => y.context := by
  rw [← ask_of_untouched hbuild hcand h, Option.map_map, asserted, h.prior_eq]
  rfl

theorem context_of_untouched (hbuild : x₀.simulateBuildStack d log = some t.session)
    (hcand : t.session.IsCandidate d cand) (h : t.session.Untouched d u.session)
    (check : Check) :
    u.context check cand =
      (t.session.ask d (t.session.dumped d check) cand).map fun y => y.context := by
  rw [← ask_of_untouched hbuild hcand h, Option.map_map, context, h.dumped_eq]
  rfl

section Rejected

variable (hbuild : x₀.simulateBuildStack d log = some t.session)
  (hne : ∀ s, (x₀.sigs.core s).termStack ≠ [])
  (hmarkers : ((recorded x₀.simClk (.clock 0 :: log)).filterMap LogRecord.marker?).Pairwise
    (· < ·))
  (hmakes : ∀ a ∈ d.assignMap, a.makesTerm = false)

include hbuild hne hmarkers hmakes

/-- What rejected candidates leave. -/
theorem Rejects.untouched {cands : List (Candidate S)}
    (hcands : ∀ cand ∈ cands, t.session.IsCandidate d cand) (h : Rejects u cands v)
    (hu : t.session.Untouched d u.session) : t.session.Untouched d v.session := by
  induction h with
  | nil u => exact hu
  | cons check solve htry hrest ih =>
      rename_i u w v cand cands
      obtain ⟨hcand, hcands⟩ := List.forall_mem_cons.mp hcands
      refine ih hcands ?_
      obtain ⟨p, hask, htry⟩ := Option.bind_eq_some_iff.mp htry
      obtain ⟨x, hcheck, heq⟩ := Option.map_eq_some_iff.mp htry
      obtain ⟨-, rfl⟩ := Prod.mk.inj heq
      have hp : t.session.ask d (u.session.dumped d check) cand = some p.session := by
        rw [← ask_of_untouched hbuild hcand hu, hask]
        rfl
      exact (Session.ask_untouched hbuild hne hmarkers hmakes hcand hp).trans
        (.checkSatisfiability hcheck)

/-- **Rejected candidates leave no trace.** After a simulation whose clock
markers increase, in a design without arrays and without bits written at an
index, let a candidate be reached after two sequences of rejected ones. The
formulas asserted for it are the same, also those in the context where the
solver is called; the versions restored at every clock are the same, and no
rejected candidate has made a term. -/
theorem rejected_leave_no_trace {t₁ t₂ : Trial d objs}
    {cands₁ cands₂ : List (Candidate S)}
    (hcands₁ : ∀ cand ∈ cands₁, t.session.IsCandidate d cand)
    (hcands₂ : ∀ cand ∈ cands₂, t.session.IsCandidate d cand) (h₁ : Rejects t cands₁ t₁)
    (h₂ : Rejects t cands₂ t₂) (hcand : t.session.IsCandidate d cand) :
    (∃ formulas, t₁.asserted cand = some formulas ∧ t₂.asserted cand = some formulas) ∧
      (∀ check, t₁.context check cand = t₂.context check cand) ∧
      (∀ n, t₁.session.sigs.restoreVersions d.decl n = t₂.session.sigs.restoreVersions d.decl n) ∧
      (∀ s, (t₁.session.sigs.core s).termStack = (t.session.sigs.core s).termStack) ∧
      t₁.session.sigs.fresh = t.session.sigs.fresh := by
  have hu₁ := h₁.untouched hbuild hne hmarkers hmakes hcands₁ (.refl _)
  have hu₂ := h₂.untouched hbuild hne hmarkers hmakes hcands₂ (.refl _)
  obtain ⟨before, recs, after, hAround⟩ :=
    Session.exists_around hbuild hmarkers hcand.mem_stack
  obtain ⟨y, hask⟩ := Option.isSome_iff_exists.mp
    (Session.ask_isSome (d := d) hAround (t.session.prior d cand))
  refine ⟨?_, fun check => ?_, fun n => ?_, hu₁.sigs.termStack, hu₁.sigs.fresh⟩
  · rw [asserted_of_untouched hbuild hcand hu₁, asserted_of_untouched hbuild hcand hu₂, hask]
    exact ⟨_, rfl, rfl⟩
  · rw [context_of_untouched hbuild hcand hu₁, context_of_untouched hbuild hcand hu₂]
  · rw [hu₁.sigs.restoreVersions_eq, hu₂.sigs.restoreVersions_eq]

/-- With the same answers of the solver the candidate is accepted in both runs,
with the same model, or rejected in both. -/
theorem rejected_same_outcome {t₁ t₂ : Trial d objs}
    {cands₁ cands₂ : List (Candidate S)}
    (hcands₁ : ∀ cand ∈ cands₁, t.session.IsCandidate d cand)
    (hcands₂ : ∀ cand ∈ cands₂, t.session.IsCandidate d cand) (h₁ : Rejects t cands₁ t₁)
    (h₂ : Rejects t cands₂ t₂) (hcand : t.session.IsCandidate d cand) (check solve : Check) :
    (t₁.tryCandidate check solve cand).map (fun r => (r.1, r.2.session)) =
      (t₂.tryCandidate check solve cand).map (fun r => (r.1, r.2.session)) := by
  have hu₁ := h₁.untouched hbuild hne hmarkers hmakes hcands₁ (.refl _)
  have hu₂ := h₂.untouched hbuild hne hmarkers hmakes hcands₂ (.refl _)
  rw [map_tryCandidate, map_tryCandidate, ask_of_untouched hbuild hcand hu₁,
    ask_of_untouched hbuild hcand hu₂, hu₁.dumped_eq, hu₂.dumped_eq]

end Rejected

end Trial

/-! ## The else arm, rejected once -/

/-- The input is one object in both arms. -/
def elseObjects : Objects elseDesign where
  heap := fun addr =>
    match addr with
    | 0 => .leaf (.signal ⟨false, 0, 0, false⟩)
    | 1 => .leaf (.number ⟨['1']⟩)
    | _ => .leaf (.number ⟨['0']⟩)
  assignObj := fun id =>
    match id with
    | 0 => ⟨0, .branch (.leaf 0 (.signal ⟨false, 0, 0, false⟩)), .leaf 1 (.number ⟨['1']⟩), 0, 0⟩
    | 1 =>
        ⟨1, .signal false ⟨true, 0, 0, false⟩ none, .leaf 0 (.signal ⟨false, 0, 0, false⟩), 0, 0⟩
    | _ => ⟨2, .branch (.leaf 0 (.signal ⟨false, 0, 0, false⟩)), .leaf 2 (.number ⟨['0']⟩), 0, 1⟩
  assign_eq := by
    intro id a h
    rcases id with _ | _ | _ | id
    · cases h
      rfl
    · cases h
      rfl
    · cases h
      rfl
    · simp [Design.getAssign, elseDesign] at h
  fits := by
    intro id
    rcases id with _ | _ | id
    · exact ⟨.leaf rfl, .leaf rfl⟩
    · exact ⟨fun e he => absurd he (by simp), .leaf rfl⟩
    · exact ⟨.leaf rfl, .leaf rfl⟩

def elseTrial : Trial elseDesign elseObjects where
  session := elseEnd
  cells := .new
  sound := Cells.sound_new _ _

/-- The solver finds models until it is asked for the answer. -/
theorem else_rejects : ∃ u, Trial.Rejects elseTrial [elseCand] u := by
  have htry : ∃ u, elseTrial.tryCandidate (fun _ => some Valuation.zero) (fun _ => none) elseCand =
      some (none, u) := ⟨_, rfl⟩
  obtain ⟨u, hu⟩ := htry
  exact ⟨u, .cons _ _ hu (.nil u)⟩

theorem else_no_trace : ∃ u, Trial.Rejects elseTrial [elseCand] u ∧
    ∃ formulas, elseTrial.asserted elseCand = some formulas ∧
      u.asserted elseCand = some formulas := by
  obtain ⟨u, hu⟩ := else_rejects
  have hcand : elseTrial.session.IsCandidate elseDesign elseCand :=
    ⟨1, 1, else_branches ▸ List.mem_singleton_self elseCand⟩
  have hcands : ∀ cand ∈ [elseCand], elseTrial.session.IsCandidate elseDesign cand := by
    intro cand hmem
    rw [List.mem_singleton.mp hmem]
    exact hcand
  refine ⟨u, hu, ?_⟩
  exact (Trial.rejected_leave_no_trace (t := elseTrial) (Option.some_get else_built).symm
    (by decide) (by decide) (by decide) (fun _ h => absurd h List.not_mem_nil) hcands (.nil _) hu
    hcand).1

end Conquest
