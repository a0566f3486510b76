import Conquest.Explore.Replay

/-!
# Mutate — solving for an alternative branch

`find_next_cfg` tries the alternatives of the recorded branches one by one. For
each it fills the context with the recorded prefix, the replayed records of the
branch's clock and the condition of the alternative; two checks of the recorded
stack on the way reset the context and fill it anew, so that the solver is
asked about the recorded stack.
-/

namespace Conquest

open Bv Run

variable {S : Type} [DecidableEq S]

/-! ## The solver -/

/-- Handles that are not formulas are refused by `yices_assert_formula`. -/
def IsFormula : TermT → Prop
  | some ⟨.bool, _⟩ => True
  | _ => False

/-- The valuation is a model of the context, given by the handles passed to
`yices_assert_formula` since the last reset. -/
def Satisfies (ρ : Valuation) (ctx : List TermT) : Prop := ∀ t ∈ ctx, IsFormula t → Holds ρ t

/-- `yices_check_context` and `yices_get_model`: a model, or none for a context
found unsatisfiable. -/
abbrev Check := List TermT → Option Valuation

/-- A solver whose answers are right. -/
structure Solver where
  check : Check
  sound : ∀ {ctx ρ}, check ctx = some ρ → Satisfies ρ ctx
  complete : ∀ {ctx}, check ctx = none → ∀ ρ, ¬ Satisfies ρ ctx

open Classical in
/-- Some model, whenever there is one. -/
noncomputable def Solver.ideal : Solver where
  check := fun ctx => if h : ∃ ρ, Satisfies ρ ctx then some h.choose else none
  sound := by
    intro ctx ρ h
    split at h
    · rename_i hsat
      exact Option.some.inj h ▸ hsat.choose_spec
    · cases h
  complete := by
    intro ctx h ρ hρ
    rw [dif_pos ⟨ρ, hρ⟩] at h
    cases h

/-! ## Candidates -/

/-- A `br_cnst_t`: an alternative of the branch that was recorded. -/
structure Candidate (S : Type) where
  cnst : Record S
  br : SMTAssign S

/-- The record belongs to a level-sensitive process or to the chosen one. -/
def Design.keeps {S : Type} (d : Design S) (process : Nat) (r : Record S) : Bool :=
  !d.isEdgeTriggered r.obj.process || r.obj.process == process

namespace Session

variable (d : Design S)

/-- `alt_path_hash` of a candidate. -/
def altPathHash (cand : Candidate S) : BitVec 32 :=
  cand.cnst.hashValue + d.hashTable (cand.br.id % 16384) * BitVec.ofNat 32 cand.cnst.index

/-- `is_path_taken`. -/
def isPathTaken (x : Session S) (cand : Candidate S) : Bool :=
  x.pathHashMap.contains (altPathHash d cand)

/-- The alternatives of one record that are not taken. -/
def alternatives (x : Session S) (r : Record S) : List (Candidate S) :=
  if r.obj.isBranch then
    (((d.branchList r.obj.id).filter (· ≠ r.obj.id)).filterMap d.getAssign).map
        (fun br => { cnst := r, br := br }) |>.filter fun cand => !x.isPathTaken d cand
  else []

/-- The `branches` that `find_next_cfg` creates and `get_available_branches`
keeps; entries of clock 0 at the bottom of the stack are skipped. -/
def branches (beginClk endClk : Nat) (x : Session S) : List (Candidate S) :=
  (((x.stack.dropWhile fun c => c.clock = 0).filterMap Constraint.record?).flatMap
      (x.alternatives d)).filter fun cand =>
    beginClk ≤ cand.cnst.clock && cand.cnst.clock ≤ endClk

/-! ## Trying a candidate -/

/-- The context after a reset and assertions. -/
def setContext (ctx : List TermT) (x : Session S) : Session S := { x with context := ctx }

omit [DecidableEq S] in
@[simp] theorem setContext_sigs (ctx : List TermT) (x : Session S) :
    (x.setContext ctx).sigs = x.sigs := rfl

omit [DecidableEq S] in
@[simp] theorem setContext_stack (ctx : List TermT) (x : Session S) :
    (x.setContext ctx).stack = x.stack := rfl

omit [DecidableEq S] in
@[simp] theorem setContext_context (ctx : List TermT) (x : Session S) :
    (x.setContext ctx).context = ctx := rfl

omit [DecidableEq S] in
@[simp] theorem setContext_terms (ctx : List TermT) (x : Session S) :
    (x.setContext ctx).terms = x.terms := rfl

omit [DecidableEq S] in
@[simp] theorem setContext_setContext (ctx ctx' : List TermT) (x : Session S) :
    (x.setContext ctx).setContext ctx' = x.setContext ctx' := rfl

/-- The loop of `smt_yices_dump_error`: assert the terms until the context is
unsatisfiable. -/
def dumpLoop (check : Check) : List TermT → List TermT → List TermT
  | ctx, [] => ctx
  | ctx, t :: ts =>
      if (check (ctx ++ [t])).isNone then ctx ++ [t]
      else dumpLoop check (ctx ++ [t]) ts

/-- `smt_yices_dump_error`. -/
def dumpError (check : Check) (x : Session S) : Session S :=
  x.setContext (dumpLoop check (d.regInit x.sigs) x.terms)

/-- `check_satisfiability`; the program ends in `error` when the recorded stack
is unsatisfiable. -/
def checkSatisfiability (check : Check) (x : Session S) : Option (Session S) :=
  let x := x.setContext (d.regInit x.sigs ++ x.terms)
  if (check x.context).isNone then none
  else some (x.dumpError d check)

/-- Asserting the constraint of a record in the current versions. -/
def assertUpdate (assign : SMTAssign S) (x : Session S) : Session S :=
  let u := assign.updateTerm d.decl x.sigs
  { x with sigs := u.st, context := x.context ++ u.side ++ [u.term] }

/-- The loop that replays the records of a clock up to the target. A marker has
no object to ask for its process. -/
def replay (target : Record S) : List (Constraint S) → Session S → Option (Session S)
  | [], _ => none
  | .clk _ :: _, _ => none
  | .record r :: rest, x =>
      if r.index = target.index then some x
      else if d.keeps target.obj.process r then replay target rest (x.assertUpdate d r.obj)
      else replay target rest x

/-- The context with the records before the clock, and the versions of the
clock. `smt_yices_dump_error` already replaces the context here. -/
def fillPrior (check : Check) (clock : Nat) (x : Session S) : Session S :=
  let prior := (x.stack.takeWhile fun c => c.clock ≠ clock).filterMap Constraint.term?
  let x := (x.setContext (d.regInit x.sigs ++ prior)).dumpError d check
  { x with sigs := x.sigs.restoreVersions d.decl clock }

/-- One candidate, up to the answer of `solve_constraints`. The entry at which
the loop over the prior records stops is asserted to be a marker. -/
def tryCandidate (check : Check) (cand : Candidate S) (x : Session S) :
    Option (Option Valuation × Session S) :=
  match x.stack.dropWhile fun c => c.clock ≠ cand.cnst.clock with
  | .clk _ :: rest =>
      ((x.fillPrior d check cand.cnst.clock).replay d cand.cnst rest).bind fun x =>
        ((x.assertUpdate d cand.br).checkSatisfiability d check).map fun x =>
          (check x.context, x)
  | _ => none

/-- The loop over the candidates: the accepted one with its model, or none. -/
def tryCandidates (check : Check) :
    List (Candidate S) → Session S → Option (Option (Candidate S × Valuation) × Session S)
  | [], x => some (none, x)
  | cand :: cands, x =>
      (x.tryCandidate d check cand).bind fun
        | (some model, x) => some (some (cand, model), x)
        | (none, x) => x.tryCandidates check cands

/-! ## What the solver should be asked -/

def records (x : Session S) : List (Record S) := x.stack.filterMap Constraint.record?

/-- The records of the candidate's clock that come before it and are
replayed. -/
def replayed (cand : Candidate S) (x : Session S) : List (Record S) :=
  x.records.filter fun r =>
    r.clock = cand.cnst.clock && r.index < cand.cnst.index && d.keeps cand.cnst.obj.process r

/-- The condition of the alternative, after the replay. -/
def mutatedTerm (cand : Candidate S) (x : Session S) : TermT :=
  (cand.br.updateTerm d.decl (replayState d.decl
    (x.sigs.restoreVersions d.decl cand.cnst.clock) ((x.replayed d cand).map Record.obj))).term

/-- The initial formulas, the recorded constraints of the clocks before, the
replayed constraints of the clock, and the condition of the alternative. -/
def expectedContext (cand : Candidate S) (x : Session S) : List TermT :=
  d.regInit x.sigs ++ (x.records.filter fun r => r.clock < cand.cnst.clock).map Record.term ++
    replayTerms d.decl (x.sigs.restoreVersions d.decl cand.cnst.clock)
      ((x.replayed d cand).map Record.obj) ++
    [x.mutatedTerm d cand]

variable {d}

/-! ## What the solver is asked -/

/-- What a try leaves as it is. -/
structure Kept (d : Design S) (x y : Session S) : Prop where
  stack : y.stack = x.stack
  sigs : SigState.Extends d.decl x.sigs y.sigs
  versionAtClock : ∀ s, (y.sigs.core s).versionAtClock = (x.sigs.core s).versionAtClock

omit [DecidableEq S] in
theorem Kept.refl (x : Session S) : Kept d x x := ⟨rfl, .refl _, fun _ => rfl⟩

omit [DecidableEq S] in
theorem Kept.trans {x y z : Session S} (h : Kept d x y) (h' : Kept d y z) : Kept d x z :=
  ⟨h'.stack.trans h.stack, h.sigs.trans h'.sigs,
    fun s => (h'.versionAtClock s).trans (h.versionAtClock s)⟩

theorem kept_assertUpdate {assign : SMTAssign S} (h : assign.writesReg d.decl = true)
    (x : Session S) : Kept d x (x.assertUpdate d assign) :=
  ⟨rfl, extends_updateTerm h x.sigs, versionAtClock_updateTerm assign x.sigs⟩

omit [DecidableEq S] in
theorem kept_fillPrior (check : Check) (clock : Nat) (x : Session S) :
    Kept d x (x.fillPrior d check clock) := by
  refine ⟨rfl, extends_restore x.sigs clock, fun s => ?_⟩
  show ((x.sigs.restoreVersions d.decl clock).core s).versionAtClock = _
  rw [restore_core]
  split <;> rfl

theorem kept_replay {target : Record S} {entries : List (Constraint S)} {x y : Session S}
    (hreg : ∀ r, .record r ∈ entries → r.obj.writesReg d.decl = true)
    (h : x.replay d target entries = some y) : Kept d x y := by
  induction entries generalizing x with
  | nil => cases h
  | cons c entries ih =>
      have hregs := fun r hr => hreg r (List.mem_cons_of_mem _ hr)
      cases c with
      | clk n => cases h
      | record r =>
          rw [replay] at h
          split at h
          · obtain rfl := Option.some.inj h
            exact .refl x
          · split at h
            · exact (kept_assertUpdate (hreg r List.mem_cons_self) x).trans (ih hregs h)
            · exact ih hregs h

/-- A satisfiable stack is asserted to its end. -/
theorem dumpLoop_eq {solver : Solver} {ctx ts : List TermT}
    (h : (solver.check (ctx ++ ts)).isSome) : dumpLoop solver.check ctx ts = ctx ++ ts := by
  induction ts generalizing ctx with
  | nil => exact (List.append_nil ctx).symm
  | cons t ts ih =>
      rw [List.append_cons] at h
      obtain ⟨ρ, hρ⟩ := Option.isSome_iff_exists.mp h
      have hstep : ¬ (solver.check (ctx ++ [t])).isNone := by
        intro hnone
        refine solver.complete (Option.isNone_iff_eq_none.mp hnone) ρ fun u hu => ?_
        exact solver.sound hρ u (List.mem_append_left _ hu)
      rw [dumpLoop, if_neg hstep, ih h, List.append_cons ctx t ts]

omit [DecidableEq S] in
/-- `check_satisfiability` ends in `error`, or it leaves the recorded stack in the
context. -/
theorem checkSatisfiability_eq (solver : Solver) (x : Session S) :
    x.checkSatisfiability d solver.check =
      if (solver.check (d.regInit x.sigs ++ x.terms)).isSome then
        some (x.setContext (d.regInit x.sigs ++ x.terms))
      else none := by
  unfold checkSatisfiability
  dsimp only
  rw [setContext_context]
  cases hcheck : solver.check (d.regInit x.sigs ++ x.terms) with
  | none => rfl
  | some ρ =>
      unfold dumpError
      rw [setContext_sigs, setContext_terms, setContext_setContext, dumpLoop_eq (by simp [hcheck])]
      rfl

/-- **A try asks about the recorded stack.** Whatever was replayed, the solver is
asked about the initial formulas and all recorded constraints, of which
`check_satisfiability` has just found a model. -/
theorem tryCandidate_spec {solver : Solver} {cand : Candidate S} {x y : Session S}
    {model? : Option Valuation}
    (hreg : ∀ r, .record r ∈ x.stack → r.obj.writesReg d.decl = true)
    (hbr : cand.br.writesReg d.decl = true)
    (h : x.tryCandidate d solver.check cand = some (model?, y)) :
    Kept d x y ∧ y.context = d.regInit y.sigs ++ x.terms ∧ solver.check y.context = model? ∧
      model?.isSome := by
  unfold tryCandidate at h
  split at h
  · rename_i n rest hdrop
    obtain ⟨z, hreplay, h⟩ := Option.bind_eq_some_iff.mp h
    obtain ⟨w, hcheck, heq⟩ := Option.map_eq_some_iff.mp h
    cases heq
    have hrest : ∀ r, .record r ∈ rest → r.obj.writesReg d.decl = true := by
      intro r hr
      have hsuffix : Constraint.clk n :: rest <:+ x.stack := hdrop ▸ List.dropWhile_suffix _
      exact hreg r (hsuffix.subset (List.mem_cons_of_mem _ hr))
    have hkept := ((kept_fillPrior solver.check cand.cnst.clock x).trans
      (kept_replay hrest hreplay)).trans (kept_assertUpdate hbr z)
    rw [checkSatisfiability_eq, Option.ite_none_right_eq_some] at hcheck
    obtain ⟨hsat, hcheck⟩ := hcheck
    obtain rfl := Option.some.inj hcheck
    refine ⟨⟨hkept.stack, hkept.sigs, hkept.versionAtClock⟩, ?_, rfl, hsat⟩
    rw [setContext_context, setContext_sigs, terms, hkept.stack]
    rfl
  · cases h

/-- No candidate is turned down: the first one is accepted, or the program ends
in `error`. -/
theorem tryCandidates_eq_some {solver : Solver} {cands : List (Candidate S)}
    {cand : Candidate S} {model : Valuation} {x y : Session S}
    (hreg : ∀ r, .record r ∈ x.stack → r.obj.writesReg d.decl = true)
    (hbr : ∀ cand ∈ cands, cand.br.writesReg d.decl = true)
    (h : x.tryCandidates d solver.check cands = some (some (cand, model), y)) :
    (∃ rest, cands = cand :: rest) ∧ x.tryCandidate d solver.check cand = some (some model, y) := by
  cases cands with
  | nil => cases h
  | cons first cands =>
      obtain ⟨⟨model?, z⟩, htry, h⟩ := Option.bind_eq_some_iff.mp h
      obtain ⟨-, -, -, hsome⟩ := tryCandidate_spec hreg (hbr first List.mem_cons_self) htry
      cases model? with
      | none => cases hsome
      | some ρ =>
          cases h
          exact ⟨⟨cands, rfl⟩, htry⟩

end Session

end Conquest
