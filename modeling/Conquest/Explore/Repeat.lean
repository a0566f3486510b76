import Conquest.Explore.Joint
import Conquest.Stmt.Path

/-!
# Repeat — where an accepted candidate leads

The formulas that `solve_constraints` checks are those of the recorded stack, so
that the inputs of its model lead to the records that were there before: along
them Verilog assigns what the model says, every recorded arm has its condition,
and a process passes the records again that it has passed.
-/

namespace Conquest

open Bv Run

variable {S : Type} [DecidableEq S] {d : Design S}

/-! ## Formulas -/

omit [DecidableEq S] in
theorem isFormula_of_holds {ρ : Valuation} {t : TermT} (h : Holds ρ t) : IsFormula t := by
  obtain _ | ⟨τ, t⟩ := t
  · cases h
  · cases τ with
    | bool => trivial
    | bv w => cases h
    | fn d c => cases h

omit [DecidableEq S] in
theorem isFormula_regInit {st : SigState S} (hne : ∀ s, (st.core s).termStack ≠ []) :
    ∀ t ∈ d.regInit st, IsFormula t := by
  rw [d.forall_regInit_iff]
  intro s
  have hpos : 0 < (st.core s).termStack.length := List.length_pos_of_ne_nil (hne s)
  unfold Design.initTerm
  rw [List.getElem?_eq_getElem hpos]
  -- the terms of version 0 can be zero
  have hzero : denote Valuation.zero (mkVar (d.decl s).bvType (st.core s).termStack[0]) =
      (d.decl s).zeroValue := by
    rw [SigDecl.zeroValue]
    cases (d.decl s).bvType <;> rfl
  have hholds : Holds Valuation.zero ((d.decl s).initTerm (st.core s).termStack[0]) := by
    rw [SigDecl.holds_initTerm_iff, hzero]
    exact (d.decl s).isZero_zeroValue
  exact isFormula_of_holds hholds

/-! ## Processes of the design -/

section Processes

variable [Encodable S]

/-- An entry of `assign_map` that a process passes. -/
def VerilogState.passId (d : Design S) (id : Nat) (vs : VerilogState S) : VerilogState S :=
  match d.getAssign id with
  | none => vs
  | some a => vs.exec d.decl a

/-- Processes whose assignments and arms are named by their ids, where `holds`
tells which tests succeed. -/
def Design.dynamics (d : Design S) (holds : Nat → VerilogState S → Bool) :
    Dynamics Nat Nat (VerilogState S) where
  assign := fun _ id vs => vs.passId d id
  holds := holds
  wait := fun vs => vs

/-- The condition of a recorded arm. -/
def Design.observes (d : Design S) (id : Nat) (vs : VerilogState S) : Prop :=
  ∃ a lval, d.getAssign id = some a ∧ a.target = .branch lval ∧
    lval.value d.decl vs.visible = a.rval.value d.decl vs.visible ∧
    (lval.value d.decl vs.visible).isSome

/-- The id that an entry displays. -/
def Registered.id : Registered Nat Nat → Nat
  | .assign _ id => id
  | .branch id => id

/-- The arms are records of arms. -/
def IvlStatement.ArmsOf (d : Design S) {k : IvlKind} (t : IvlStatement Nat Nat k) : Prop :=
  ∀ id ∈ t.arms, (d.getAssign id).any SMTAssign.isBranch

section Ids

variable {ρ : Valuation} {st : SigState S} {inputs : Nat → Store S}
  {holds : Nat → VerilogState S → Bool}

/-- The record of an arm is that of an arm. -/
def ArmOf (d : Design S) (r : Registered Nat Nat) : Prop :=
  ∀ id, r = .branch id → (d.getAssign id).any SMTAssign.isBranch

omit [DecidableEq S] [Encodable S] in
theorem ArmOf.target {id : Nat} (h : ArmOf d (.branch id)) :
    ∃ a lval, d.getAssign id = some a ∧ a.target = .branch lval := by
  have hid := h id rfl
  cases ha : d.getAssign id with
  | none => simp [ha] at hid
  | some a =>
      rw [ha, Option.any_some] at hid
      cases htarget : a.target with
      | assign isCommit lval => simp [SMTAssign.isBranch, htarget] at hid
      | branch lval => exact ⟨a, lval, rfl, htarget⟩

/-- Verilog's step at a record is that of the process. -/
theorem step_id {r : Registered Nat Nat} (h : ArmOf d r) (vs : VerilogState S) :
    vs.step d inputs (.assign r.id) = (d.dynamics holds).pass vs r := by
  cases r with
  | assign isCommit id => rfl
  | branch id =>
      obtain ⟨a, lval, ha, htarget⟩ := h.target
      show vs.passId d id = vs
      simp [VerilogState.passId, ha, VerilogState.exec, htarget]

omit [DecidableEq S] in
/-- The condition of an arm is what a valuation has to say at its record. -/
theorem observes_id {r : Registered Nat Nat} (h : ArmOf d r) {vs : VerilogState S}
    (hobs : Observed d ρ st vs (.assign r.id)) : Observes d.observes vs r := by
  cases r with
  | assign isCommit id => trivial
  | branch id =>
      obtain ⟨a, lval, ha, htarget⟩ := h.target
      have hagrees := hobs a ha
      simp only [SMTAssign.Agrees, htarget] at hagrees
      exact ⟨a, lval, ha, htarget, hagrees.1, hagrees.2⟩

theorem observes_ids {steps : List (Registered Nat Nat)} (harms : ∀ r ∈ steps, ArmOf d r)
    {vs : VerilogState S}
    (h : AllSteps (VerilogState.step d inputs) (Observed d ρ st) vs
      (steps.map fun r => .assign r.id)) :
    AllSteps (d.dynamics holds).pass (Observes d.observes) vs steps := by
  induction steps generalizing vs with
  | nil => trivial
  | cons r steps ih =>
      obtain ⟨harm, harms⟩ := List.forall_mem_cons.mp harms
      obtain ⟨hobs, hrest⟩ := h
      have hstep : vs.step d inputs (.assign r.id) = (d.dynamics holds).pass vs r :=
        step_id harm vs
      rw [hstep] at hrest
      exact ⟨observes_id harm hobs, ih harms hrest⟩

end Ids

end Processes

/-! ## The run that the model describes -/

section Accepted

/-- The recorded stack is what an accepted candidate's model satisfies. -/
theorem accepted_holds {x₀ x y : Session S} {log : List LogRecord} {beginClk endClk : Nat}
    {cands : List (Candidate S)} {cand : Candidate S} {solver : Solver} {model : Valuation}
    (hbuild : x₀.simulateBuildStack d log = some x)
    (hne : ∀ s, (x₀.sigs.core s).termStack ≠ [])
    (hwhole : ∀ a ∈ d.assignMap, a.Whole d.decl)
    (hcands : ∀ c ∈ cands, c ∈ x.branches d beginClk endClk)
    (hfind : x.tryCandidates d solver.check cands = some (some (cand, model), y)) :
    (∀ t ∈ d.regInit x.sigs, Holds model t) ∧ ∀ t ∈ x.terms, Holds model t := by
  obtain ⟨-, hscan⟩ := Session.scanned_of_simulate hbuild
  obtain ⟨hmade, -⟩ := made_scanned hscan
  have hreg : ∀ r, .record r ∈ x.stack → r.obj.writesReg d.decl = true := fun r hr =>
    (hmade.exists_of_mem hr).choose_spec.2.2
  obtain ⟨⟨rest, rfl⟩, htry⟩ := Session.tryCandidates_eq_some hreg
    (fun c hc => (Session.mem_branches (hcands c hc)).2.2) hfind
  obtain ⟨-, -, hbr⟩ := Session.mem_branches (hcands cand List.mem_cons_self)
  obtain ⟨hkept, hcontext, hmodel, -⟩ := Session.tryCandidate_spec hreg hbr htry
  have hne' : ∀ s, (x.sigs.core s).termStack ≠ [] := fun s hnil =>
    hne s (List.prefix_nil.mp (hnil ▸ (extends_scanned hscan).grown s))
  rw [regInit_of_extends hkept.sigs hne'] at hcontext
  have hsat := solver.sound hmodel
  rw [hcontext] at hsat
  constructor
  · intro t ht
    exact hsat t (List.mem_append_left _ ht) (isFormula_regInit hne' t ht)
  · intro t ht
    exact hsat t (List.mem_append_right _ ht) (isFormula_scanned hwhole hscan t ht)

variable [Encodable S]

/-- **An accepted candidate leads back to the recorded path.** In a design of
assignments to whole registers, let `find_next_cfg` accept a candidate. The model
of the solver is zero in the elements of all versions 0, and with its inputs
Verilog's run of the recorded log from there has, at every record, the value that
the model gives to the assigned version or the condition of the recorded arm. A
process whose arms' conditions say what is entered then passes the same records
where it has passed them before, the arm of the candidate among them, and not the
alternative. -/
theorem accepted_repeats {x₀ x y : Session S} {log : List LogRecord} {beginClk endClk : Nat}
    {cands : List (Candidate S)} {cand : Candidate S} {solver : Solver} {model : Valuation}
    (hbuild : x₀.simulateBuildStack d log = some x)
    (hne : ∀ s, (x₀.sigs.core s).termStack ≠ [])
    (hwhole : ∀ a ∈ d.assignMap, a.Whole d.decl)
    (hno : AllSteps (waitingAfter d) (NoOverlap d) (fun _ => false)
      (recorded x₀.simClk (.clock 0 :: log)))
    (hcands : ∀ c ∈ cands, c ∈ x.branches d beginClk endClk)
    (hfind : x.tryCandidates d solver.check cands = some (some (cand, model), y)) :
    let inputs := fun n s => versionValue d.decl model x.sigs s n
    (∀ s, (d.decl s).IsZero (inputs 0 s)) ∧
      AllSteps (VerilogState.step d inputs) (Observed d model x.sigs)
        (VerilogState.start (inputs 0)) (recorded x₀.simClk (.clock 0 :: log)) ∧
      ∀ (t : IvlStatement Nat Nat .stmt) (holds : Nat → VerilogState S → Bool)
        (vs : VerilogState S) (before after : List LogRecord), t.Unwaited → t.ArmsOf d →
        t.Sharp (d.dynamics holds) d.observes (fun _ => false) →
        recorded x₀.simClk (.clock 0 :: log) =
          before ++ ((t.run (d.dynamics holds) vs).steps.map fun r => .assign r.id) ++ after →
        (t.run (d.dynamics holds)
            (Run.exec (VerilogState.step d inputs) (VerilogState.start (inputs 0)) before)).steps =
          (t.run (d.dynamics holds) vs).steps := by
  intro inputs
  obtain ⟨hinit, hterms⟩ := accepted_holds hbuild hne hwhole hcands hfind
  obtain ⟨-, hscan⟩ := Session.scanned_of_simulate hbuild
  have hext := extends_scanned hscan
  have hobs := (Simulates.scanned hscan (fun r _ => r.whole hwhole) hno
    (simulates_first hne)).mp hterms
  rw [← versions_first hne hext] at hobs
  have hzero : ∀ s, (d.decl s).IsZero (inputs 0 s) := fun s =>
    (holds_initTerm_iff d s).mp ((d.forall_regInit_iff _).mp hinit s)
  refine ⟨hzero, hobs, fun t holds vs before after hunwaited harms hsharp hlog => ?_⟩
  rw [hlog, List.append_assoc, allSteps_append, allSteps_append] at hobs
  have hsteps : ∀ r ∈ (t.run (d.dynamics holds) vs).steps, ArmOf d r := by
    rintro r hr id rfl
    exact harms id (t.mem_arms_of_run _ hr)
  exact (t.steps_run_eq hunwaited hsharp (observes_ids hsteps hobs.2.1)).1 nofun

end Accepted

/-! ## The else arm again -/

/-- `if (a) q <= a; else;`. -/
def elseProcess : IvlStatement Nat Nat .stmt := .condit 0 2 (.assign false 1) .null

/-- The bit of `a` as the terms read it. -/
def elseBit (vs : VerilogState Bool) : Value :=
  (SMTExpr.leaf (.signal ⟨false, 0, 0, false⟩)).value elseDesign.decl vs.visible

/-- `if` tests whether `a` is one. -/
def elseHolds (_ : Nat) (vs : VerilogState Bool) : Bool :=
  sameValue (elseBit vs) (some ⟨.bv 1, 1#1⟩)

theorem else_armsOf : elseProcess.ArmsOf elseDesign := by
  intro id hid
  have hid' : id = 0 ∨ id = 2 := by
    simpa [elseProcess, IvlStatement.arms] using hid
  rcases hid' with rfl | rfl <;> rfl

theorem else_whole : ∀ a ∈ elseDesign.assignMap, a.Whole elseDesign.decl := by
  simp only [elseDesign, List.mem_cons, List.not_mem_nil, or_false]
  rintro a (rfl | rfl | rfl)
  · trivial
  · exact ⟨rfl, rfl, rfl, rfl⟩
  · trivial

theorem else_noOverlap :
    AllSteps (waitingAfter elseDesign) (NoOverlap elseDesign) (fun _ => false)
      (recorded 1 (.clock 0 :: elseLog)) := by
  refine ⟨trivial, trivial, ?_, trivial⟩
  intro a ha
  cases ha
  trivial

theorem else_sharp :
    elseProcess.Sharp (elseDesign.dynamics elseHolds) elseDesign.observes fun _ => false := by
  refine ⟨?_, ?_, trivial, trivial⟩
  · rintro vs ⟨a, lval, ha, htarget, heq, -⟩
    cases ha
    cases htarget
    have hone : elseBit vs = some ⟨.bv 1, 1#1⟩ := heq
    show elseHolds 0 vs = true
    rw [elseHolds, hone]
    rfl
  · rintro vs ⟨a, lval, ha, htarget, heq, -⟩
    cases ha
    cases htarget
    have hzero : elseBit vs = some ⟨.bv 1, 0#1⟩ := heq
    show elseHolds 0 vs = false
    rw [elseHolds, hzero]
    rfl

/-- The alternative that `a` is one is accepted, and the process enters the else
arm again. -/
theorem else_repeats :
    ∃ model y,
      elseEnd.tryCandidates elseDesign Solver.ideal.check (elseEnd.branches elseDesign 1 1) =
        some (some (elseCand, model), y) ∧
      (elseProcess.run (elseDesign.dynamics elseHolds)
        (Run.exec (VerilogState.step elseDesign fun n s =>
            versionValue elseDesign.decl model elseEnd.sigs s n)
          (VerilogState.start fun s => versionValue elseDesign.decl model elseEnd.sigs s 0)
          [.clock 0, .clock 1])).steps = [.branch 2] := by
  obtain ⟨model, y, hfind⟩ := else_accepted
  refine ⟨model, y, hfind, ?_⟩
  exact (accepted_repeats (Option.some_get else_built).symm (by decide) else_whole else_noOverlap
    (fun _ hc => hc) hfind).2.2 elseProcess elseHolds (VerilogState.init elseDesign.decl) _ []
    ⟨trivial, trivial⟩ else_armsOf else_sharp rfl

end Conquest
