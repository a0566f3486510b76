import Conquest.Explore.Stack
import Conquest.Smt.Value
import Conquest.Smt.Versions

/-!
# Refine — the constraint stack against Verilog's store

For assignments to whole registers, the formulas on the stack describe the run
that Verilog makes of the same records: a blocking write is visible at once, a
non-blocking one from the next clock marker on, and every version of a register
stands for one assigned value. The counters of a signal simulate the store: the
current version carries the visible value and the next version the pending one.
-/

namespace Conquest

open Bv Run

variable {S : Type} [DecidableEq S]

/-! ## Verilog's store -/

/-- The visible values, the non-blocking writes that wait for the next marker,
and the number of assignments to every signal. -/
structure VerilogState (S : Type) where
  visible : Store S
  pending : S → Option Value
  assigned : S → Nat

namespace VerilogState

/-- A run starts with these values. -/
def start (visible : Store S) : VerilogState S where
  visible := visible
  pending := fun _ => none
  assigned := fun _ => 0

/-- Registers and inputs start at zero. -/
def init (decl : S → SigDecl) : VerilogState S := start fun s => (decl s).zeroValue

/-- A blocking or a non-blocking assignment. -/
def write (isCommit : Bool) (s : S) (v : Value) (vs : VerilogState S) : VerilogState S where
  visible := if isCommit then Function.update vs.visible s v else vs.visible
  pending := if isCommit then vs.pending else Function.update vs.pending s (some v)
  assigned := Function.update vs.assigned s (vs.assigned s + 1)

/-- The next clock: pending writes become visible and the inputs change. -/
def tick (decl : S → SigDecl) (inputs : Store S) (vs : VerilogState S) : VerilogState S where
  visible := fun s =>
    if (decl s).isInput then inputs s else (vs.pending s).getD (vs.visible s)
  pending := fun _ => none
  assigned := vs.assigned

/-- An assignment takes its value from the visible store; an arm changes
nothing. -/
def exec [Encodable S] (decl : S → SigDecl) (a : SMTAssign S) (vs : VerilogState S) :
    VerilogState S :=
  match a.target with
  | .assign isCommit lval => vs.write isCommit lval.parent (a.rval.value decl vs.visible)
  | .branch _ => vs

/-- One record of the log, with the inputs of every clock. -/
def step [Encodable S] (d : Design S) (inputs : Nat → Store S) (vs : VerilogState S) :
    LogRecord → VerilogState S
  | .clock n => vs.tick d.decl (inputs n)
  | .assign id =>
      match d.getAssign id with
      | none => vs
      | some a => vs.exec d.decl a
  | .state _ _ => vs

end VerilogState

/-! ## What a valuation says about a run -/

/-- The value of a version of a signal. -/
def versionValue (decl : S → SigDecl) (ρ : Valuation) (st : SigState S) (s : S) (version : Nat) :
    Value :=
  match (st.core s).termStack[version]? with
  | none => none
  | some id => denote ρ (mkVar (decl s).bvType id)

/-- The version that an assignment makes has the assigned value, or the
condition of the arm holds. -/
def SMTAssign.Agrees [Encodable S] (decl : S → SigDecl) (ρ : Valuation) (st : SigState S)
    (vs : VerilogState S) (a : SMTAssign S) : Prop :=
  match a.target with
  | .assign _ lval =>
      versionValue decl ρ st lval.parent (vs.assigned lval.parent + 1) =
        a.rval.value decl vs.visible
  | .branch lval =>
      lval.value decl vs.visible = a.rval.value decl vs.visible ∧
        (lval.value decl vs.visible).isSome

/-- What a valuation has to say at a record of the log. -/
def Observed [Encodable S] (d : Design S) (ρ : Valuation) (st : SigState S)
    (vs : VerilogState S) : LogRecord → Prop
  | .assign id => ∀ a, d.getAssign id = some a → a.Agrees d.decl ρ st vs
  | _ => True

/-! ## The records covered -/

/-- A branch, or an assignment to a whole register that is not an array. -/
def SMTAssign.Whole (decl : S → SigDecl) (a : SMTAssign S) : Prop :=
  match a.target with
  | .assign _ (.signal sig _) =>
      sig.isWhole decl ∧ sig.isIndexTerm = false ∧ (decl sig.parent).isArray = false ∧
        (decl sig.parent).isInput = false
  | .assign _ (.array _ _) => False
  | .branch _ => True

def LogRecord.Whole (d : Design S) : LogRecord → Prop
  | .assign id => ∀ a, d.getAssign id = some a → a.Whole d.decl
  | _ => True

/-- The signals with a non-blocking write that no marker has made visible. -/
def SMTAssign.waitingAfter (a : SMTAssign S) (p : S → Bool) : S → Bool :=
  match a.target with
  | .assign false lval => Function.update p lval.parent true
  | _ => p

def waitingAfter (d : Design S) (p : S → Bool) : LogRecord → S → Bool
  | .clock _ => fun _ => false
  | .assign id =>
      match d.getAssign id with
      | none => p
      | some a => a.waitingAfter p
  | .state _ _ => p

/-- The record is not a blocking assignment to a waiting signal. -/
def SMTAssign.NoOverlap (p : S → Bool) (a : SMTAssign S) : Prop :=
  match a.target with
  | .assign true lval => p lval.parent = false
  | _ => True

def NoOverlap (d : Design S) (p : S → Bool) : LogRecord → Prop
  | .assign id => ∀ a, d.getAssign id = some a → a.NoOverlap p
  | _ => True

/-! ## Versions and their terms -/

section Versions

omit [DecidableEq S]
variable {decl : S → SigDecl} {ρ : Valuation} {st st' : SigState S}

theorem denote_sigTerm (s : S) (clk : SMTClkType) :
    denote ρ (sigTerm decl st s clk) = versionValue decl ρ st s ((st.core s).version clk) := by
  unfold sigTerm versionValue SMTSigCore.getTerm
  cases (st.core s).termStack[(st.core s).version clk]? <;> rfl

theorem sigTerm_of_core {s : S} (h : st'.core s = st.core s) (clk : SMTClkType) :
    sigTerm decl st' s clk = sigTerm decl st s clk := by
  unfold sigTerm
  rw [h]

/-- The stack of terms grows at its end. -/
theorem versionValue_of_grown {s : S} {version : Nat}
    (h : (st.core s).termStack <+: (st'.core s).termStack)
    (hlt : version < (st.core s).termStack.length) :
    versionValue decl ρ st' s version = versionValue decl ρ st s version := by
  obtain ⟨rest, hrest⟩ := h
  unfold versionValue
  rw [← hrest, List.getElem?_append_left hlt]

theorem versionValue_of_termStack {s : S}
    (h : (st'.core s).termStack = (st.core s).termStack) (version : Nat) :
    versionValue decl ρ st' s version = versionValue decl ρ st s version := by
  unfold versionValue
  rw [h]

theorem versionValue_isSome {s : S} {version : Nat}
    (hlt : version < (st.core s).termStack.length) :
    (versionValue decl ρ st s version).isSome := by
  unfold versionValue
  rw [List.getElem?_eq_getElem hlt]
  rfl

theorem holds_initTerm_iff (d : Design S) (s : S) :
    Holds ρ (d.initTerm st s) ↔ (d.decl s).IsZero (versionValue d.decl ρ st s 0) := by
  unfold Design.initTerm versionValue
  cases (st.core s).termStack[0]? with
  | none => simp [Holds, denote, SigDecl.IsZero, SigDecl.zeroValue]
  | some id => exact SigDecl.holds_initTerm_iff _ _

end Versions

/-! ## The simulation -/

section Simulation

variable {ρ : Valuation} {decl : S → SigDecl}

/-- The current versions carry the visible values and the next versions the
pending ones. The counters of the inputs are not constrained, but for the
current version. -/
structure Simulates (decl : S → SigDecl) (ρ : Valuation) (st : SigState S)
    (vs : VerilogState S) (p : S → Bool) : Prop where
  visible : ∀ s, denote ρ (sigTerm decl st s .curr) = vs.visible s
  next : ∀ s, (decl s).isInput = false →
    denote ρ (sigTerm decl st s .next) = (vs.pending s).getD (vs.visible s)
  assigned : ∀ s, (decl s).isInput = false → (st.core s).nextVersion = vs.assigned s
  inBounds : ∀ s, (decl s).isInput = false → (st.core s).InBounds
  waiting : ∀ s, p s = (vs.pending s).isSome

/-- The state in which an assignment reads its operands carries the same
visible values. -/
theorem Simulates.reads {st : SigState S} {vs : VerilogState S}
    {p : S → Bool} (h : Simulates decl ρ st vs p) {s : S} (hs : (decl s).isInput = false)
    (s' : S) : denote ρ (sigTerm decl (st.updateNextVersion s) s' .curr) = vs.visible s' := by
  rw [← h.visible s', denote_sigTerm, denote_sigTerm, SigState.updateNextVersion_core]
  by_cases heq : s' = s
  · subst heq
    obtain ⟨hcurr, hnext⟩ := h.inBounds s' hs
    rw [if_pos rfl]
    simp only [SMTSigCore.version, SMTSigCore.updateNextVersion_currVersion]
    exact versionValue_of_grown ((extends_updateNextVersion hs st).grown s') (by omega)
  · rw [if_neg heq]
    unfold versionValue
    rw [SigState.updateNextVersion_core, if_neg heq]

/-- The constraint of an assignment to a whole register. -/
theorem updateTerm_whole {a : SMTAssign S} {isCommit : Bool}
    {sig : SMTSignal S} {index : Option (SMTExpr S)}
    (htarget : a.target = .assign isCommit (.signal sig index)) (hwhole : a.Whole decl)
    (st : SigState S) :
    (a.updateTerm decl st).term =
        mkEq (sigTerm decl (st.updateNextVersion sig.parent) sig.parent .next)
          (a.rval.evalTerm decl (st.updateNextVersion sig.parent) .curr) ∧
      (a.updateTerm decl st).st =
        if isCommit then (st.updateNextVersion sig.parent).commit sig.parent
        else st.updateNextVersion sig.parent := by
  unfold SMTAssign.Whole at hwhole
  rw [htarget] at hwhole
  obtain ⟨hbits, hindex, -, -⟩ := hwhole
  have hwrite := constrain_of_whole decl hindex index a.rval (st.updateNextVersion sig.parent)
  have hlval : sig.evalTerm decl (st.updateNextVersion sig.parent) .next =
      sigTerm decl (st.updateNextVersion sig.parent) sig.parent .next := by
    unfold SMTSignal.evalTerm
    rw [if_neg]
    exact fun h => h.1 hbits
  simp only [SMTAssign.updateTerm, htarget, hwrite, signalWrite, hlval]
  cases isCommit <;> simp

/-- The version that a write makes, in every later state. -/
theorem Simulates.written {st stf : SigState S} {vs : VerilogState S} {p : S → Bool}
    (h : Simulates decl ρ st vs p) {s : S} (hs : (decl s).isInput = false)
    (hext : SigState.Extends decl (st.updateNextVersion s) stf) :
    versionValue decl ρ stf s (vs.assigned s + 1) =
        denote ρ (sigTerm decl (st.updateNextVersion s) s .next) ∧
      (versionValue decl ρ stf s (vs.assigned s + 1)).isSome := by
  have hcore := st.updateNextVersion_core s s
  rw [if_pos rfl] at hcore
  have hbounds := (h.inBounds s hs).updateNextVersion st.fresh
  have hnext : ((st.updateNextVersion s).core s).nextVersion = vs.assigned s + 1 := by
    rw [hcore, SMTSigCore.updateNextVersion_nextVersion, h.assigned s hs]
  have hlt : vs.assigned s + 1 < ((st.updateNextVersion s).core s).termStack.length := by
    rw [← hnext, hcore]
    exact hbounds.2
  have heq : versionValue decl ρ stf s (vs.assigned s + 1) =
      versionValue decl ρ (st.updateNextVersion s) s (vs.assigned s + 1) :=
    versionValue_of_grown (hext.grown s) hlt
  rw [denote_sigTerm, SMTSigCore.version, hnext, heq]
  exact ⟨rfl, versionValue_isSome hlt⟩

/-- A new version of another register changes no term. -/
theorem sigTerm_updateNextVersion_ne {s s' : S} (hne : s' ≠ s) (st : SigState S)
    (clk : SMTClkType) :
    sigTerm decl (st.updateNextVersion s) s' clk = sigTerm decl st s' clk :=
  sigTerm_of_core ((st.updateNextVersion_core s s').trans (if_neg hne)) clk

theorem sigTerm_commit_ne {s s' : S} (hne : s' ≠ s) (st : SigState S) (clk : SMTClkType) :
    sigTerm decl (st.commit s) s' clk = sigTerm decl st s' clk :=
  sigTerm_of_core ((st.commit_core s s').trans (if_neg hne)) clk

/-- After a commit both counters are at the next version. -/
theorem sigTerm_commit_self (st : SigState S) (s : S) (clk : SMTClkType) :
    sigTerm decl (st.commit s) s clk = sigTerm decl st s .next := by
  have hcore := (st.commit_core s s).trans (if_pos rfl)
  unfold sigTerm
  rw [hcore]
  cases clk <;> rfl

/-- A non-blocking write keeps the simulation when the version it makes has the
value that Verilog assigns. -/
theorem Simulates.writeNonBlocking {st : SigState S} {vs : VerilogState S} {p : S → Bool}
    (h : Simulates decl ρ st vs p) {s : S} (hs : (decl s).isInput = false) {v : Value}
    (hv : denote ρ (sigTerm decl (st.updateNextVersion s) s .next) = v) :
    Simulates decl ρ (st.updateNextVersion s) (vs.write false s v)
      (Function.update p s true) := by
  constructor
  · exact h.reads hs
  · intro s' hs'
    by_cases hne : s' = s
    · subst hne
      simp [VerilogState.write, hv]
    · rw [sigTerm_updateNextVersion_ne hne, h.next s' hs']
      simp [VerilogState.write, hne]
  · intro s' hs'
    rw [st.updateNextVersion_core]
    by_cases hne : s' = s
    · subst hne
      simp [VerilogState.write, h.assigned s' hs']
    · simp [VerilogState.write, hne, h.assigned s' hs']
  · intro s' hs'
    rw [st.updateNextVersion_core]
    split
    · exact (h.inBounds s hs).updateNextVersion _
    · exact h.inBounds s' hs'
  · intro s'
    by_cases hne : s' = s
    · subst hne
      simp [VerilogState.write]
    · simp [VerilogState.write, hne, h.waiting s']

/-- A blocking write to a register with no pending write likewise. -/
theorem Simulates.writeBlocking {st : SigState S} {vs : VerilogState S} {p : S → Bool}
    (h : Simulates decl ρ st vs p) {s : S} (hs : (decl s).isInput = false) (hno : p s = false)
    {v : Value} (hv : denote ρ (sigTerm decl (st.updateNextVersion s) s .next) = v) :
    Simulates decl ρ ((st.updateNextVersion s).commit s) (vs.write true s v) p := by
  -- the commit would take a pending write with it, and Verilog would not
  have hidle : vs.pending s = none := by
    have := h.waiting s
    rw [hno] at this
    simpa using this.symm
  constructor
  · intro s'
    by_cases hne : s' = s
    · subst hne
      rw [sigTerm_commit_self, hv]
      simp [VerilogState.write]
    · rw [sigTerm_commit_ne hne, h.reads hs s']
      simp [VerilogState.write, hne]
  · intro s' hs'
    by_cases hne : s' = s
    · subst hne
      rw [sigTerm_commit_self, hv]
      simp [VerilogState.write, hidle]
    · rw [sigTerm_commit_ne hne, sigTerm_updateNextVersion_ne hne, h.next s' hs']
      simp [VerilogState.write, hne]
  · intro s' hs'
    rw [SigState.commit_core, st.updateNextVersion_core, st.updateNextVersion_core]
    by_cases hne : s' = s
    · subst hne
      simp [VerilogState.write, h.assigned s' hs']
    · simp [VerilogState.write, hne, h.assigned s' hs']
  · intro s' hs'
    rw [SigState.commit_core, st.updateNextVersion_core, st.updateNextVersion_core]
    by_cases hne : s' = s
    · rw [if_pos hne, if_pos rfl]
      exact ((h.inBounds s hs).updateNextVersion _).commit
    · rw [if_neg hne, if_neg hne]
      exact h.inBounds s' hs'
  · exact h.waiting

omit [DecidableEq S] in
/-- The signal of a whole assignment. -/
theorem SMTAssign.Whole.signal {a : SMTAssign S} (h : a.Whole decl) {isCommit : Bool}
    {lval : SMTLval S} (htarget : a.target = .assign isCommit lval) :
    ∃ sig index, lval = .signal sig index ∧ (decl sig.parent).isInput = false := by
  unfold SMTAssign.Whole at h
  rw [htarget] at h
  cases lval with
  | signal sig index => exact ⟨sig, index, rfl, h.2.2.2⟩
  | array arr index => exact h.elim

variable [Encodable S]

/-- The constraint of a record holds exactly when the record agrees with
Verilog, and the simulation goes on when it does. -/
theorem Simulates.exec {st stf : SigState S} {vs : VerilogState S} {p : S → Bool}
    (h : Simulates decl ρ st vs p) {a : SMTAssign S} (hwhole : a.Whole decl)
    (hno : a.NoOverlap p) (hext : SigState.Extends decl (a.updateTerm decl st).st stf) :
    (Holds ρ (a.updateTerm decl st).term ↔ a.Agrees decl ρ stf vs) ∧
      (a.Agrees decl ρ stf vs →
        Simulates decl ρ (a.updateTerm decl st).st (vs.exec decl a) (a.waitingAfter p)) := by
  unfold SMTAssign.Agrees VerilogState.exec SMTAssign.waitingAfter
  cases htarget : a.target with
  | branch lval =>
      simp only [SMTAssign.updateTerm, htarget]
      rw [holds_mkEq_iff, SMTExpr.denote_evalTerm h.visible, SMTExpr.denote_evalTerm h.visible]
      exact ⟨Iff.rfl, fun _ => h⟩
  | assign isCommit lval =>
      obtain ⟨sig, index, rfl, hs⟩ := hwhole.signal htarget
      obtain ⟨hterm, hst⟩ := updateTerm_whole htarget hwhole st
      -- a blocking write commits, which moves a counter and adds no term
      have hext' : SigState.Extends decl (st.updateNextVersion sig.parent) stf := by
        rw [hst] at hext
        split at hext
        · exact (extends_commit _ _).trans hext
        · exact hext
      obtain ⟨hwritten, hsome⟩ := h.written hs hext'
      simp only [SMTLval.parent]
      rw [hterm, hst, holds_mkEq_iff, ← hwritten, SMTExpr.denote_evalTerm (h.reads hs)]
      refine ⟨and_iff_left hsome, fun hv => ?_⟩
      rw [hwritten] at hv
      unfold SMTAssign.NoOverlap at hno
      rw [htarget] at hno
      cases isCommit with
      | false => exact h.writeNonBlocking hs hv
      | true => exact h.writeBlocking hs hno hv

omit [DecidableEq S] [Encodable S] in
/-- A clock marker makes the pending writes visible and moves the inputs. -/
theorem Simulates.tick {st stf : SigState S} {vs : VerilogState S} {p : S → Bool}
    (h : Simulates decl ρ st vs p) (n : Nat)
    (hext : SigState.Extends decl ((st.setInputVersion decl n).commitVersions decl n) stf) :
    Simulates decl ρ ((st.setInputVersion decl n).commitVersions decl n)
      (vs.tick decl fun s => versionValue decl ρ stf s n) (fun _ => false) := by
  -- the marker commits, so a register reads alike in both versions
  have hreg : ∀ s, (decl s).isInput = false → ∀ clk,
      denote ρ (sigTerm decl ((st.setInputVersion decl n).commitVersions decl n) s clk) =
        (vs.pending s).getD (vs.visible s) := by
    intro s hs clk
    rw [← h.next s hs, denote_sigTerm, denote_sigTerm,
      versionValue_of_termStack (marker_termStack st n s), marker_core, if_neg (by simp [hs])]
    cases clk <;> rfl
  constructor
  · intro s
    cases hs : (decl s).isInput with
    | false =>
        rw [hreg s hs]
        simp [VerilogState.tick, hs]
    | true =>
        rw [denote_sigTerm, marker_core, if_pos hs]
        simp only [SMTSigCore.version, VerilogState.tick, hs, if_true]
        exact (versionValue_of_termStack (hext.inputs s hs) n).symm
  · intro s hs
    rw [hreg s hs]
    simp [VerilogState.tick, hs]
  · intro s hs
    rw [marker_core, if_neg (by simp [hs])]
    exact h.assigned s hs
  · intro s hs
    rw [marker_core, if_neg (by simp [hs])]
    exact (h.inBounds s hs).commit
  · exact fun s => rfl

end Simulation

/-! ## Whole logs -/

section Logs

variable {d : Design S} {ρ : Valuation}

variable [Encodable S]

/-- One record: its formulas hold exactly when the valuation agrees with
Verilog there, and then the simulation goes on. -/
theorem Simulates.step {clock : Nat} {st st' stf : SigState S} {vs : VerilogState S}
    {p : S → Bool} (h : Simulates d.decl ρ st vs p) {r : LogRecord}
    {entries : List (Constraint S)} (hpush : Pushes d clock st r entries st')
    (hwhole : r.Whole d) (hno : NoOverlap d p r) (hext : SigState.Extends d.decl st' stf) :
    ((∀ t ∈ entries.filterMap Constraint.term?, Holds ρ t) ↔ Observed d ρ stf vs r) ∧
      (Observed d ρ stf vs r →
        Simulates d.decl ρ st' (vs.step d (fun n s => versionValue d.decl ρ stf s n) r)
          (waitingAfter d p r)) := by
  cases hpush with
  | clock n =>
      exact ⟨by simp [Constraint.term?, Constraint.record?, Observed], fun _ => h.tick n hext⟩
  | assign id r hobj hclock hterm hsome =>
      obtain ⟨hiff, hgo⟩ := h.exec (hwhole _ hobj) (hno _ hobj) hext
      have hobs : Observed d ρ stf vs (.assign id) ↔ r.obj.Agrees d.decl ρ stf vs := by
        simp [Observed, hobj]
      rw [hobs]
      refine ⟨?_, ?_⟩
      · simpa [Constraint.term?, Constraint.record?, hterm] using hiff
      · simpa [VerilogState.step, waitingAfter, hobj] using hgo
  | state name value => exact ⟨by simp [Observed], fun _ => h⟩

/-- A whole log, from states in simulation. -/
theorem Simulates.scanned {simClk clock : Nat} {st stf : SigState S} {vs : VerilogState S}
    {p : S → Bool} {log : List LogRecord} {entries : List (Constraint S)}
    (hscan : Scanned d simClk clock st log entries stf)
    (hwhole : ∀ r ∈ recorded simClk log, r.Whole d)
    (hno : AllSteps (waitingAfter d) (NoOverlap d) p (recorded simClk log))
    (h : Simulates d.decl ρ st vs p) :
    (∀ t ∈ entries.filterMap Constraint.term?, Holds ρ t) ↔
      AllSteps (VerilogState.step d fun n s => versionValue d.decl ρ stf s n)
        (Observed d ρ stf) vs (recorded simClk log) := by
  induction hscan generalizing vs p with
  | stop clock st log =>
      rw [recorded_stop]
      simp [AllSteps]
  | step hr hpush hrest ih =>
      rw [recorded_cons hr] at hwhole hno ⊢
      obtain ⟨hwhole, hwholes⟩ := List.forall_mem_cons.mp hwhole
      obtain ⟨hno, hnos⟩ := hno
      obtain ⟨hiff, hgo⟩ := h.step hpush hwhole hno (extends_scanned hrest)
      rw [List.filterMap_append, List.forall_mem_append, hiff]
      exact and_congr_right fun hobs => ih hwholes hnos (hgo hobs)

omit [DecidableEq S] [Encodable S] in
/-- The first versions of all signals simulate the store of their values. -/
theorem simulates_first {st : SigState S} (hne : ∀ s, (st.core s).termStack ≠ []) :
    Simulates d.decl ρ st.clearAllVersions
      (VerilogState.start fun s => versionValue d.decl ρ st s 0) fun _ => false where
  visible := fun s => denote_sigTerm s .curr
  next := fun s _ => denote_sigTerm s .next
  assigned := fun _ _ => rfl
  inBounds := fun s _ => ⟨le_rfl, List.length_pos_of_ne_nil (hne s)⟩
  waiting := fun _ => rfl

omit [DecidableEq S] [Encodable S] in
/-- They simulate the initial store when version 0 of every signal is zero. -/
theorem simulates_init {st : SigState S} (hne : ∀ s, (st.core s).termStack ≠ [])
    (hzero : ∀ s, versionValue d.decl ρ st s 0 = (d.decl s).zeroValue) :
    Simulates d.decl ρ st.clearAllVersions (VerilogState.init d.decl) fun _ => false := by
  have hfirst : VerilogState.init d.decl =
      VerilogState.start fun s => versionValue d.decl ρ st s 0 :=
    congrArg VerilogState.start (funext fun s => (hzero s).symm)
  rw [hfirst]
  exact simulates_first hne

omit [DecidableEq S] [Encodable S] in
/-- A simulation keeps the versions 0. -/
theorem versions_first {st st' : SigState S} (hne : ∀ s, (st.core s).termStack ≠ [])
    (h : SigState.Extends d.decl st.clearAllVersions st') :
    (fun s => versionValue d.decl ρ st' s 0) = fun s => versionValue d.decl ρ st s 0 :=
  funext fun s => versionValue_of_grown (h.grown s) (List.length_pos_of_ne_nil (hne s))

/-- **The stack describes Verilog's run.** A valuation satisfies the initial
formulas and all terms on the stack of a simulation exactly when version 0 of
every signal is zero in its elements, every assigned version has the value that
Verilog assigns at its record when it starts with the versions 0, and every
recorded arm is the one its condition selects; the inputs of clock `n` are the
values of their versions `n`. -/
theorem simulateBuildStack_refines {x y : Session S} {log : List LogRecord}
    (hbuild : x.simulateBuildStack d log = some y)
    (hne : ∀ s, (x.sigs.core s).termStack ≠ [])
    (hwhole : ∀ r ∈ recorded x.simClk (.clock 0 :: log), r.Whole d)
    (hno : AllSteps (waitingAfter d) (NoOverlap d) (fun _ => false)
      (recorded x.simClk (.clock 0 :: log))) (ρ : Valuation) :
    ((∀ t ∈ d.regInit y.sigs, Holds ρ t) ∧ ∀ t ∈ y.terms, Holds ρ t) ↔
      (∀ s, (d.decl s).IsZero (versionValue d.decl ρ y.sigs s 0)) ∧
        AllSteps (VerilogState.step d fun n s => versionValue d.decl ρ y.sigs s n)
          (Observed d ρ y.sigs) (VerilogState.start fun s => versionValue d.decl ρ y.sigs s 0)
          (recorded x.simClk (.clock 0 :: log)) := by
  obtain ⟨-, hscan⟩ := Session.scanned_of_simulate hbuild
  have hext := extends_scanned hscan
  simp only [d.forall_regInit_iff, holds_initTerm_iff]
  refine and_congr_right fun _ => ?_
  rw [versions_first hne hext]
  exact (simulates_first hne).scanned hscan hwhole hno

end Logs

/-! ## A flip-flop -/

theorem flop_mem_regList : ∀ s, s ∈ [true] ↔ (!s) = false := by
  decide

theorem flop_mem_inputList : ∀ s, s ∈ [false] ↔ (!s) = true := by
  decide

/-- `if (a) q <= a;`, with the input `a` and the register `q` of one bit. -/
def flopDesign : Design Bool where
  decl := fun s => { width := 1, isInput := !s, indexCount := 1 }
  regList := [true]
  inputList := [false]
  assignMap :=
    [{ id := 0, target := .branch (.leaf (.signal ⟨false, 0, 0, false⟩)),
       rval := .leaf (.number ⟨['1']⟩), process := 0, block := 0 },
     { id := 1, target := .assign false (.signal ⟨true, 0, 0, false⟩ none),
       rval := .leaf (.signal ⟨false, 0, 0, false⟩), process := 0, block := 0 }]
  isEdgeTriggered := fun _ => true
  branchNodes := [[0]]
  hashTable := fun _ => 1
  mem_regList := flop_mem_regList
  mem_inputList := flop_mem_inputList
  id_eq := by decide
  writesReg := by decide
  isBranch := by decide

def flopSession : Session Bool where
  sigs :=
    { core := fun s => SMTSigCore.new 0 (flopDesign.decl s) (if s then 11 else 0)
      fresh := 22 }
  context := []
  stack := []
  hashValue := 0
  pathHashMap := []
  coverage :=
    { coveredInSim := fun _ => none
      atClock := fun _ _ => false
      coveredBranchCount := 0 }
  targetList := [0]
  prevIds := []
  currIds := []
  isNewBlock := false
  simNum := 0
  simClk := 1

/-- One clock in which `a` is one. -/
def flopLog : List LogRecord := [.clock 1, .assign 0, .assign 1, .clock 2]

theorem flop_built : (flopSession.simulateBuildStack flopDesign flopLog).isSome := by
  decide +kernel

def flopEnd : Session Bool := (flopSession.simulateBuildStack flopDesign flopLog).get flop_built

theorem flop_whole : ∀ r ∈ recorded 1 (.clock 0 :: flopLog), r.Whole flopDesign := by
  have hrec : recorded 1 (.clock 0 :: flopLog) = [.clock 0, .clock 1, .assign 0, .assign 1] := by
    decide
  simp only [hrec, List.forall_mem_cons]
  refine ⟨trivial, trivial, ?_, ?_, fun _ h => absurd h List.not_mem_nil⟩
  · intro a ha
    cases ha
    trivial
  · intro a ha
    cases ha
    exact ⟨rfl, rfl, rfl, rfl⟩

theorem flop_noOverlap :
    AllSteps (waitingAfter flopDesign) (NoOverlap flopDesign) (fun _ => false)
      (recorded 1 (.clock 0 :: flopLog)) := by
  refine ⟨trivial, trivial, ?_, ?_, trivial⟩
  · intro a ha
    cases ha
    trivial
  · intro a ha
    cases ha
    trivial

theorem flop_refines :
    ((∀ t ∈ flopDesign.regInit flopEnd.sigs, Holds Valuation.zero t) ∧
        ∀ t ∈ flopEnd.terms, Holds Valuation.zero t) ↔
      (∀ s, (flopDesign.decl s).IsZero
          (versionValue flopDesign.decl Valuation.zero flopEnd.sigs s 0)) ∧
        AllSteps
          (VerilogState.step flopDesign fun n s =>
            versionValue flopDesign.decl Valuation.zero flopEnd.sigs s n)
          (Observed flopDesign Valuation.zero flopEnd.sigs)
          (VerilogState.start fun s =>
            versionValue flopDesign.decl Valuation.zero flopEnd.sigs s 0)
          (recorded 1 (.clock 0 :: flopLog)) :=
  simulateBuildStack_refines (Option.some_get flop_built).symm (by decide) flop_whole
    flop_noOverlap Valuation.zero

end Conquest
