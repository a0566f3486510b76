import Conquest.Smt.Versions
import Conquest.Smt.Grow

/-!
# Visible — when the assignments of a clock are seen

A record makes the next version of a signal, and a marker commits the last one.
So a scalar that is assigned non-blocking keeps its current term until the
marker, which then shows the last version made in the clock, whichever
assignment it belongs to. An element of an array is committed at once:
`update_term` asks for `is_commit` in the branch of the signals only.
-/

namespace Conquest

open Bv Run

variable {S : Type} {decl : S → SigDecl}

/-! ## A trace -/

/-- What reading a trace does to the signals: a record, the marker that ends a
clock, or the start of a simulation. -/
inductive TraceOp (decl : S → SigDecl) where
  | record (a : SMTAssign S) (reg : a.writesReg decl = true)
  | marker (clock : Nat)
  | clear

/-- An assignment as its clock remembers it: the bits of a signal that it gives
a value, or that it is to an element of an array; the term read as the current
one before it, and the term that its constraint is about. -/
structure SigWrite where
  isCommit : Bool
  isElement : Bool
  bits : Valuation → Nat → Prop
  base : Option Nat
  written : Option Nat

/-- The bits of the left-hand side; a bit at an index depends on its value. -/
def SMTLval.bits (decl : S → SigDecl) (st : SigState S) (lval : SMTLval S) (ρ : Valuation)
    (k : Nat) : Prop :=
  match lval with
  | .signal sig index =>
      if sig.isIndexTerm then
        ∃ e ∈ index, ∃ n, ∃ v : BitVec n, Denotes ρ (e.evalTerm decl st .curr) v ∧ v.toNat = k
      else if sig.isWhole decl then k < (decl sig.parent).width
      else sig.lsb ≤ k ∧ (k : Int) ≤ sig.msb
  | .array _ _ => False

def SMTLval.isElement : SMTLval S → Bool
  | .signal _ _ => false
  | .array _ _ => true

/-- The signals, their current terms at the start of the clock, and the
assignments made to each of them in the clock so far, in order. -/
structure ClockState (S : Type) where
  st : SigState S
  start : S → Option Nat
  writes : S → List SigWrite

namespace ClockState

/-- A new clock. -/
def enter (st : SigState S) : ClockState S where
  st := st
  start := fun s => (st.core s).getTerm .curr
  writes := fun _ => []

variable [DecidableEq S]

/-- The write that an assignment to `lval` makes. -/
def sigWrite (decl : S → SigDecl) (st : SigState S) (a : SMTAssign S) (isCommit : Bool)
    (lval : SMTLval S) : SigWrite where
  isCommit := isCommit
  isElement := lval.isElement
  bits := lval.bits decl st
  base := (st.core lval.parent).getTerm .curr
  written := (a.updateTerm decl st).written

def step (decl : S → SigDecl) (x : ClockState S) : TraceOp decl → ClockState S
  | .record a _ =>
      { x with
        st := (a.updateTerm decl x.st).st
        writes :=
          match a.target with
          | .assign isCommit lval =>
              Function.update x.writes lval.parent
                (x.writes lval.parent ++ [sigWrite decl x.st a isCommit lval])
          | .branch _ => x.writes }
  | .marker clock => enter ((x.st.setInputVersion decl clock).commitVersions decl clock)
  | .clear => enter x.st.clearAllVersions

end ClockState

/-! ## What the records and the marker have to do -/

/-- Of the assignments of a clock, `w` and those of `post` after it, `w` is the last
non-blocking one that gives bit `k` a value. -/
structure LastOn (ρ : Valuation) (k : Nat) (w : SigWrite) (post : List SigWrite) : Prop where
  nonBlocking : w.isCommit = false
  bit : w.bits ρ k
  last : ∀ w' ∈ post, w'.isCommit = false → ¬ w'.bits ρ k

/-- Every write to an element is made to the array that the one before it left,
from the term `start` to the term `last`. -/
def Composed : Option Nat → List SigWrite → Option Nat → Prop
  | start, [], last => start = last
  | start, w :: ws, last => start = w.base ∧ Composed w.written ws last

/-- The record changes what is read of a signal by a blocking assignment only,
and after a non-blocking one every expression is read as before. -/
structure ReadsKept [DecidableEq S] (decl : S → SigDecl) (st : SigState S) (a : SMTAssign S) :
    Prop where
  signals : ∀ s, ((a.updateTerm decl st).st.core s).getTerm .curr ≠ (st.core s).getTerm .curr →
    a.assignType = .blocking ∧ a.assigned = some s
  expressions : a.assignType = .nonBlocking → ∀ e : SMTExpr S,
    e.evalTerm decl (a.updateTerm decl st).st .curr = e.evalTerm decl st .curr

/-- The current term of a register, `curr`, shows the non-blocking assignments of
the clock: the last one to every bit, and every one to an element. -/
structure ShowsWrites (start : Option Nat) (ws : List SigWrite) (curr : Option Nat) : Prop where
  bits : ∀ ρ k pre w post, ws = pre ++ w :: post → LastOn ρ k w post → curr = w.written
  elements : (∃ w ∈ ws, w.isElement ∧ w.isCommit = false) →
    Composed start (ws.filter (·.isElement)) curr

/-- A step delays the non-blocking assignments to the end of their clock. -/
def Delays [DecidableEq S] (x : ClockState S) (op : TraceOp decl) : Prop :=
  match op with
  | .record a _ => ReadsKept decl x.st a
  | .marker clock => ∀ s, (decl s).isInput = false →
      ShowsWrites (x.start s) (x.writes s)
        (((x.st.setInputVersion decl clock).commitVersions decl clock).core s |>.getTerm .curr)
  | .clear => True

/-- When it does: the record is no non-blocking assignment to an element, and
where the clock ends, the last non-blocking assignment to any bit is the last
assignment to its register. -/
def DelayAllowed (x : ClockState S) (op : TraceOp decl) : Prop :=
  match op with
  | .record a _ => ∀ lval, a.target = .assign false lval → lval.isElement = false
  | .marker _ => ∀ s, (decl s).isInput = false →
      ∀ ρ k pre w post, x.writes s = pre ++ w :: post → LastOn ρ k w post → post = []
  | .clear => True

/-! ## One record -/

variable [DecidableEq S] {st : SigState S} {a : SMTAssign S}

omit [DecidableEq S] in
/-- A core whose stack only grew at its end, read at the same version. -/
theorem SMTSigCore.getTerm_of_prefix {c c' : SMTSigCore} (h : c.InBounds)
    (hversion : c'.currVersion = c.currVersion) (hstack : c.termStack <+: c'.termStack) :
    c'.getTerm .curr = c.getTerm .curr := by
  obtain ⟨new, hnew⟩ := hstack
  have hlt : c.currVersion < c.termStack.length := Nat.lt_of_le_of_lt h.1 h.2
  show c'.termStack[c'.currVersion]? = c.termStack[c.currVersion]?
  rw [hversion, ← hnew, List.getElem?_append_left hlt]

/-- A non-blocking assignment to a signal leaves all current versions. -/
theorem currVersion_updateTerm {sig : SMTSignal S} {index : Option (SMTExpr S)}
    (ha : a.target = .assign false (.signal sig index)) (s : S) :
    ((a.updateTerm decl st).st.core s).currVersion = (st.core s).currVersion := by
  have hcore : (a.updateTerm decl st).st.core = (st.updateNextVersion sig.parent).core := by
    simp only [SMTAssign.updateTerm, ha, Bool.false_eq_true, if_false, constrain]
    split <;> rfl
  rw [hcore, SigState.updateNextVersion_core]
  split
  · rename_i hs
    rw [hs, SMTSigCore.updateNextVersion_currVersion]
  · rfl

/-- An element is committed with its assignment. -/
theorem core_updateTerm_array {isCommit : Bool} {arr : SMTArray S} {index : SMTExpr S}
    (ha : a.target = .assign isCommit (.array arr index)) :
    (a.updateTerm decl st).st.core arr.parent =
      ((st.core arr.parent).arrayUpdateTerm st.fresh).commit := by
  simp [SMTAssign.updateTerm, ha, arrayWrite, SigState.commit_core, SigState.arrayUpdateTerm]

theorem curr_updateTerm_array {isCommit : Bool} {arr : SMTArray S} {index : SMTExpr S}
    (ha : a.target = .assign isCommit (.array arr index)) :
    ((a.updateTerm decl st).st.core arr.parent).getTerm .curr =
      ((st.core arr.parent).termStack ++ [st.fresh])[(st.core arr.parent).nextVersion + 1]? := by
  rw [core_updateTerm_array ha]
  rfl

/-- What is read of an array changes with every assignment to an element. -/
theorem curr_updateTerm_array_ne (hregs : st.RegsInBounds decl) (hbelow : st.Below)
    (hdistinct : st.Distinct) (reg : a.writesReg decl = true) {isCommit : Bool} {arr : SMTArray S}
    {index : SMTExpr S} (ha : a.target = .assign isCommit (.array arr index)) :
    ((a.updateTerm decl st).st.core arr.parent).getTerm .curr ≠
      (st.core arr.parent).getTerm .curr := by
  have hreg : (decl arr.parent).isInput = false := by
    refine SMTAssign.isInput_of_assigned reg ?_
    simp only [SMTAssign.assigned, ha, SMTLval.parent]
  obtain ⟨hcurr, hnext⟩ := hregs arr.parent hreg
  have hlt : (st.core arr.parent).currVersion < (st.core arr.parent).termStack.length := by omega
  have hold : (st.core arr.parent).getTerm .curr =
      some ((st.core arr.parent).termStack[(st.core arr.parent).currVersion]) :=
    List.getElem?_eq_getElem hlt
  rw [curr_updateTerm_array ha, hold]
  intro heq
  by_cases hend : (st.core arr.parent).nextVersion + 1 = (st.core arr.parent).termStack.length
  · -- the pushed term is a new one
    rw [hend, List.getElem?_append_right le_rfl, Nat.sub_self, List.getElem?_cons_zero] at heq
    have hfresh := hbelow arr.parent _ (List.getElem_mem hlt)
    have := Option.some.inj heq
    omega
  · -- an older term of the array, of another version
    rw [List.getElem?_append_left (by omega)] at heq
    have hsame := hdistinct _ _ _ _ _ heq (List.getElem?_eq_getElem hlt)
    omega

/-- **Which records delay their assignment.** -/
theorem readsKept_iff (hregs : st.RegsInBounds decl) (hbelow : st.Below) (hdistinct : st.Distinct)
    (reg : a.writesReg decl = true) :
    ReadsKept decl st a ↔
      ∀ lval, a.target = .assign false lval → lval.isElement = false := by
  have hrec := SMTAssign.records decl a st
  constructor
  · intro h lval ha
    cases lval with
    | signal sig index => rfl
    | array arr index =>
        have hchanged := curr_updateTerm_array_ne hregs hbelow hdistinct reg ha
        have htype := (h.signals arr.parent hchanged).1
        simp [SMTAssign.assignType, ha] at htype
  · intro h
    have hsignals : ∀ s, ((a.updateTerm decl st).st.core s).getTerm .curr ≠
        (st.core s).getTerm .curr → a.assignType = .blocking ∧ a.assigned = some s := by
      intro s hchanged
      have hassigned : some s = a.assigned := by
        by_contra hne
        exact hchanged (by rw [hrec.other s hne])
      have hreg := SMTAssign.isInput_of_assigned reg hassigned
      refine ⟨?_, hassigned.symm⟩
      cases htarget : a.target with
      | branch lval => simp [SMTAssign.assigned, htarget] at hassigned
      | assign isCommit lval =>
          cases isCommit with
          | true => simp only [SMTAssign.assignType, htarget]
          | false =>
              have helement := h lval htarget
              cases lval with
              | array arr index => cases helement
              | signal sig index =>
                  refine absurd ?_ hchanged
                  exact SMTSigCore.getTerm_of_prefix (hregs s hreg)
                    (currVersion_updateTerm htarget s) ((extends_updateTerm reg st).grown s)
    refine ⟨hsignals, fun htype e => SMTExpr.evalTerm_of_sigTerm decl (fun s => ?_) e⟩
    have hkept : ((a.updateTerm decl st).st.core s).getTerm .curr = (st.core s).getTerm .curr := by
      by_contra hne
      have hblocking := (hsignals s hne).1
      rw [htype] at hblocking
      cases hblocking
    simp only [sigTerm, hkept]

/-! ## The clock so far -/

/-- What is known of the assignments of a clock that no step has shown too
early: the one followed by `n` others made the version `n` below the next one. -/
structure SMTSigCore.Remembers (c : SMTSigCore) (ws : List SigWrite) : Prop where
  elements : ∀ w ∈ ws, w.isElement = true → w.isCommit = true ∧ ∀ ρ k, ¬ w.bits ρ k
  versions : ∀ pre w post, ws = pre ++ w :: post → w.isElement = false →
    ∃ v, v + post.length = c.nextVersion ∧ v < c.termStack.length ∧
      w.written = c.termStack[v]?

structure ClockState.Inv (decl : S → SigDecl) (x : ClockState S) : Prop where
  regs : x.st.RegsInBounds decl
  below : x.st.Below
  distinct : x.st.Distinct
  remembers : ∀ s, (x.st.core s).Remembers (x.writes s)

namespace SMTSigCore.Remembers

variable {c c' : SMTSigCore} {ws : List SigWrite} {w : SigWrite}

omit [DecidableEq S]

theorem nil (c : SMTSigCore) : c.Remembers [] where
  elements := fun _ hw => absurd hw List.not_mem_nil
  versions := by
    intro pre w post hws
    simp at hws

/-- One more assignment, for which the counter went up by one. -/
theorem push {fresh fresh' : Nat} (h : c.Remembers ws) (hbump : Bumped fresh fresh' c c')
    (hbounds : c'.InBounds)
    (helement : w.isElement = true → w.isCommit = true ∧ ∀ ρ k, ¬ w.bits ρ k)
    (hwritten : w.isElement = false → w.written = c'.getTerm .next) :
    c'.Remembers (ws ++ [w]) where
  elements := by
    intro w' hw'
    rcases List.mem_append.mp hw' with hw' | hw'
    · exact h.elements w' hw'
    · rw [List.mem_singleton.mp hw']
      exact helement
  versions := by
    intro pre w' post hws hsignal
    rcases List.eq_nil_or_concat post with rfl | ⟨post, last, rfl⟩
    · -- the assignment just made
      obtain ⟨-, hlast⟩ := List.append_inj' hws rfl
      obtain rfl := List.singleton_inj.mp hlast
      exact ⟨c'.nextVersion, rfl, hbounds.2, hwritten hsignal⟩
    · -- an earlier one, now followed by one more
      rw [List.concat_eq_append, ← List.cons_append, ← List.append_assoc] at hws
      obtain ⟨hws, -⟩ := List.append_inj' hws rfl
      obtain ⟨v, hv, hlt, hterm⟩ := h.versions pre w' post hws hsignal
      obtain ⟨new, hnew, -⟩ := hbump.termStack
      refine ⟨v, ?_, ?_, ?_⟩
      · rw [hbump.nextVersion, List.length_concat]
        omega
      · rw [hnew, List.length_append]
        omega
      · rw [hnew, List.getElem?_append_left hlt, hterm]

end SMTSigCore.Remembers

omit [DecidableEq S] in
/-- **What the marker shows of a register.** -/
theorem showsWrites_iff {x : ClockState S} (h : x.Inv decl) (clock : Nat) {s : S}
    (hs : (decl s).isInput = false) :
    ShowsWrites (x.start s) (x.writes s)
        ((((x.st.setInputVersion decl clock).commitVersions decl clock).core s).getTerm .curr) ↔
      ∀ ρ k pre w post, x.writes s = pre ++ w :: post → LastOn ρ k w post → post = [] := by
  have hcurr : (((x.st.setInputVersion decl clock).commitVersions decl clock).core s).getTerm
      .curr = (x.st.core s).termStack[(x.st.core s).nextVersion]? := by
    rw [marker_core, if_neg (by simp [hs])]
    rfl
  have hrem := h.remembers s
  have hmade : ∀ pre w post ρ k, x.writes s = pre ++ w :: post → w.bits ρ k →
      ∃ v, v + post.length = (x.st.core s).nextVersion ∧ v < (x.st.core s).termStack.length ∧
        w.written = (x.st.core s).termStack[v]? := by
    intro pre w post ρ k hws hbit
    refine hrem.versions pre w post hws ?_
    by_contra helement
    have hw : w ∈ x.writes s := hws ▸ List.mem_append_right _ List.mem_cons_self
    exact (hrem.elements w hw (by simpa using helement)).2 ρ k hbit
  rw [hcurr]
  constructor
  · intro hshows ρ k pre w post hws hlast
    have hterm := hshows.bits ρ k pre w post hws hlast
    obtain ⟨v, hv, hlt, hwritten⟩ := hmade pre w post ρ k hws hlast.bit
    -- different versions have different terms
    rw [hwritten, List.getElem?_eq_getElem hlt] at hterm
    have hsame := (h.distinct _ _ _ _ _ hterm (List.getElem?_eq_getElem hlt)).2
    rw [← List.length_eq_zero_iff]
    omega
  · intro hlasts
    refine ⟨fun ρ k pre w post hws hlast => ?_, ?_⟩
    · obtain ⟨v, hv, -, hwritten⟩ := hmade pre w post ρ k hws hlast.bit
      rw [hlasts ρ k pre w post hws hlast, List.length_nil, Nat.add_zero] at hv
      rw [hwritten, hv]
    · rintro ⟨w, hw, helement, hcommit⟩
      rw [(hrem.elements w hw helement).1] at hcommit
      cases hcommit

/-! ## Runs -/

/-- The constraint of an assignment to a signal is about its next version. -/
theorem written_updateTerm {isCommit : Bool} {sig : SMTSignal S} {index : Option (SMTExpr S)}
    (ha : a.target = .assign isCommit (.signal sig index)) :
    (a.updateTerm decl st).written =
      ((a.updateTerm decl st).st.core sig.parent).getTerm .next := by
  have hwritten : ∀ st' : SigState S, (constrain decl sig index a.rval st').written =
      ((constrain decl sig index a.rval st').st.core sig.parent).getTerm .next := by
    intro st'
    unfold constrain
    split <;> rfl
  simp only [SMTAssign.updateTerm, ha]
  split
  · rw [SigState.commit_core, if_pos rfl, SMTSigCore.getTerm_next_commit]
    exact hwritten _
  · exact hwritten _

/-- A record leaves the other signals, and what is known of them. -/
theorem ClockState.step_record_other (x : ClockState S) (reg : a.writesReg decl = true) {s : S}
    (hs : some s ≠ a.assigned) :
    (x.step decl (.record a reg)).st.core s = x.st.core s ∧
      (x.step decl (.record a reg)).writes s = x.writes s := by
  refine ⟨(SMTAssign.records decl a x.st).other s hs, ?_⟩
  cases htarget : a.target with
  | branch lval => simp only [ClockState.step, htarget]
  | assign isCommit lval =>
      have hne : s ≠ lval.parent := by simpa [SMTAssign.assigned, htarget] using hs
      simp only [ClockState.step, htarget, Function.update_of_ne hne]

namespace ClockState.Inv

omit [DecidableEq S] in
/-- A clock that has just begun. -/
theorem enter (hregs : st.RegsInBounds decl) (hbelow : st.Below) (hdistinct : st.Distinct) :
    (ClockState.enter st).Inv decl :=
  ⟨hregs, hbelow, hdistinct, fun s => .nil (st.core s)⟩

theorem record {x : ClockState S} (h : x.Inv decl) (reg : a.writesReg decl = true)
    (hallowed : DelayAllowed x (.record a reg)) : (x.step decl (.record a reg)).Inv decl := by
  have hrec := SMTAssign.records decl a x.st
  have hregs := hrec.regsInBounds h.regs
  refine ⟨hregs, hrec.below h.below, hrec.distinct h.below h.distinct, fun s => ?_⟩
  by_cases hs : some s = a.assigned
  · cases htarget : a.target with
    | branch lval => simp [SMTAssign.assigned, htarget] at hs
    | assign isCommit lval =>
        obtain rfl : s = lval.parent := by simpa [SMTAssign.assigned, htarget] using hs
        have hpush := (h.remembers lval.parent).push
          (w := ClockState.sigWrite decl x.st a isCommit lval) (hrec.bumped _ hs)
          (hregs _ (SMTAssign.isInput_of_assigned reg hs))
        simp only [ClockState.step, htarget, Function.update_self]
        refine hpush ?_ ?_
        · intro helement
          refine ⟨?_, fun ρ k => ?_⟩
          · by_contra hcommit
            have hfalse : isCommit = false := by simpa [ClockState.sigWrite] using hcommit
            rw [hfalse] at htarget
            have hsignal := hallowed lval htarget
            rw [show lval.isElement = true from helement] at hsignal
            cases hsignal
          · cases lval with
            | signal sig index => cases helement
            | array arr index => exact id
        · intro hsignal
          cases lval with
          | signal sig index => exact written_updateTerm htarget
          | array arr index => cases hsignal
  · obtain ⟨hcore, hwrites⟩ := x.step_record_other reg hs
    rw [hcore, hwrites]
    exact h.remembers s

theorem step {x : ClockState S} (h : x.Inv decl) {op : TraceOp decl}
    (hallowed : DelayAllowed x op) : (x.step decl op).Inv decl := by
  cases op with
  | record a reg => exact h.record reg hallowed
  | marker clock =>
      refine enter (h.regs.marker clock) ?_ (h.distinct.of_termStack (marker_termStack x.st clock))
      intro s id hid
      rw [marker_termStack] at hid
      exact h.below s id hid
  | clear =>
      refine enter (fun s hs => ⟨le_rfl, ?_⟩) h.below h.distinct
      exact Nat.zero_lt_of_lt (h.regs s hs).2

end ClockState.Inv

theorem delays_iff {x : ClockState S} (h : x.Inv decl) (op : TraceOp decl) :
    Delays x op ↔ DelayAllowed x op := by
  cases op with
  | record a reg => exact readsKept_iff h.regs h.below h.distinct reg
  | marker clock => exact forall_congr' fun s => forall_congr' fun hs => showsWrites_iff h clock hs
  | clear => exact Iff.rfl

/-- **Non-blocking assignments over whole runs.** From freshly constructed
signals, reads within a clock change by blocking assignments only and every
marker shows all the non-blocking assignments of its clock, exactly when no
element of an array is assigned non-blocking and, in every clock, the last
non-blocking assignment to a bit of a register is the last assignment to it. -/
theorem nonBlocking_delayed_iff {gUnroll : Nat} (h : SigState.Constructed decl gUnroll st)
    (ops : List (TraceOp decl)) :
    AllSteps (ClockState.step decl) Delays (.enter st) ops ↔
      AllSteps (ClockState.step decl) DelayAllowed (.enter st) ops := by
  have hok := ok_of_constructed h
  have hinv : (ClockState.enter st).Inv decl :=
    .enter (fun s _ => (hok s).inBounds) h.below h.distinct
  have hstep : ∀ (x : ClockState S) op, x.Inv decl → (Delays x op ↔ DelayAllowed x op) :=
    fun _ op hx => delays_iff hx op
  exact allSteps_iff hstep (fun x op hx hd => hx.step ((hstep x op hx).mp hd)) hinv ops

/-- A design of one register of one bit. -/
def flagDecl : Unit → SigDecl := fun _ => { width := 1, isInput := false, indexCount := 1 }

def flagState : SigState Unit where
  core := fun _ => SMTSigCore.new 0 (flagDecl ()) 0
  fresh := 11

theorem flagState_constructed : SigState.Constructed flagDecl 0 flagState where
  core := fun _ => ⟨0, rfl⟩
  below := by
    intro s id hid
    simpa [flagState, SMTSigCore.new, flagDecl, SigDecl.isArray] using hid
  apart := fun _ _ _ _ _ => rfl

/-- `flag <= 1`. -/
def flagWrite : SMTAssign Unit where
  id := 0
  target := .assign false (.signal ⟨(), 0, 0, false⟩ none)
  rval := .leaf (.number ⟨['1']⟩)
  process := 0
  block := 0

/-- The register shows the assignment after the marker, and not before. -/
theorem flagWrite_delayed :
    AllSteps (ClockState.step flagDecl) Delays (.enter flagState)
      [.record flagWrite rfl, .marker 1] := by
  refine (nonBlocking_delayed_iff flagState_constructed _).mpr ⟨?_, ?_, trivial⟩
  · intro lval hlval
    cases hlval
    rfl
  · intro s _ ρ k pre w post hws _
    have hlength := congrArg List.length hws
    rw [List.length_append, List.length_cons] at hlength
    have hone : ((ClockState.enter flagState).step flagDecl (.record flagWrite rfl)).writes s =
        [ClockState.sigWrite flagDecl flagState flagWrite false
          (.signal ⟨(), 0, 0, false⟩ none)] := rfl
    rw [hone, List.length_singleton] at hlength
    rw [← List.length_eq_zero_iff]
    omega

/-! ## Elements of an array -/

/-- What holds of an array in a clock that assigns its elements only: the next
version is the last one, and every assignment was made to the array that the one
before left. -/
structure SMTSigCore.Elementwise (c : SMTSigCore) (start : Option Nat) (ws : List SigWrite) :
    Prop where
  atEnd : c.nextVersion + 1 = c.termStack.length
  composed : Composed start ws (c.getTerm .curr)

omit [DecidableEq S] in
theorem Composed.push {start last : Option Nat} {ws : List SigWrite} {w : SigWrite}
    (h : Composed start ws last) (hbase : last = w.base) :
    Composed start (ws ++ [w]) w.written := by
  induction ws generalizing start with
  | nil => exact ⟨h.trans hbase, rfl⟩
  | cons w' ws ih => exact ⟨h.1, ih h.2⟩

/-- The record is no assignment to the array as a whole. -/
def ElementsOnly (s : S) : TraceOp decl → Prop
  | .record a _ => ∀ isCommit lval, a.target = .assign isCommit lval → lval.parent = s →
      lval.isElement = true
  | _ => False

theorem SMTSigCore.Elementwise.step {x : ClockState S} {s : S} {op : TraceOp decl}
    (h : (x.st.core s).Elementwise (x.start s) (x.writes s)) (hop : ElementsOnly s op) :
    ((x.step decl op).st.core s).Elementwise ((x.step decl op).start s)
      ((x.step decl op).writes s) := by
  cases op with
  | marker clock => cases hop
  | clear => cases hop
  | record a reg =>
      by_cases hs : some s = a.assigned
      · cases htarget : a.target with
        | branch lval => simp [SMTAssign.assigned, htarget] at hs
        | assign isCommit lval =>
            have hparent : s = lval.parent := by simpa [SMTAssign.assigned, htarget] using hs
            cases lval with
            | signal sig index => cases hop isCommit _ htarget hparent.symm
            | array arr index =>
                obtain rfl : s = arr.parent := hparent
                -- the pushed term is the next version, and committed at once
                have hpush := h.composed.push
                  (w := ClockState.sigWrite decl x.st a isCommit (.array arr index)) rfl
                have hcurr : ((a.updateTerm decl x.st).st.core arr.parent).getTerm .curr =
                    (ClockState.sigWrite decl x.st a isCommit (.array arr index)).written := by
                  rw [curr_updateTerm_array htarget, h.atEnd]
                  simp [ClockState.sigWrite, SMTAssign.updateTerm, htarget, arrayWrite,
                    SigState.arrayUpdateTerm]
                simp only [ClockState.step, htarget, SMTLval.parent, Function.update_self]
                refine ⟨?_, hcurr ▸ hpush⟩
                rw [core_updateTerm_array htarget]
                simp [SMTSigCore.arrayUpdateTerm, h.atEnd]
      · obtain ⟨hcore, hwrites⟩ := x.step_record_other reg hs
        rw [hcore, hwrites]
        exact h

/-- **An array in a clock.** When its next version is that of its last term and
only its elements are assigned, the current term is at every point of the clock
the composition of all assignments so far, whether blocking or not. -/
theorem elements_composed {s : S}
    (hend : (st.core s).nextVersion + 1 = (st.core s).termStack.length) {ops : List (TraceOp decl)}
    (hops : ∀ op ∈ ops, ElementsOnly s op) :
    let x := exec (ClockState.step decl) (.enter st) ops
    Composed (x.start s) (x.writes s) ((x.st.core s).getTerm .curr) := by
  have hrun : ∀ (x : ClockState S),
      (x.st.core s).Elementwise (x.start s) (x.writes s) →
      ((exec (ClockState.step decl) x ops).st.core s).Elementwise
        ((exec (ClockState.step decl) x ops).start s)
        ((exec (ClockState.step decl) x ops).writes s) := by
    induction ops with
    | nil => exact fun x hx => hx
    | cons op ops ih =>
        intro x hx
        have hop := hops op List.mem_cons_self
        exact ih (fun op' hop' => hops op' (List.mem_cons_of_mem _ hop')) _ (hx.step hop)
  have hstart : (st.core s).Elementwise ((st.core s).getTerm .curr) [] := ⟨hend, rfl⟩
  exact (hrun (.enter st) hstart).composed

/-! ## An element assigned non-blocking -/

/-- `mem[0] <= 1`. -/
def memElement : SMTAssign Unit :=
  { memWrite with target := .assign false (.array ⟨(), false, (), 0⟩ (.leaf (.number ⟨['0']⟩))) }

/-- A read that follows in the same clock sees the new element. -/
theorem memElement_not_delayed :
    ¬ AllSteps (ClockState.step memDecl) Delays (.enter memState) [.record memElement rfl] := by
  rintro ⟨hkept, -⟩
  have hchanged : ((memElement.updateTerm memDecl memState).st.core ()).getTerm .curr ≠
      (memState.core ()).getTerm .curr := by decide
  cases (hkept.signals () hchanged).1

end Conquest
