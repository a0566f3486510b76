import Conquest.Explore.Testbench

/-!
# Settled — when the log tells Verilog's run

The constraints read one value of every signal per clock, apart from blocking
assignments: the value that it has once the updates are made that are scheduled
at the marker. A process that reads a signal at another time sees another value.
Where every executed statement reads settled signals only, the log tells the run
of the versions, and the values assigned in the simulation are those of the
versions.
-/

namespace Conquest

open Bv Run

variable {S : Type} [DecidableEq S]

/-! ## Scheduled updates -/

/-- A list of updates, made one after the other. -/
def applyDue (due : List (S × Value)) (σ : Store S) : Store S :=
  due.foldl (fun σ (s, v) => Function.update σ s v) σ

section ApplyDue

variable {due due' : List (S × Value)} {σ σ' : Store S} {s : S} {v : Value}

theorem applyDue_append (due due' : List (S × Value)) (σ : Store S) :
    applyDue (due ++ due') σ = applyDue due' (applyDue due σ) := List.foldl_append

theorem applyDue_congr (h : σ s = σ' s) : applyDue due σ s = applyDue due σ' s := by
  induction due generalizing σ σ' with
  | nil => exact h
  | cons d due ih =>
      refine ih ?_
      by_cases hs : s = d.1
      · subst hs
        simp
      · simp [hs, h]

theorem applyDue_ind {P : Value → Prop} (h : P (σ s)) (hdue : ∀ v, (s, v) ∈ due → P v) :
    P (applyDue due σ s) := by
  induction due generalizing σ with
  | nil => exact h
  | cons d due ih =>
      refine ih ?_ fun v hv => hdue v (List.mem_cons_of_mem _ hv)
      by_cases hs : s = d.1
      · subst hs
        simpa using hdue d.2 List.mem_cons_self
      · simpa [hs] using h

theorem applyDue_of_notMem (h : ∀ v, (s, v) ∉ due) : applyDue due σ s = σ s :=
  applyDue_ind (P := fun v => v = σ s) rfl fun v hv => absurd hv (h v)

end ApplyDue

/-! ## Settled reads -/

/-- A value of the type. -/
def IsOf (τ : Ty) (v : Value) : Prop := ∃ c : τ.Carrier, v = some ⟨τ, c⟩

/-- The values that the versions of the signals have, by number. -/
abbrev Versions (S : Type) := S → Nat → Value

/-- What a record says about the values of the versions. -/
def SMTAssign.Told [Encodable S] (decl : S → SigDecl) (T : Versions S) (vs : VerilogState S)
    (a : SMTAssign S) : Prop :=
  match a.target with
  | .assign _ lval =>
      T lval.parent (vs.assigned lval.parent + 1) = a.rval.value decl vs.visible
  | .branch lval =>
      lval.value decl vs.visible = a.rval.value decl vs.visible ∧
        (lval.value decl vs.visible).isSome

def Told [Encodable S] (d : Design S) (T : Versions S) (vs : VerilogState S) : LogRecord → Prop
  | .assign id => ∀ a, d.getAssign id = some a → a.Told d.decl T vs
  | _ => True

namespace Sim

variable [Encodable S] (hw : Hardware S)

/-- The expression has the value of its term, and all signals it reads have in
the store the values that their versions stand for. -/
structure ReadsSettled (e : SMTExpr S) (x : Sim S) : Prop where
  settled : ∀ s, e.Reads s → x.store s = x.notes.view s
  value : hw.verilog e x.store = e.value hw.design.decl x.store

/-- The record of an arm: the arm's condition reads settled signals, and it still
holds where the record is printed. -/
def ShowsArm (a : SMTAssign S) (x : Sim S) : Prop :=
  match a.target with
  | .branch lval => ReadsSettled hw lval x ∧ ReadsSettled hw a.rval x ∧ x.takes hw a = true
  | .assign _ _ => False

/-- The condition on the statements that a process executes: an assignment is
printed, reads settled signals, and is not a blocking one to a register with a
non-blocking assignment since the last marker. -/
def CodeMeets (runner : Option Nat) : Code → Sim S → Prop
  | .skip, _ => True
  | .assign id, x => ∀ a, hw.design.getAssign id = some a →
      hw.isPrinted id = true ∧ ReadsSettled hw a.rval x ∧ a.NoOverlap x.notes.held
  | .display id, x => hw.isPrinted id = true →
      ∃ a, hw.design.getAssign id = some a ∧ ShowsArm hw a x
  | .seq c c', x => CodeMeets runner c x ∧ CodeMeets runner c' (exec hw runner c x)
  | .arm id body rest, x => ∀ a, hw.design.getAssign id = some a →
      if x.takes hw a then CodeMeets runner body x else CodeMeets runner rest x

/-- The condition on a step. -/
def Meets (x : Sim S) : Choice → Prop
  | .run i => ∀ p, hw.processes[i]? = some p →
      CodeMeets hw (some i) p.code { x with active := x.active.erase i }
  | .advance => True

/-! ## Versions of a run -/

/-- The values that a run noted for the versions. -/
structure Agrees (d : Design S) (T : Versions S) (x : Sim S) : Prop where
  written : ∀ s, (d.decl s).isInput = false → ∀ i v, (x.notes.written s)[i]? = some v → T s i = v
  marks : ∀ s, (d.decl s).isInput = true → ∀ n σ, x.notes.marks[n]? = some σ → T s n = σ s

/-- Verilog's run of a log in which the inputs have the values of their
versions. -/
def ranTo (d : Design S) (T : Versions S) (log : List LogRecord) : VerilogState S :=
  Run.exec (VerilogState.step d fun n s => T s n) (.init d.decl) (.clock 0 :: log)

theorem ranTo_append (d : Design S) (T : Versions S) (log : List LogRecord) (r : LogRecord) :
    ranTo d T (log ++ [r]) = (ranTo d T log).step d (fun n s => T s n) r :=
  exec_append (VerilogState.step d fun n s => T s n) (.init d.decl) (.clock 0 :: log) [r]

/-- The log tells the run of the versions, and Verilog's run of it is where the
simulation is: reads are those of the view, and the updates that are scheduled
lead to the pending values. -/
structure Follows (d : Design S) (T : Versions S) (x : Sim S) : Prop where
  told : AllSteps (VerilogState.step d fun n s => T s n) (Told d T) (.init d.decl)
    (.clock 0 :: x.log)
  visible : (ranTo d T x.log).visible = x.notes.view
  pending : ∀ s, ((ranTo d T x.log).pending s).isSome = x.notes.held s
  assigned : ∀ s, (d.decl s).isInput = false →
    (ranTo d T x.log).assigned s + 1 = (x.notes.written s).length
  settles : ∀ s, (d.decl s).isInput = false →
    applyDue (x.dueNow ++ x.dueNext) x.store s =
      ((ranTo d T x.log).pending s).getD (x.notes.view s)

/-- The simulation has made the records of its log. -/
structure Recorded (x : Sim S) : Prop where
  follows : ∀ T, Agrees hw.design T x → Follows hw.design T x
  noOverlap : AllSteps (waitingAfter hw.design) (NoOverlap hw.design) (fun _ => false)
    (.clock 0 :: x.log)
  held : Run.exec (waitingAfter hw.design) (fun _ => false) (.clock 0 :: x.log) = x.notes.held

/-- The markers count the rises of the clock. -/
structure Paced (x : Sim S) : Prop where
  counts : AllSteps (fun c r => r.clockAfter c) (fun c r => ∀ n, r = .clock n → n = c + 1) 0 x.log
  clock : Run.exec (fun c r => r.clockAfter c) 0 x.log + 1 = x.notes.marks.length
  pc : x.pc + 1 = x.notes.marks.length + if x.strobe then 1 else 0
  strobe : x.strobe = true → ∃ t, x.time = t + 1 ∧ risesAfter t = true

/-- Inputs have values of their types, and everything starts at zero. -/
structure Typed (x : Sim S) : Prop where
  due : ∀ u ∈ x.dueNow ++ x.dueNext, (hw.design.decl u.1).isInput = false
  store : ∀ s, (hw.design.decl s).isInput = true → IsOf (hw.design.decl s).bvType (x.store s)
  marks : ∀ σ ∈ x.notes.marks, ∀ s, (hw.design.decl s).isInput = true →
    IsOf (hw.design.decl s).bvType (σ s)
  writtenZero : ∀ s, (x.notes.written s)[0]? = some (hw.design.decl s).zeroValue
  marksZero : x.notes.marks[0]? = some fun s => (hw.design.decl s).zeroValue

/-- The scheduled updates are those of assignments since the last marker. -/
def Waits (x : Sim S) : Prop := ∀ u ∈ x.dueNow ++ x.dueNext, x.notes.held u.1 = true

structure Sound (x : Sim S) : Prop where
  recorded : Recorded hw x
  paced : Paced x
  typed : Typed hw x

/-- What holds while a process runs. -/
structure Running (x : Sim S) : Prop extends Sound hw x where
  waits : Waits x

/-- What holds between two steps: right after a marker, no process is awake until
the updates are made that were scheduled before it. -/
structure Inv (x : Sim S) : Prop extends Sound hw x where
  waits : (x.active = [] ∧ x.dueNext = []) ∨ Waits x

/-! ## Writes -/

section Writes

variable {hw} {x : Sim S} {e : SMTExpr S}

omit [DecidableEq S] [Encodable S] in
theorem sameValue_eq {v w : Value} (h : sameValue v w = true) : v = w ∧ v.isSome := by
  unfold sameValue at h
  split at h
  · exact ⟨by rw [beq_iff_eq.mp h], rfl⟩
  · split at h
    · rename_i hw
      subst hw
      exact ⟨by rw [beq_iff_eq.mp h], rfl⟩
    · cases h
  · cases h

omit [Encodable S] in
theorem write_eq (hw : Hardware S) (runner : Option Nat) (s : S) (v : Value) (x : Sim S) :
    ∃ active, x.write hw runner s v =
      { x with store := Function.update x.store s v, active := active } := by
  unfold write
  split
  · rename_i hsame
    obtain ⟨heq, -⟩ := sameValue_eq hsame
    exact ⟨x.active, by rw [← heq, Function.update_eq_self]⟩
  · exact ⟨_, rfl⟩

omit [Encodable S] in
theorem foldl_write_eq (hw : Hardware S) (due : List (S × Value)) (x : Sim S) :
    ∃ active, due.foldl (fun x (s, v) => x.write hw none s v) x =
      { x with store := applyDue due x.store, active := active } := by
  induction due generalizing x with
  | nil => exact ⟨x.active, rfl⟩
  | cons u due ih =>
      obtain ⟨active, hwrite⟩ := write_eq hw none u.1 u.2 x
      obtain ⟨active', hfold⟩ := ih (x.write hw none u.1 u.2)
      refine ⟨active', ?_⟩
      rw [List.foldl_cons, hfold, hwrite]
      rfl

omit [Encodable S] in
/-- What a printed assignment changes. -/
theorem assign_eq {a : SMTAssign S} {isCommit : Bool} {lval : SMTLval S}
    (htarget : a.target = .assign isCommit lval) (hprint : hw.isPrinted a.id = true)
    (runner : Option Nat) (x : Sim S) :
    ∃ active, x.assign hw runner a =
      { x with
        store :=
          if isCommit then Function.update x.store lval.parent (hw.verilog a.rval x.store)
          else x.store
        dueNext :=
          if isCommit then x.dueNext
          else x.dueNext ++ [(lval.parent, hw.verilog a.rval x.store)]
        active := active
        log := x.log ++ [.assign a.id]
        notes :=
          { x.notes with
            view :=
              if isCommit then
                Function.update x.notes.view lval.parent (hw.verilog a.rval x.store)
              else x.notes.view
            held :=
              if isCommit then x.notes.held else Function.update x.notes.held lval.parent true
            written :=
              Function.update x.notes.written lval.parent
                (x.notes.written lval.parent ++ [hw.verilog a.rval x.store]) } } := by
  simp only [assign, htarget, print, hprint, if_true]
  cases isCommit with
  | false => exact ⟨_, rfl⟩
  | true =>
      obtain ⟨active, hwrite⟩ := write_eq hw runner lval.parent
        (hw.verilog a.rval x.store)
        { x with
          notes :=
            { x.notes with
              written :=
                Function.update x.notes.written lval.parent
                  (x.notes.written lval.parent ++ [hw.verilog a.rval x.store]) } }
      refine ⟨active, ?_⟩
      simp only [if_true]
      rw [hwrite]

omit [DecidableEq S] in
/-- The emitted text has the value of the term in the versions. -/
theorem ReadsSettled.verilog_eq (h : ReadsSettled hw e x) :
    hw.verilog e x.store = e.value hw.design.decl x.notes.view :=
  h.value.trans (SMTExpr.value_congr h.settled)

end Writes

end Sim

end Conquest
