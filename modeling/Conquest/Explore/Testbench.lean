import Conquest.Explore.Refine

/-!
# Testbench — the simulation that prints the log

The generated testbench and the instrumented processes under the simulator's
events. The clock rises at time 2 and then every ten units from 10 on. At a rise
the testbench schedules the next row of `data.mem` for five units later and has
the marker of the clock printed at the end of the time step; a non-blocking
assignment takes one unit. A process that is woken runs to its end before the
next one does, and any woken process may be next.
-/

namespace Conquest

open Bv Run

/-! ## Statements -/

/-- The statements of a process. An `if` or `case` is a chain of arms: the first
arm whose condition holds is taken. -/
inductive Stmt where
  | noop
  | assign (id : Nat)
  | seq (s t : Stmt)
  /-- `begin ... end`. -/
  | block (body : Stmt)
  | arm (id : Nat) (body rest : Stmt)
  deriving DecidableEq, Repr

/-- What `emit_stmt` prints of them: every assignment with its record behind it,
and the records of arms. -/
inductive Code where
  | skip
  | assign (id : Nat)
  | display (id : Nat)
  | seq (c c' : Code)
  | arm (id : Nat) (body rest : Code)
  deriving DecidableEq, Repr

/-- `emit_stmt`, with `en_inst` before and after and the arm on top of
`branch_stack`. While `en_inst` is set, a block prints the record of that arm;
an arm that is not a block prints its own (`emit_blocked_stmt_inst`). -/
def Stmt.emit (enInst : Bool) (top : Nat) : Stmt → Code × Bool
  | .noop => (.skip, enInst)
  | .assign id => (.assign id, enInst)
  | .seq s t =>
      let c := s.emit enInst top
      let c' := t.emit c.2 top
      (.seq c.1 c'.1, c'.2)
  | .block body =>
      let c := body.emit enInst top
      (if enInst then .seq (.display top) c.1 else c.1, c.2)
  | .arm id body rest =>
      let c :=
        match body with
        | .block body => (Code.seq (.display id) (body.emit true id).1, false)
        | body => (Code.seq (.display id) (body.emit enInst id).1, (body.emit enInst id).2)
      let c' := rest.emit c.2 top
      (.arm id c.1 c'.1, c'.2)

/-- The events that wake a process. -/
inductive Edge where
  | any | pos | neg
  deriving DecidableEq, Repr

/-- A process. `emit_event` ends in `error` when a list has both kinds of
events. -/
structure Process (S : Type) where
  sensitivity : List (Edge × S)
  body : Stmt
  uniform : (∀ e ∈ sensitivity, e.1 = .any) ∨ ∀ e ∈ sensitivity, e.1 ≠ .any

def Process.code {S : Type} (p : Process S) : Code := (p.body.emit false 0).1

/-- The instrumented design and its testbench. -/
structure Hardware (S : Type) where
  design : Design S
  clock : S
  reset : S
  resetActive : Bool
  processes : List (Process S)
  /-- `in_ports`. -/
  inPorts : List S
  /-- The rows of `data.mem`. -/
  row : Nat → (s : S) → (design.decl s).bvType.Carrier
  /-- The record is not skipped for the name of the reset signal. -/
  isPrinted : Nat → Bool
  /-- The value of the emitted text of an expression. -/
  verilog : SMTExpr S → Store S → Value
  clock_decl : (design.decl clock).isInput = true ∧ (design.decl clock).bvType = .bv 1
  reset_decl : (design.decl reset).isInput = true ∧ (design.decl reset).bvType = .bv 1
  inPorts_decl : ∀ s ∈ inPorts, (design.decl s).isInput = true

/-! ## Values -/

/-- Equal scalar values. -/
def sameValue : Value → Value → Bool
  | some ⟨.bool, a⟩, some ⟨.bool, b⟩ => a == b
  | some ⟨.bv w, x⟩, some ⟨.bv w', y⟩ => if h : w' = w then x == h ▸ y else false
  | _, _ => false

/-- The lowest bit is one. -/
def isHigh : Value → Bool
  | some ⟨.bv _, x⟩ => x.getLsbD 0
  | _ => false

def bit (b : Bool) : Value := some ⟨.bv 1, BitVec.ofBool b⟩

/-- The clock: `#2 clk = 1` in the initial block and `#5 clk = ~clk` all along. -/
def clockAt (t : Nat) : Bool :=
  if t < 2 then false else if t < 5 then true else t / 5 % 2 = 0

/-- The reset is active from the first rise on for five units. -/
def resetAt (active : Bool) (t : Nat) : Bool := if 2 ≤ t ∧ t < 7 then active else !active

/-! ## The simulator -/

/-- What the versions of the constraints stand for, noted along the run. -/
structure Notes (S : Type) where
  /-- The values of the signals once the updates are made that were scheduled at
  the last marker, overwritten by the blocking assignments since then. -/
  view : Store S
  /-- A non-blocking assignment was executed since the last marker. -/
  held : S → Bool
  /-- The assigned values, from the initial one on. -/
  written : S → List Value
  /-- The views of all markers. -/
  marks : List (Store S)

structure Sim (S : Type) where
  time : Nat
  store : Store S
  /-- The non-blocking updates of this time step and of the next one. -/
  dueNow : List (S × Value)
  dueNext : List (S × Value)
  /-- When the inputs take the values of which row. -/
  inputDue : Option (Nat × Nat)
  /-- The woken processes. -/
  active : List Nat
  /-- `_conc_pc`. -/
  pc : Nat
  /-- A `$strobe` waits for the end of the time step. -/
  strobe : Bool
  log : List LogRecord
  notes : Notes S

/-- One of the woken processes runs, or, when there is none, time goes on. -/
inductive Choice where
  | run (process : Nat)
  | advance
  deriving DecidableEq, Repr

namespace Sim

variable {S : Type} [DecidableEq S] (hw : Hardware S)

/-- The change of a signal wakes the process. -/
def wakes (s : S) (old new : Value) (p : Process S) : Bool :=
  p.sensitivity.any fun (edge, t) =>
    t == s &&
      match edge with
      | .any => true
      | .pos => !isHigh old && isHigh new
      | .neg => isHigh old && !isHigh new

/-- A signal takes a value. A change wakes processes, but not `runner`, which
makes it and is not waiting. -/
def write (runner : Option Nat) (s : S) (v : Value) (x : Sim S) : Sim S :=
  if sameValue (x.store s) v then x
  else
    { x with
      store := Function.update x.store s v
      active := x.active ++ (List.range hw.processes.length).filter fun i =>
        runner != some i && !x.active.contains i &&
          (hw.processes[i]?).any (wakes s (x.store s) v) }

/-- The values after all scheduled updates. -/
def settle (x : Sim S) : Store S :=
  let store := (x.dueNow ++ x.dueNext).foldl (fun σ (s, v) => Function.update σ s v) x.store
  match x.inputDue with
  | none => store
  | some (_, row) => fun s => if s ∈ hw.inPorts then some ⟨_, hw.row row s⟩ else store s

/-- `$display(";A id")`. -/
def print (id : Nat) (x : Sim S) : Sim S :=
  if hw.isPrinted id then { x with log := x.log ++ [.assign id] } else x

/-- An assignment, with its record behind it. -/
def assign (runner : Option Nat) (a : SMTAssign S) (x : Sim S) : Sim S :=
  match a.target with
  | .assign isCommit lval =>
      let s := lval.parent
      let v := hw.verilog a.rval x.store
      let x := { x with notes := { x.notes with
        written := Function.update x.notes.written s (x.notes.written s ++ [v]) } }
      let x :=
        if isCommit then
          { x.write hw runner s v with
            notes := { x.notes with view := Function.update x.notes.view s v } }
        else
          { x with
            dueNext := x.dueNext ++ [(s, v)]
            notes := { x.notes with held := Function.update x.notes.held s true } }
      x.print hw a.id
  | .branch _ => x

/-- The condition of an arm holds. -/
def takes (a : SMTAssign S) (x : Sim S) : Bool :=
  match a.target with
  | .branch lval => sameValue (hw.verilog lval x.store) (hw.verilog a.rval x.store)
  | .assign _ _ => false

/-- The code of a process, from its wake-up to its end. -/
def exec (runner : Option Nat) : Code → Sim S → Sim S
  | .skip, x => x
  | .assign id, x =>
      match hw.design.getAssign id with
      | none => x
      | some a => x.assign hw runner a
  | .display id, x => x.print hw id
  | .seq c c', x => exec runner c' (exec runner c x)
  | .arm id body rest, x =>
      match hw.design.getAssign id with
      | none => x
      | some a => if x.takes hw a then exec runner body x else exec runner rest x

/-- The non-blocking updates of the time step. -/
def update (x : Sim S) : Sim S :=
  let inputs :=
    match x.inputDue with
    | some (t, row) => if t = x.time then hw.inPorts.map fun s => (s, some ⟨_, hw.row row s⟩) else []
    | none => []
  let due := x.dueNow ++ inputs
  due.foldl (fun x (s, v) => x.write hw none s v)
    { x with
      dueNow := []
      inputDue := x.inputDue.filter fun (t, _) => t ≠ x.time }

/-- The clock rises in the time step after `t`. -/
def risesAfter (t : Nat) : Bool := !clockAt t && clockAt (t + 1)

/-- The clock rises at time 2 and at the multiples of ten. -/
theorem risesAfter_iff {t : Nat} : risesAfter t = true ↔ t = 1 ∨ t % 10 = 9 := by
  unfold risesAfter clockAt
  grind

/-- The next time step, with the testbench's reaction to a rise of the clock. -/
def tick (x : Sim S) : Sim S :=
  let t := x.time + 1
  let y := { x with time := t, dueNow := x.dueNext, dueNext := [] }
  -- the clock and the reset change only where their values do
  let y := if clockAt t = clockAt x.time then y else y.write hw none hw.clock (bit (clockAt t))
  let y :=
    if resetAt hw.resetActive t = resetAt hw.resetActive x.time then y
    else y.write hw none hw.reset (bit (resetAt hw.resetActive t))
  if risesAfter x.time then { y with inputDue := some (t + 5, y.pc), pc := y.pc + 1, strobe := true }
  else y

/-- The marker `;_C`. -/
def mark (x : Sim S) : Sim S :=
  let view := x.settle hw
  { x with
    strobe := false
    log := x.log ++ [.clock x.pc]
    notes :=
      { x.notes with
        view := view
        held := fun _ => false
        marks := x.notes.marks ++ [view] } }

/-- Updates are due in the time step. -/
def isDue (x : Sim S) : Bool :=
  !x.dueNow.isEmpty || x.inputDue.any fun (t, _) => t = x.time

/-- Once no process is awake, the updates of the time step are made; once there
are none, the time step ends. -/
def advance (x : Sim S) : Sim S :=
  if x.isDue then x.update hw
  else if x.strobe then (x.mark hw).tick hw
  else x.tick hw

def step (x : Sim S) : Choice → Option (Sim S)
  | .run i =>
      if i ∈ x.active then
        (hw.processes[i]?).map fun p =>
          exec hw (some i) p.code { x with active := x.active.erase i }
      else none
  | .advance => if x.active = [] then some (x.advance hw) else none

/-- Time zero: registers and inputs are zero. Which processes see the first
values of the clock and of the reset is open. -/
def start (active : List Nat) : Sim S :=
  let zero : Store S := fun s => (hw.design.decl s).zeroValue
  { time := 0
    store := Function.update (Function.update zero hw.clock (bit false)) hw.reset
      (bit (!hw.resetActive))
    dueNow := []
    dueNext := []
    inputDue := none
    active := active
    pc := 0
    strobe := false
    log := []
    notes :=
      { view := zero
        held := fun _ => false
        written := fun s => [(hw.design.decl s).zeroValue]
        marks := [zero] } }

end Sim

end Conquest
