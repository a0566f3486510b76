import Conquest.Lib.Run
import Conquest.Smt.Grow

/-!
# Stack — from the log of a simulation to the constraint stack

`build_stack` reads the log of a simulation record by record. A clock marker
commits the registers and moves the inputs to the version of the clock; the
record of an assignment or of a branch arm makes its constraint in the versions
reached so far. The scan stops at the marker after the last simulated clock.
-/

namespace Conquest

open Bv Run

/-! ## What is fixed before the exploration -/

/-- The signals and records of the instrumented design, with the random table
that path hashes are made of. -/
structure Design (S : Type) where
  decl : S → SigDecl
  regList : List S
  inputList : List S
  assignMap : List (SMTAssign S)
  isEdgeTriggered : Nat → Bool
  /-- The `branch_list` of every branch node, by ids. -/
  branchNodes : List (List Nat)
  hashTable : Nat → BitVec 32
  /-- How often more than once an arm is instrumented: `emit_stmt_block` does it
  again for every block inside the arm that is reached with `en_inst` set. -/
  instrumentedAgain : Nat → Nat := fun _ => 0
  mem_regList : ∀ s, s ∈ regList ↔ (decl s).isInput = false
  mem_inputList : ∀ s, s ∈ inputList ↔ (decl s).isInput = true
  id_eq : ∀ i (h : i < assignMap.length), assignMap[i].id = i
  writesReg : ∀ a ∈ assignMap, a.writesReg decl = true
  isBranch : ∀ node ∈ branchNodes, ∀ id ∈ node, assignMap[id]?.any SMTAssign.isBranch = true

namespace Design

variable {S : Type} (d : Design S)

/-- `get_assign`; its assertion fails beyond the map. -/
def getAssign (id : Nat) : Option (SMTAssign S) := d.assignMap[id]?

/-- `parent_node->branch_list` of a branch. -/
def branchList (id : Nat) : List Nat := (d.branchNodes.find? fun node => node.contains id).getD []

theorem getAssign_id {id : Nat} {a : SMTAssign S} (h : d.getAssign id = some a) : a.id = id := by
  obtain ⟨hlt, rfl⟩ := List.getElem?_eq_some_iff.mp h
  exact d.id_eq id hlt

theorem writesReg_of_getAssign {id : Nat} {a : SMTAssign S} (h : d.getAssign id = some a) :
    a.writesReg d.decl = true :=
  d.writesReg a (List.mem_of_getElem? h)

/-- The initial term of a signal, made from the term of its version 0. -/
def initTerm (st : SigState S) (s : S) : TermT :=
  match (st.core s).termStack[0]? with
  | none => none
  | some id => (d.decl s).initTerm id

/-- `yices_insert_reg_init`: what it asserts. -/
def regInit (st : SigState S) : List TermT :=
  d.regList.map (d.initTerm st) ++ d.inputList.map (d.initTerm st)

theorem forall_regInit_iff (st : SigState S) {P : TermT → Prop} :
    (∀ t ∈ d.regInit st, P t) ↔ ∀ s, P (d.initTerm st s) := by
  simp only [regInit, List.forall_mem_append, List.forall_mem_map, mem_regList, mem_inputList]
  constructor
  · intro h s
    cases hs : (d.decl s).isInput with
    | false => exact h.1 s hs
    | true => exact h.2 s hs
  · exact fun h => ⟨fun s _ => h s, fun s _ => h s⟩

end Design

/-! ## Coverage -/

/-- The coverage flags of all records, by id. -/
structure Coverage where
  /-- `covered_in_sim`, once `covered_any_clock` is set. -/
  coveredInSim : Nat → Option Nat
  /-- The array `coverage` of a branch. -/
  atClock : Nat → Nat → Bool
  coveredBranchCount : Nat

namespace Coverage

def isCovered (c : Coverage) (id : Nat) : Bool := (c.coveredInSim id).isSome

/-- `set_covered`. -/
def setCovered (c : Coverage) (simNum id : Nat) : Coverage :=
  if c.isCovered id then c
  else { c with coveredInSim := Function.update c.coveredInSim id (some simNum) }

theorem isCovered_setCovered (c : Coverage) (simNum id id' : Nat) :
    (c.setCovered simNum id).isCovered id' ↔ c.isCovered id' ∨ id' = id := by
  unfold setCovered
  split
  · rename_i hid
    exact ⟨.inl, fun h => h.elim (fun h => h) fun heq => heq ▸ hid⟩
  · by_cases heq : id' = id
    · subst heq
      simp [isCovered]
    · simp [isCovered, heq]

/-- What `set_covered_clk` writes. -/
def setCoveredClk (c : Coverage) (simNum id clock : Nat) : Coverage :=
  { c.setCovered simNum id with
    atClock := Function.update c.atClock id (Function.update (c.atClock id) clock true)
    coveredBranchCount := c.coveredBranchCount + if c.isCovered id then 0 else 1 }

theorem isCovered_setCoveredClk (c : Coverage) (simNum id clock id' : Nat) :
    (c.setCoveredClk simNum id clock).isCovered id' ↔ c.isCovered id' ∨ id' = id :=
  c.isCovered_setCovered simNum id id'

end Coverage

/-! ## The stack -/

/-- A `constraint_t` with an object. The hash is that of the branch records
before it; an assignment has none. -/
structure Record (S : Type) where
  clock : Nat
  obj : SMTAssign S
  term : TermT
  index : Nat
  hashValue : BitVec 32

inductive Constraint (S : Type) where
  | clk (clock : Nat)
  | record (r : Record S)

namespace Constraint

variable {S : Type}

def clock : Constraint S → Nat
  | clk n => n
  | record r => r.clock

def record? : Constraint S → Option (Record S)
  | clk _ => none
  | record r => some r

/-- `yices_term`, of a constraint that has one. -/
def term? (c : Constraint S) : Option TermT := c.record?.map Record.term

end Constraint

/-- The variables that a simulation and the scan of its log read and write. -/
structure Session (S : Type) where
  sigs : SigState S
  /-- The formulas asserted in `yices_context`. -/
  context : List TermT
  stack : List (Constraint S)
  hashValue : BitVec 32
  pathHashMap : List (BitVec 32)
  coverage : Coverage
  targetList : List Nat
  prevIds : List Nat
  currIds : List Nat
  isNewBlock : Bool
  simNum : Nat
  simClk : Nat

/-- A line of the log: a clock marker, the record of an assignment or an arm,
or the value of a register, which goes to the state map. -/
inductive LogRecord where
  | clock (n : Nat)
  | assign (id : Nat)
  | state (name : String) (value : BitVec 32)
  deriving DecidableEq, Repr

/-- The clock of the records that follow. -/
def LogRecord.clockAfter (clock : Nat) : LogRecord → Nat
  | .clock n => n
  | _ => clock

namespace Session

variable {S : Type} [DecidableEq S] (d : Design S)

def terms (x : Session S) : List TermT := x.stack.filterMap Constraint.term?

/-- `set_covered_clk`; the program ends when no target is left. -/
def setCoveredClk (simNum id clock : Nat) (x : Session S) : Option (Session S) :=
  if x.coverage.isCovered id = false ∧ x.targetList = [] then none
  else some { x with coverage := x.coverage.setCoveredClk simNum id clock }

/-- `update_path_hash_map`, for a branch that gets the index `index`. -/
def updatePathHashMap (id index : Nat) (x : Session S) : Session S :=
  let hash := x.hashValue + d.hashTable (id % 16384) * BitVec.ofNat 32 index
  { x with hashValue := hash, pathHashMap := x.pathHashMap.insert hash }

/-- `create_constraint`; the program ends in `error` when there is no term. -/
def createConstraint (clock : Nat) (assign : SMTAssign S) (x : Session S) :
    Option (Record S × Session S) :=
  let u := assign.updateTerm d.decl x.sigs
  let x := { x with sigs := u.st, context := x.context ++ u.side }
  let cnst : Record S :=
    { clock := clock
      obj := assign
      term := u.term
      index := x.stack.length
      hashValue := if assign.isBranch then x.hashValue else 0 }
  if u.term.isNone then none
  else if assign.isBranch then
    ((x.updatePathHashMap d assign.id x.stack.length).setCoveredClk x.simNum assign.id clock).map
      fun x => (cnst, x)
  else some (cnst, { x with coverage := x.coverage.setCovered x.simNum assign.id })

/-- What a record other than the last marker does. -/
def read (clock : Nat) (x : Session S) : LogRecord → Option (Session S)
  | .clock n =>
      some { x with
        stack := x.stack ++ [.clk n]
        sigs := (x.sigs.setInputVersion d.decl n).commitVersions d.decl n }
  | .assign id =>
      (d.getAssign id).bind fun assign =>
        (x.createConstraint d clock assign).map fun (cnst, x) =>
          { x with
            stack := x.stack ++ [.record cnst]
            currIds := x.currIds.insert assign.block }
  | .state _ _ => some x

/-- The loop of `build_stack`. Past the end of the file `fscanf` changes neither
the tag nor the value, so that the loop does not end. -/
def scan (clock : Nat) (x : Session S) : List LogRecord → Option (Session S)
  | [] => none
  | r :: log =>
      if r = .clock (x.simClk + 1) then some x
      else (x.read d clock r).bind fun x => x.scan (r.clockAfter clock) log

/-- `build_stack`, of the log that the simulation printed; `write_first_clock`
puts a marker in front. -/
def buildStack (log : List LogRecord) (x : Session S) : Option (Session S) :=
  (scan d 0 { x with hashValue := 0, isNewBlock := false } (.clock 0 :: log)).map fun x =>
    { x with
      isNewBlock := x.currIds.any fun id => !x.prevIds.contains id
      prevIds := x.currIds
      currIds := [] }

/-- `simulate_build_stack`, when the simulator prints `log`. -/
def simulateBuildStack (log : List LogRecord) (x : Session S) : Option (Session S) :=
  buildStack d log { x with sigs := x.sigs.clearAllVersions, stack := [] }

variable {d}

/-! ## What one record does -/

omit [DecidableEq S] in
theorem setCoveredClk_eq_some {simNum id clock : Nat} {x y : Session S}
    (h : x.setCoveredClk simNum id clock = some y) :
    y = { x with coverage := x.coverage.setCoveredClk simNum id clock } := by
  unfold setCoveredClk at h
  split at h
  · cases h
  · exact (Option.some.inj h).symm

/-- The constraint of a record, and the state after it apart from its
bookkeeping. -/
structure Created (d : Design S) (clock : Nat) (assign : SMTAssign S) (x : Session S)
    (r : Record S) (y : Session S) : Prop where
  obj : r.obj = assign
  clock : r.clock = clock
  term : r.term = (assign.updateTerm d.decl x.sigs).term
  isSome : r.term.isSome
  index : r.index = x.stack.length
  sigs : y.sigs = (assign.updateTerm d.decl x.sigs).st
  stack : y.stack = x.stack
  simClk : y.simClk = x.simClk

/-- A constraint is that of an arm, which enters the hash of the path, or that of
an assignment. -/
theorem createConstraint_cases {clock : Nat} {assign : SMTAssign S} {x y : Session S}
    {r : Record S} (h : x.createConstraint d clock assign = some (r, y)) :
    r.term.isSome ∧
      r = {
        clock := clock
        obj := assign
        term := (assign.updateTerm d.decl x.sigs).term
        index := x.stack.length
        hashValue := if assign.isBranch then x.hashValue else 0 } ∧
      ((assign.isBranch = true ∧
        y = { x.updatePathHashMap d assign.id x.stack.length with
          sigs := (assign.updateTerm d.decl x.sigs).st
          context := x.context ++ (assign.updateTerm d.decl x.sigs).side
          coverage := x.coverage.setCoveredClk x.simNum assign.id clock }) ∨
      (assign.isBranch = false ∧
        y = { x with
          sigs := (assign.updateTerm d.decl x.sigs).st
          context := x.context ++ (assign.updateTerm d.decl x.sigs).side
          coverage := x.coverage.setCovered x.simNum assign.id })) := by
  unfold createConstraint at h
  dsimp only at h
  split at h
  · cases h
  · rename_i hterm
    rw [Option.isNone_iff_eq_none, ← ne_eq, Option.ne_none_iff_isSome] at hterm
    split at h
    · rename_i hbranch
      obtain ⟨z, hz, heq⟩ := Option.map_eq_some_iff.mp h
      cases heq
      rw [setCoveredClk_eq_some hz]
      exact ⟨hterm, by rw [if_pos hbranch], .inl ⟨hbranch, rfl⟩⟩
    · rename_i hassign
      cases h
      exact ⟨hterm, by rw [if_neg hassign], .inr ⟨Bool.eq_false_of_not_eq_true hassign, rfl⟩⟩

theorem created_of_createConstraint {clock : Nat} {assign : SMTAssign S} {x y : Session S}
    {r : Record S} (h : x.createConstraint d clock assign = some (r, y)) :
    Created d clock assign x r y := by
  obtain ⟨hsome, rfl, ⟨-, rfl⟩ | ⟨-, rfl⟩⟩ := createConstraint_cases h
  · exact ⟨rfl, rfl, rfl, hsome, rfl, rfl, rfl, rfl⟩
  · exact ⟨rfl, rfl, rfl, hsome, rfl, rfl, rfl, rfl⟩

end Session

/-! ## What a scan puts on the stack -/

section Scanned

variable {S : Type} [DecidableEq S] {d : Design S}

/-- A record of the log that follows the marker of `clock`, with the entries it
puts on the stack and the versions before and after it. -/
inductive Pushes (d : Design S) (clock : Nat) (st : SigState S) :
    LogRecord → List (Constraint S) → SigState S → Prop
  | clock (n : Nat) :
      Pushes d clock st (.clock n) [.clk n] ((st.setInputVersion d.decl n).commitVersions d.decl n)
  | assign (id : Nat) (r : Record S) (hobj : d.getAssign id = some r.obj)
      (hclock : r.clock = clock) (hterm : r.term = (r.obj.updateTerm d.decl st).term)
      (hsome : r.term.isSome) :
      Pushes d clock st (.assign id) [.record r] (r.obj.updateTerm d.decl st).st
  | state (name : String) (value : BitVec 32) : Pushes d clock st (.state name value) [] st

/-- A log up to the marker after `simClk`, with the entries of all its records. -/
inductive Scanned (d : Design S) (simClk : Nat) :
    Nat → SigState S → List LogRecord → List (Constraint S) → SigState S → Prop
  | stop (clock : Nat) (st : SigState S) (log : List LogRecord) :
      Scanned d simClk clock st (.clock (simClk + 1) :: log) [] st
  | step {clock : Nat} {st st' st'' : SigState S} {r : LogRecord} {log : List LogRecord}
      {entries entries' : List (Constraint S)} (hr : r ≠ .clock (simClk + 1))
      (hpush : Pushes d clock st r entries st')
      (hrest : Scanned d simClk (r.clockAfter clock) st' log entries' st'') :
      Scanned d simClk clock st (r :: log) (entries ++ entries') st''

theorem Session.pushes_of_read {clock : Nat} {x y : Session S} {r : LogRecord}
    (h : x.read d clock r = some y) :
    ∃ entries, y.stack = x.stack ++ entries ∧ y.simClk = x.simClk ∧
      Pushes d clock x.sigs r entries y.sigs := by
  cases r with
  | clock n =>
      cases h
      exact ⟨[.clk n], rfl, rfl, .clock n⟩
  | assign id =>
      obtain ⟨assign, hassign, h⟩ := Option.bind_eq_some_iff.mp h
      obtain ⟨⟨r, z⟩, hz, rfl⟩ := Option.map_eq_some_iff.mp h
      have hcreated := created_of_createConstraint hz
      obtain rfl := hcreated.obj
      refine ⟨[.record r], ?_, hcreated.simClk, ?_⟩
      · show z.stack ++ [.record r] = x.stack ++ [.record r]
        rw [hcreated.stack]
      · show Pushes d clock x.sigs (.assign id) [.record r] z.sigs
        rw [hcreated.sigs]
        exact .assign id r hassign hcreated.clock hcreated.term hcreated.isSome
  | state name value =>
      cases h
      exact ⟨[], (List.append_nil _).symm, rfl, .state name value⟩

/-- What holds where the scan stops, and from a record on if it holds after it,
holds of every scan. -/
theorem Session.scan_induction {P : Nat → Session S → List LogRecord → Session S → Prop}
    (hstop : ∀ clock (x : Session S) log, P clock x (.clock (x.simClk + 1) :: log) x)
    (hstep : ∀ clock (x : Session S) r log (z y : Session S), r ≠ .clock (x.simClk + 1) →
      x.read d clock r = some z → z.simClk = x.simClk → P (r.clockAfter clock) z log y →
      P clock x (r :: log) y)
    {clock : Nat} {x y : Session S} {log : List LogRecord} (h : scan d clock x log = some y) :
    P clock x log y := by
  induction log generalizing clock x with
  | nil => cases h
  | cons r log ih =>
      rw [scan] at h
      split at h
      · rename_i hr
        obtain rfl := Option.some.inj h
        rw [hr]
        exact hstop clock x log
      · rename_i hr
        obtain ⟨z, hread, hscan⟩ := Option.bind_eq_some_iff.mp h
        obtain ⟨_, -, hclk, -⟩ := pushes_of_read hread
        exact hstep clock x r log z y hr hread hclk (ih hscan)

theorem Session.scanned_of_scan {clock : Nat} {x y : Session S} {log : List LogRecord}
    (h : scan d clock x log = some y) :
    ∃ entries, y.stack = x.stack ++ entries ∧ y.simClk = x.simClk ∧
      Scanned d x.simClk clock x.sigs log entries y.sigs := by
  refine scan_induction (P := fun clock x log y => ∃ entries, y.stack = x.stack ++ entries ∧
    y.simClk = x.simClk ∧ Scanned d x.simClk clock x.sigs log entries y.sigs) ?_ ?_ h
  · intro clock x log
    exact ⟨[], (List.append_nil _).symm, rfl, .stop clock x.sigs log⟩
  · rintro clock x r log z y hr hread - ⟨entries', hstack', hclk', hrest⟩
    obtain ⟨entries, hstack, hclk, hpush⟩ := pushes_of_read hread
    refine ⟨entries ++ entries', ?_, hclk'.trans hclk, .step hr hpush (hclk ▸ hrest)⟩
    rw [hstack', hstack, List.append_assoc]

/-- The stack of a simulation holds the entries of its log, read from the first
versions of all signals. -/
theorem Session.scanned_of_simulate {x y : Session S} {log : List LogRecord}
    (h : x.simulateBuildStack d log = some y) :
    y.simClk = x.simClk ∧
      Scanned d x.simClk 0 x.sigs.clearAllVersions (.clock 0 :: log) y.stack y.sigs := by
  obtain ⟨z, hscan, rfl⟩ := Option.map_eq_some_iff.mp h
  obtain ⟨entries, hstack, hclk, hscanned⟩ := scanned_of_scan hscan
  refine ⟨hclk, ?_⟩
  show Scanned d x.simClk 0 x.sigs.clearAllVersions (.clock 0 :: log) z.stack z.sigs
  rw [hstack, List.nil_append]
  exact hscanned

/-- The index of a record is its position on the stack, which identifies it. -/
def Indexed (stack : List (Constraint S)) : Prop :=
  ∀ (i : Nat) (r : Record S), stack[i]? = some (.record r) → r.index = i

omit [DecidableEq S] in
theorem Indexed.append {stack : List (Constraint S)} (h : Indexed stack) {c : Constraint S}
    (hc : ∀ r, c = .record r → r.index = stack.length) : Indexed (stack ++ [c]) := by
  intro i r hi
  by_cases hlt : i < stack.length
  · rw [List.getElem?_append_left hlt] at hi
    exact h i r hi
  · rw [List.getElem?_append_right (by omega), List.getElem?_singleton] at hi
    split at hi
    · rw [hc r (Option.some.inj hi)]
      omega
    · cases hi

theorem Session.indexed_of_read {clock : Nat} {x y : Session S} {r : LogRecord}
    (h : x.read d clock r = some y) (hx : Indexed x.stack) : Indexed y.stack := by
  cases r with
  | clock n =>
      cases h
      exact hx.append fun r hr => by cases hr
  | assign id =>
      obtain ⟨assign, -, h⟩ := Option.bind_eq_some_iff.mp h
      obtain ⟨⟨r, z⟩, hz, rfl⟩ := Option.map_eq_some_iff.mp h
      have hcreated := created_of_createConstraint hz
      show Indexed (z.stack ++ [.record r])
      rw [hcreated.stack]
      exact hx.append fun r' hr => by cases hr; exact hcreated.index
  | state name value =>
      cases h
      exact hx

theorem Session.indexed_of_scan {clock : Nat} {x y : Session S} {log : List LogRecord}
    (h : scan d clock x log = some y) (hx : Indexed x.stack) : Indexed y.stack := by
  revert hx
  refine scan_induction (P := fun _ x _ y => Indexed x.stack → Indexed y.stack) ?_ ?_ h
  · intro clock x log hx
    exact hx
  · intro clock x r log z y hr hread hclk ih hx
    exact ih (indexed_of_read hread hx)

theorem Session.indexed_of_simulate {x y : Session S} {log : List LogRecord}
    (h : x.simulateBuildStack d log = some y) : Indexed y.stack := by
  obtain ⟨z, hscan, rfl⟩ := Option.map_eq_some_iff.mp h
  show Indexed z.stack
  refine indexed_of_scan hscan ?_
  intro i r hi
  simp at hi

/-- The stack starts with the marker that `write_first_clock` puts in front. -/
theorem Scanned.first {simClk : Nat} {st st' : SigState S} {log : List LogRecord}
    {entries : List (Constraint S)} (h : Scanned d simClk 0 st (.clock 0 :: log) entries st') :
    ∃ rest, entries = .clk 0 :: rest := by
  cases h with
  | step hr hpush hrest =>
      cases hpush
      exact ⟨_, rfl⟩

theorem extends_pushes {clock : Nat} {st st' : SigState S} {r : LogRecord}
    {entries : List (Constraint S)} (h : Pushes d clock st r entries st') :
    SigState.Extends d.decl st st' := by
  cases h with
  | clock n => exact extends_marker st n
  | assign id r hobj hclock hterm hsome => exact extends_updateTerm (d.writesReg_of_getAssign hobj) st
  | state name value => exact .refl st

theorem extends_scanned {simClk clock : Nat} {st st' : SigState S} {log : List LogRecord}
    {entries : List (Constraint S)} (h : Scanned d simClk clock st log entries st') :
    SigState.Extends d.decl st st' := by
  induction h with
  | stop clock st log => exact .refl st
  | step hr hpush hrest ih => exact (extends_pushes hpush).trans ih

/-- The records of a log that `build_stack` reads before it stops. -/
def recorded (simClk : Nat) (log : List LogRecord) : List LogRecord :=
  log.takeWhile fun r => r ≠ .clock (simClk + 1)

theorem recorded_stop (simClk : Nat) (log : List LogRecord) :
    recorded simClk (.clock (simClk + 1) :: log) = [] := by
  simp [recorded]

theorem recorded_cons {simClk : Nat} {r : LogRecord} (hr : r ≠ .clock (simClk + 1))
    (log : List LogRecord) : recorded simClk (r :: log) = r :: recorded simClk log := by
  simp [recorded, hr]

end Scanned

end Conquest
