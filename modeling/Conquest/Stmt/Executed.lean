import Conquest.Stmt.Emit

/-!
# Executed — runs of the instrumented text

The text that `emit_stmt` prints is Verilog again. A run of it does what a run
of the source does, although the default of a case statement has moved to the
end and every arm is in a block now; and what it displays are the ids of the
arms that it enters and the assignments that it makes, in their order.
-/

namespace Conquest

variable {A B σ : Type}

/-! ## Text without `en_inst` -/

namespace IvlStatement

/-- What is printed from the id `n` on. The statement of an arm and that of an
event control have the block around them, be it their own or a new one. -/
def text (isPrinted : Nat → Bool) {k : IvlKind} :
    IvlStatement A B k → Bool → Nat → List (Printed A)
  | noop, _, _ => [.blockBegin, .blockEnd]
  | stask, _, _ => [.display]
  | assign isCommit a, _, n => .assign isCommit a :: if isPrinted n then [.record n] else []
  | block body, isInner, n =>
      if isInner then body.text isPrinted false n
      else .blockBegin :: body.text isPrinted false n ++ [.blockEnd]
  | condit _ _ trueStmt falseStmt, _, n =>
      armText isPrinted n (trueStmt.text isPrinted true (n + 2)) ++
        armText isPrinted (n + 1)
          (falseStmt.text isPrinted true (n + 2 + trueStmt.registered.length))
  | case arms, _, n => arms.text isPrinted false n ++ [.endcase]
  | caseDefault before _ stmt after, _, n =>
      let id := n + before.registered.length + after.registered.length
      before.text isPrinted false n ++ after.text isPrinted false (n + before.registered.length) ++
        armText isPrinted id (stmt.text isPrinted true (id + 1)) ++ [.endcase]
  | wait stmt, _, n => .event :: .blockBegin :: stmt.text isPrinted true n ++ [.blockEnd]
  | cons stmt rest, _, n =>
      stmt.text isPrinted false n ++ rest.text isPrinted false (n + stmt.registered.length)
  | arm _ stmt rest, _, n =>
      armText isPrinted n (stmt.text isPrinted true (n + 1)) ++
        rest.text isPrinted false (n + 1 + stmt.registered.length)
  | _, _, _ => []

theorem text_of_not_block (isPrinted : Nat → Bool) {t : IvlStatement A B .stmt}
    (h : t.isBlock = false) (n : Nat) : t.text isPrinted true n = t.text isPrinted false n := by
  cases t with
  | block body => cases h
  | _ => rfl

/-- The text inside a block. -/
theorem text_inner (isPrinted : Nat → Bool) {t : IvlStatement A B .stmt}
    (h : t.isBlock = true) (n : Nat) :
    t.text isPrinted false n = .blockBegin :: t.text isPrinted true n ++ [.blockEnd] := by
  cases t with
  | block body => rfl
  | _ => cases h

end IvlStatement

section Text

variable {isPrinted : Nat → Bool}

/-- `emit_blocked_stmt_inst` prints a block with the record of the arm. -/
theorem blockedStmtInst_eq {t : IvlStatement A B .stmt} {id : Nat} {branchStack : List Nat}
    {x : Emitter A B}
    (hemits : ∀ y : Emitter A B, t.Once false y.enInst →
      t.emitStmt isPrinted (id :: branchStack) y =
        y.add (t.after y.enInst) t.registered (t.text isPrinted false y.nextId))
    (hblock : t.isBlock = true → ∀ y : Emitter A B, y.enInst = true → t.Once true true →
      t.emitStmt isPrinted (id :: branchStack) y = y.add (t.after true) t.registered
        (.blockBegin :: recordsOf isPrinted id ++ t.text isPrinted true y.nextId ++ [.blockEnd]))
    (honce : t.Once true (x.enInst || t.isBlock)) :
    Emitter.blockedStmtInst isPrinted t.isBlock (t.emitStmt isPrinted (id :: branchStack))
        (id :: branchStack) x =
      x.add (if t.isBlock then false else t.after x.enInst) t.registered
        (.blockBegin :: recordsOf isPrinted id ++ t.text isPrinted true x.nextId ++
          [.blockEnd]) := by
  cases ht : t.isBlock with
  | true =>
      rw [ht, Bool.or_true] at honce
      rw [Emitter.blockedStmtInst, if_pos rfl, hblock ht { x with enInst := true } rfl honce]
      rfl
  | false =>
      rw [ht, Bool.or_false] at honce
      have hbegin : Emitter.instCond isPrinted (id :: branchStack) (x.put .blockBegin) =
          x.add x.enInst [] (.blockBegin :: recordsOf isPrinted id) := by
        rw [Emitter.instCond, Emitter.instrument_eq]
        simp [Emitter.add, Emitter.put]
      have hstmt := hemits (x.add x.enInst [] (.blockBegin :: recordsOf isPrinted id))
        (honce.of_arm ht)
      rw [Emitter.blockedStmtInst, if_neg Bool.false_ne_true, hbegin, hstmt, Emitter.nextId_add,
        t.text_of_not_block isPrinted ht]
      simp [Emitter.add, Emitter.put]

/-- The entry of an arm, its header and its statement. -/
theorem arm_eq {t : IvlStatement A B .stmt} {b : B} {branchStack : List Nat} {x : Emitter A B}
    (hemits : ∀ y : Emitter A B, t.Once false y.enInst →
      t.emitStmt isPrinted (x.nextId :: branchStack) y =
        y.add (t.after y.enInst) t.registered (t.text isPrinted false y.nextId))
    (hblock : t.isBlock = true → ∀ y : Emitter A B, y.enInst = true → t.Once true true →
      t.emitStmt isPrinted (x.nextId :: branchStack) y = y.add (t.after true) t.registered
        (.blockBegin :: recordsOf isPrinted x.nextId ++ t.text isPrinted true y.nextId ++
          [.blockEnd]))
    (honce : t.Once true (x.enInst || t.isBlock)) :
    Emitter.blockedStmtInst isPrinted t.isBlock
        (t.emitStmt isPrinted (x.nextId :: branchStack)) (x.nextId :: branchStack)
        ((x.register (.branch b)).put (.header x.nextId)) =
      x.add (if t.isBlock then false else t.after x.enInst) (.branch b :: t.registered)
        (armText isPrinted x.nextId (t.text isPrinted true (x.nextId + 1))) := by
  let y := (x.register (.branch b)).put (.header x.nextId)
  have hnext : y.nextId = x.nextId + 1 := List.length_append
  rw [blockedStmtInst_eq (x := y) hemits hblock honce, hnext]
  simp [y, Emitter.add, Emitter.put, Emitter.register, armText]

/-- A statement prints its text whatever is around it, and a block that is an arm
puts the record of the arm at its beginning. -/
theorem emitStmt_eq_text (isPrinted : Nat → Bool) {k : IvlKind} (t : IvlStatement A B k) :
    (∀ branchStack (x : Emitter A B), t.Once false x.enInst →
      t.emitStmt isPrinted branchStack x =
        x.add (t.after x.enInst) t.registered (t.text isPrinted false x.nextId)) ∧
    (t.isBlock = true → ∀ id branchStack (x : Emitter A B), x.enInst = true → t.Once true true →
      t.emitStmt isPrinted (id :: branchStack) x = x.add (t.after true) t.registered
        (.blockBegin :: recordsOf isPrinted id ++ t.text isPrinted true x.nextId ++
          [.blockEnd])) := by
  induction t with
  | noop => exact ⟨fun _ x _ => x.emptyBlock_eq_add, fun h => absurd h Bool.false_ne_true⟩
  | null => exact ⟨fun _ x _ => x.add_nil.symm, fun h => absurd h Bool.false_ne_true⟩
  | nil => exact ⟨fun _ x _ => x.add_nil.symm, fun h => absurd h Bool.false_ne_true⟩
  | noArm => exact ⟨fun _ x _ => x.add_nil.symm, fun h => absurd h Bool.false_ne_true⟩
  | delay stmt ih => exact ⟨fun _ x _ => x.add_nil.symm, fun h => absurd h Bool.false_ne_true⟩
  | stask => exact ⟨fun _ x _ => x.put_eq_add .display, fun h => absurd h Bool.false_ne_true⟩
  | assign isCommit a =>
      refine ⟨fun _ x _ => ?_, fun h => absurd h Bool.false_ne_true⟩
      simp only [IvlStatement.emitStmt, Emitter.initAssign, IvlStatement.text]
      split <;> simp [Emitter.add, Emitter.put, Emitter.register, IvlStatement.registered,
        IvlStatement.after]
  | block body ih =>
      obtain ⟨hbody, -⟩ := ih
      constructor
      · intro branchStack x honce
        have hen : x.enInst = false := honce.1.resolve_left Bool.false_ne_true
        have hstmt := hbody branchStack (x.add x.enInst [] [.blockBegin]) honce.2
        rw [IvlStatement.emitStmt, x.put_eq_add .blockBegin,
          if_neg (by simp [Emitter.add, hen]), hstmt, Emitter.nextId_add]
        simp [Emitter.add, Emitter.put, IvlStatement.after, IvlStatement.registered,
          IvlStatement.text]
      · intro _ id branchStack x hen honce
        have hstmt := hbody (id :: branchStack)
          (x.add true [] (.blockBegin :: recordsOf isPrinted id)) honce.2
        have hbegin : Emitter.instCond isPrinted (id :: branchStack) (x.put .blockBegin) =
            x.add true [] (.blockBegin :: recordsOf isPrinted id) := by
          rw [Emitter.instCond, Emitter.instrument_eq]
          simp [Emitter.add, Emitter.put, hen]
        rw [IvlStatement.emitStmt, if_pos (by simpa [Emitter.put] using hen), hbegin, hstmt,
          Emitter.nextId_add]
        simp [Emitter.add, Emitter.put, IvlStatement.after, IvlStatement.registered,
          IvlStatement.text]
  | condit trueArm falseArm trueStmt falseStmt iht ihf =>
      refine ⟨fun branchStack x honce => ?_, fun h => absurd h Bool.false_ne_true⟩
      obtain ⟨honcet, honcef⟩ := honce
      -- both arms are registered before the first one is printed
      let y := x.add x.enInst [.branch trueArm, .branch falseArm] [.header x.nextId]
      have hbegin : ((x.register (.branch trueArm)).register (.branch falseArm)).put
          (.header x.nextId) = y := by
        simp [Emitter.put, Emitter.register, Emitter.add, y]
      have htrue := blockedStmtInst_eq (x := y) (iht.1 (x.nextId :: branchStack))
        (fun ht z => iht.2 ht x.nextId branchStack z) honcet
      let z := x.add (if trueStmt.isBlock then false else trueStmt.after x.enInst)
        (.branch trueArm :: .branch falseArm :: trueStmt.registered)
        (armText isPrinted x.nextId (trueStmt.text isPrinted true y.nextId) ++
          [.header (x.nextId + 1)])
      have hmiddle : (Emitter.blockedStmtInst isPrinted trueStmt.isBlock
          (trueStmt.emitStmt isPrinted (x.nextId :: branchStack)) (x.nextId :: branchStack)
          y).put (.header (x.nextId + 1)) = z := by
        rw [htrue]
        simp [Emitter.put, Emitter.add, y, z, armText]
      have hfalse := blockedStmtInst_eq (x := z) (ihf.1 ((x.nextId + 1) :: branchStack))
        (fun ht y => ihf.2 ht (x.nextId + 1) branchStack y) honcef
      have hy : y.nextId = x.nextId + 2 := x.nextId_add ..
      have hz : z.nextId = x.nextId + 2 + trueStmt.registered.length := by
        rw [x.nextId_add, List.length_cons, List.length_cons]
        omega
      rw [IvlStatement.emitStmt, hbegin, hmiddle, hfalse, hz]
      simp [Emitter.add, z, hy, armText, IvlStatement.registered, IvlStatement.after,
        IvlStatement.text]
  | case arms ih =>
      refine ⟨fun branchStack x honce => ?_, fun h => absurd h Bool.false_ne_true⟩
      rw [IvlStatement.emitStmt, ih.1 branchStack x honce]
      simp [Emitter.add, Emitter.put, IvlStatement.after, IvlStatement.registered,
        IvlStatement.text]
  | caseDefault before b stmt after ihb ihs iha =>
      refine ⟨fun branchStack x honce => ?_, fun h => absurd h Bool.false_ne_true⟩
      obtain ⟨honceb, honcea, honces⟩ := honce
      have hbefore := ihb.1 branchStack x honceb
      let y := x.add (before.after x.enInst) before.registered
        (before.text isPrinted false x.nextId)
      have hy : y.nextId = x.nextId + before.registered.length := x.nextId_add ..
      have hafter := iha.1 branchStack y honcea
      rw [hy] at hafter
      let z := y.add (after.after y.enInst) after.registered
        (after.text isPrinted false (x.nextId + before.registered.length))
      have hz : z.nextId = x.nextId + before.registered.length + after.registered.length := by
        rw [y.nextId_add, hy]
      have hdefault := arm_eq (b := b) (x := z) (ihs.1 (z.nextId :: branchStack))
        (fun ht y => ihs.2 ht z.nextId branchStack y) honces
      rw [IvlStatement.emitStmt, hbefore, hafter, hdefault, hz]
      simp [Emitter.add, Emitter.put, y, z, IvlStatement.registered, IvlStatement.after,
        IvlStatement.text]
  | wait stmt ih =>
      refine ⟨fun branchStack x honce => ?_, fun h => absurd h Bool.false_ne_true⟩
      rw [IvlStatement.emitStmt, IvlStatement.text, x.put_eq_add]
      cases ht : stmt.isBlock with
      | true =>
          rw [Emitter.blockedStmt, if_pos rfl, ih.1 _ (x.add x.enInst [] [.event]) honce,
            Emitter.nextId_add, stmt.text_inner isPrinted ht]
          simp [Emitter.add, IvlStatement.after, IvlStatement.registered]
      | false =>
          have hbegin : (x.add x.enInst [] [.event]).put .blockBegin =
              x.add x.enInst [] [.event, .blockBegin] := by
            rw [Emitter.put_eq_add]
            exact x.add_add ..
          rw [Emitter.blockedStmt, if_neg Bool.false_ne_true, hbegin,
            ih.1 _ (x.add x.enInst [] [.event, .blockBegin]) honce, Emitter.nextId_add,
            stmt.text_of_not_block isPrinted ht]
          simp [Emitter.add, Emitter.put, IvlStatement.after, IvlStatement.registered]
  | cons stmt rest ihs ihr =>
      refine ⟨fun branchStack x honce => ?_, fun h => absurd h Bool.false_ne_true⟩
      rw [IvlStatement.emitStmt, ihs.1 branchStack x honce.1, ihr.1 branchStack _ honce.2,
        Emitter.add_add, Emitter.nextId_add]
      rfl
  | arm b stmt rest ihs ihr =>
      refine ⟨fun branchStack x honce => ?_, fun h => absurd h Bool.false_ne_true⟩
      have harm := arm_eq (b := b) (x := x) (ihs.1 (x.nextId :: branchStack))
        (fun ht y => ihs.2 ht x.nextId branchStack y) honce.1
      have hrest := ihr.1 branchStack
        (x.add (if stmt.isBlock then false else stmt.after x.enInst)
          (.branch b :: stmt.registered)
          (armText isPrinted x.nextId (stmt.text isPrinted true (x.nextId + 1)))) honce.2
      rw [Emitter.nextId_add, List.length_cons, Nat.add_comm stmt.registered.length,
        ← Nat.add_assoc] at hrest
      rw [IvlStatement.emitStmt, harm, hrest, Emitter.add_add]
      rfl

end Text

/-! ## Runs of the source -/

/-- What the design does to its store: an assignment, the test of an arm and what
goes on while the process waits. An `if` tests its first arm, a case statement the
items. -/
structure Dynamics (A B σ : Type) where
  assign : Bool → A → σ → σ
  holds : B → σ → Bool
  wait : σ → σ

/-- A store and what has been passed on the way. -/
structure Outcome (A B σ : Type) where
  store : σ
  steps : List (Registered A B)

namespace Outcome

def enter (b : B) (o : Outcome A B σ) : Outcome A B σ := { o with steps := .branch b :: o.steps }

/-- A second run from the store of the first one. -/
def andThen (o : Outcome A B σ) (f : σ → Outcome A B σ) : Outcome A B σ where
  store := (f o.store).store
  steps := o.steps ++ (f o.store).steps

end Outcome

namespace IvlStatement

/-- Some item matches. -/
def selects (d : Dynamics A B σ) {k : IvlKind} : IvlStatement A B k → σ → Bool
  | arm b _ rest, s => d.holds b s || rest.selects d s
  | _, _ => false

/-- A run: a case statement enters the first item that matches, or its default. -/
def run (d : Dynamics A B σ) {k : IvlKind} : IvlStatement A B k → σ → Outcome A B σ
  | assign isCommit a, s => ⟨d.assign isCommit a s, [.assign isCommit a]⟩
  | block body, s => body.run d s
  | condit trueArm falseArm trueStmt falseStmt, s =>
      if d.holds trueArm s then (trueStmt.run d s).enter trueArm
      else (falseStmt.run d s).enter falseArm
  | case arms, s => arms.run d s
  | caseDefault before b stmt after, s =>
      if before.selects d s then before.run d s
      else if after.selects d s then after.run d s
      else (stmt.run d s).enter b
  | delay stmt, s => stmt.run d s
  | wait stmt, s => stmt.run d (d.wait s)
  | cons stmt rest, s => (stmt.run d s).andThen (rest.run d)
  | arm b stmt rest, s => if d.holds b s then (stmt.run d s).enter b else rest.run d s
  | _, s => ⟨s, []⟩

/-- No delay, which would not be printed. -/
def Undelayed {k : IvlKind} : IvlStatement A B k → Prop
  | block body => body.Undelayed
  | condit _ _ trueStmt falseStmt => trueStmt.Undelayed ∧ falseStmt.Undelayed
  | case arms => arms.Undelayed
  | caseDefault before _ stmt after => before.Undelayed ∧ stmt.Undelayed ∧ after.Undelayed
  | delay _ => False
  | wait stmt => stmt.Undelayed
  | cons stmt rest => stmt.Undelayed ∧ rest.Undelayed
  | arm _ stmt rest => stmt.Undelayed ∧ rest.Undelayed
  | _ => True

/-- Where no item matches nothing is run. -/
theorem run_of_not_selects (d : Dynamics A B σ) {k : IvlKind} (t : IvlStatement A B k)
    (hk : k = .arms) {s : σ} (h : t.selects d s = false) : t.run d s = ⟨s, []⟩ := by
  induction t with
  | noArm => rfl
  | arm b stmt rest ihs ihr =>
      obtain ⟨hb, hrest⟩ := Bool.or_eq_false_iff.mp h
      rw [run, if_neg (by simp [hb])]
      exact ihr rfl hrest
  | _ => cases hk

end IvlStatement

/-! ## Runs of the text -/

/-- What stands before an arm: `if ( )`, `else`, `item :` or `default:`. -/
inductive ArmKind where
  | ifTrue | ifFalse | item | default
  deriving DecidableEq, Repr

namespace ArmKind

/-- Whether the arm is entered, where `entered` tells if an arm of the same
statement has been. -/
def enters (entered holds : Bool) : ArmKind → Bool
  | ifTrue => holds
  | ifFalse => !entered
  | item => !entered && holds
  | default => !entered

/-- What the arms behind it have to know. -/
def enteredAfter (entered holds : Bool) : ArmKind → Bool
  | ifTrue => holds
  | ifFalse => false
  | item => entered || holds
  | default => true

end ArmKind

/-- Every arm has the kind that is printed. -/
def IvlStatement.Labelled (kind : B → ArmKind) {k : IvlKind} : IvlStatement A B k → Prop
  | block body => body.Labelled kind
  | condit trueArm falseArm trueStmt falseStmt =>
      kind trueArm = .ifTrue ∧ kind falseArm = .ifFalse ∧ trueStmt.Labelled kind ∧
        falseStmt.Labelled kind
  | case arms => arms.Labelled kind
  | caseDefault before b stmt after =>
      kind b = .default ∧ before.Labelled kind ∧ stmt.Labelled kind ∧ after.Labelled kind
  | delay stmt => stmt.Labelled kind
  | wait stmt => stmt.Labelled kind
  | cons stmt rest => stmt.Labelled kind ∧ rest.Labelled kind
  | arm b stmt rest => kind b = .item ∧ stmt.Labelled kind ∧ rest.Labelled kind
  | _ => True

/-- A run that is somewhere in the text. In an arm that is not entered it only
counts the blocks around it. -/
structure Runner (A σ : Type) where
  store : σ
  /-- An arm of the statement that it is in has been entered. -/
  entered : Bool
  /-- The same, of the blocks around. -/
  outer : List Bool
  skipped : Option Nat
  /-- The arms entered, the assignments made and the records displayed. -/
  trace : List (Printed A)

namespace Runner

def start (s : σ) : Runner A σ where
  store := s
  entered := false
  outer := []
  skipped := none
  trace := []

def note (p : Printed A) (x : Runner A σ) : Runner A σ := { x with trace := x.trace ++ [p] }

variable (d : Dynamics A B σ) (kind : B → ArmKind) (map : List (Registered A B))

/-- The header of an arm. -/
def atHeader (id : Nat) (x : Runner A σ) : Runner A σ :=
  match map[id]? with
  | some (.branch b) =>
      let holds := d.holds b x.store
      let y := { x with entered := (kind b).enteredAfter x.entered holds }
      if (kind b).enters x.entered holds then y.note (.header id) else { y with skipped := some 0 }
  | _ => { x with skipped := some 0 }

/-- A piece of an arm that is not entered, `n` blocks deep. -/
def skip (n : Nat) (x : Runner A σ) : Printed A → Runner A σ
  | .blockBegin => { x with skipped := some (n + 1) }
  | .blockEnd => { x with skipped := if n ≤ 1 then none else some (n - 1) }
  | _ => x

/-- A piece that is executed. -/
def execute (x : Runner A σ) : Printed A → Runner A σ
  | .blockBegin => { x with entered := false, outer := x.entered :: x.outer }
  | .blockEnd => { x with entered := x.outer.headD false, outer := x.outer.tail }
  | .endcase => { x with entered := false }
  | .event => { x with store := d.wait x.store }
  | .display => x
  | .assign isCommit a => { x with store := d.assign isCommit a x.store }.note (.assign isCommit a)
  | .record id => x.note (.record id)
  | .header id => x.atHeader d kind map id
  | .armRecord id => x.note (.armRecord id)

def step (x : Runner A σ) (p : Printed A) : Runner A σ :=
  match x.skipped with
  | none => x.execute d kind map p
  | some n => x.skip n p

def run (text : List (Printed A)) (x : Runner A σ) : Runner A σ := text.foldl (step d kind map) x

theorem run_append (text text' : List (Printed A)) (x : Runner A σ) :
    run d kind map (text ++ text') x = run d kind map text' (run d kind map text x) :=
  List.foldl_append

theorem run_cons (p : Printed A) (text : List (Printed A)) (x : Runner A σ) :
    run d kind map (p :: text) x = run d kind map text (x.step d kind map p) := rfl

end Runner

/-! ## What a text does -/

section Texts

variable (d : Dynamics A B σ) (kind : B → ArmKind) (map : List (Registered A B))

/-- In an arm that is not entered the text is passed over. -/
def Skips (text : List (Printed A)) : Prop :=
  ∀ n (x : Runner A σ), x.skipped = some (n + 1) → Runner.run d kind map text x = x

/-- A text of items does nothing behind an arm that has been entered. -/
def Passes (text : List (Printed A)) : Prop :=
  ∀ x : Runner A σ, x.skipped = none → x.entered = true → Runner.run d kind map text x = x

variable (isPrinted : Nat → Bool)

/-- What a run leaves behind of an entry of `assign_map`. -/
def traceOf (id : Nat) : Registered A B → List (Printed A)
  | .assign isCommit a => .assign isCommit a :: if isPrinted id then [.record id] else []
  | .branch _ => .header id :: recordsOf isPrinted id

/-- The entries that a run passes, with their ids. -/
def Passed (map steps : List (Registered A B)) (trace : List (Printed A)) : Prop :=
  ∃ entries : List (Nat × Registered A B), (∀ e ∈ entries, map[e.1]? = some e.2) ∧
    entries.map Prod.snd = steps ∧ trace = entries.flatMap fun e => traceOf isPrinted e.1 e.2

/-- The text does what `f` does, and leaves its steps behind. -/
def Executes (text : List (Printed A)) (selects : σ → Bool) (f : σ → Outcome A B σ) : Prop :=
  ∀ x : Runner A σ, x.skipped = none → x.entered = false →
    ∃ trace, Passed isPrinted map (f x.store).steps trace ∧
      Runner.run d kind map text x =
        { x with
          store := (f x.store).store
          entered := selects x.store
          trace := x.trace ++ trace }

variable {d kind map isPrinted}

theorem Passed.nil : Passed isPrinted map [] [] := ⟨[], by simp, rfl, rfl⟩

theorem Passed.eq_nil {trace : List (Printed A)} (h : Passed isPrinted map [] trace) :
    trace = [] := by
  obtain ⟨entries, -, hnil, rfl⟩ := h
  rw [List.map_eq_nil_iff.mp hnil]
  rfl

theorem Passed.append {steps steps' : List (Registered A B)} {trace trace' : List (Printed A)}
    (h : Passed isPrinted map steps trace) (h' : Passed isPrinted map steps' trace') :
    Passed isPrinted map (steps ++ steps') (trace ++ trace') := by
  obtain ⟨entries, hmap, rfl, rfl⟩ := h
  obtain ⟨entries', hmap', rfl, rfl⟩ := h'
  refine ⟨entries ++ entries', fun e he => ?_, List.map_append, List.flatMap_append.symm⟩
  exact (List.mem_append.mp he).elim (hmap e) (hmap' e)

theorem Passed.single {id : Nat} {r : Registered A B} (h : map[id]? = some r) :
    Passed isPrinted map [r] (traceOf isPrinted id r) :=
  ⟨[(id, r)], by simp [h], rfl, by simp⟩

theorem Skips.append {text text' : List (Printed A)} (h : Skips d kind map text)
    (h' : Skips d kind map text') : Skips d kind map (text ++ text') := by
  intro n x hx
  rw [Runner.run_append, h n x hx, h' n x hx]

/-- Pieces other than the ends of blocks. -/
theorem Skips.plain {text : List (Printed A)} (h : ∀ p ∈ text, p ≠ .blockBegin ∧ p ≠ .blockEnd) :
    Skips d kind map text := by
  intro n x hx
  induction text with
  | nil => rfl
  | cons p text ih =>
      obtain ⟨hp, htext⟩ := List.forall_mem_cons.mp h
      have hstep : x.step d kind map p = x := by
        rw [Runner.step, hx]
        cases p with
        | blockBegin => exact absurd rfl hp.1
        | blockEnd => exact absurd rfl hp.2
        | _ => rfl
      rw [Runner.run_cons, hstep]
      exact ih htext

/-- A block is passed over whole. -/
theorem Skips.block {text : List (Printed A)} (h : Skips d kind map text) :
    Skips d kind map (.blockBegin :: text ++ [.blockEnd]) := by
  intro n x hx
  have hbegin : x.step d kind map .blockBegin = { x with skipped := some (n + 2) } := by
    rw [Runner.step, hx]
    rfl
  rw [List.cons_append, Runner.run_cons, hbegin, Runner.run_append, h (n + 1) _ rfl]
  simp [Runner.run, Runner.step, Runner.skip, ← hx]

/-! ## Arms -/

/-- The record of an arm, where it is executed. -/
theorem run_recordsOf (id : Nat) {x : Runner A σ} (hx : x.skipped = none) :
    Runner.run d kind map (recordsOf isPrinted id) x =
      { x with trace := x.trace ++ recordsOf isPrinted id } := by
  unfold recordsOf
  split
  · simp [Runner.run, Runner.step, Runner.execute, Runner.note, hx]
  · simp [Runner.run]

theorem skips_recordsOf (id : Nat) : Skips d kind map (recordsOf isPrinted id) := by
  apply Skips.plain
  intro p hp
  unfold recordsOf at hp
  split at hp
  · obtain rfl := List.mem_singleton.mp hp
    simp
  · cases hp

theorem armText_eq (id : Nat) (inner : List (Printed A)) :
    armText isPrinted id inner =
      .header id :: (.blockBegin :: (recordsOf isPrinted id ++ inner) ++ [.blockEnd]) := by
  simp [armText]

theorem Skips.armText {inner : List (Printed A)} (h : Skips d kind map inner) (id : Nat) :
    Skips d kind map (armText isPrinted id inner) := by
  rw [armText_eq]
  have hheader : Skips d kind map [.header id] := Skips.plain (by simp)
  exact hheader.append ((skips_recordsOf id).append h).block

/-- An arm that is not entered. -/
theorem run_armText_of_not_enters {inner : List (Printed A)} (hskips : Skips d kind map inner)
    {id : Nat} {b : B} (hmap : map[id]? = some (.branch b)) {x : Runner A σ}
    (hx : x.skipped = none) {entered : Bool}
    (hnot : (kind b).enters x.entered (d.holds b x.store) = false)
    (hafter : (kind b).enteredAfter x.entered (d.holds b x.store) = entered) :
    Runner.run d kind map (armText isPrinted id inner) x = { x with entered := entered } := by
  have hrecords : Skips d kind map (recordsOf isPrinted id) := skips_recordsOf id
  have hblock := hrecords.append hskips
  rw [armText_eq, Runner.run_cons, List.cons_append, Runner.run_cons, Runner.run_append]
  simp only [Runner.step, hx, Runner.execute, Runner.atHeader, hmap, hnot, hafter,
    Bool.false_eq_true, if_false, Runner.skip]
  rw [hblock 0 _ rfl]
  simp [Runner.run, Runner.step, Runner.skip]

/-- An arm that is entered. -/
theorem run_armText_of_enters {inner : List (Printed A)} {f : σ → Outcome A B σ}
    (h : Executes d kind map isPrinted inner (fun _ => false) f) {id : Nat} {b : B}
    (hmap : map[id]? = some (.branch b)) {x : Runner A σ} (hx : x.skipped = none) {entered : Bool}
    (henters : (kind b).enters x.entered (d.holds b x.store) = true)
    (hafter : (kind b).enteredAfter x.entered (d.holds b x.store) = entered) :
    ∃ trace, Passed isPrinted map ((f x.store).enter b).steps trace ∧
      Runner.run d kind map (armText isPrinted id inner) x =
        { x with
          store := (f x.store).store
          entered := entered
          trace := x.trace ++ trace } := by
  let y : Runner A σ :=
    { x with
      entered := false
      outer := entered :: x.outer
      skipped := none
      trace := x.trace ++ [.header id] ++ recordsOf isPrinted id }
  obtain ⟨trace, hpassed, hrun⟩ := h y rfl rfl
  refine ⟨_, (Passed.single hmap).append hpassed, ?_⟩
  rw [armText_eq, Runner.run_cons, List.cons_append, Runner.run_cons, Runner.run_append,
    Runner.run_append]
  simp only [Runner.step, hx, Runner.execute, Runner.atHeader, hmap, henters, hafter, if_true,
    Runner.note]
  rw [run_recordsOf id rfl, hrun]
  simp [y, Runner.run, Runner.step, Runner.execute, traceOf]

theorem Executes.append {text text' : List (Printed A)} {selects : σ → Bool}
    {f g : σ → Outcome A B σ} (h : Executes d kind map isPrinted text (fun _ => false) f)
    (h' : Executes d kind map isPrinted text' selects g) :
    Executes d kind map isPrinted (text ++ text') (fun s => selects (f s).store)
      (fun s => (f s).andThen g) := by
  intro x hx hentered
  obtain ⟨trace, hpassed, hrun⟩ := h x hx hentered
  obtain ⟨trace', hpassed', hrun'⟩ := h' { x with
    store := (f x.store).store
    entered := false
    trace := x.trace ++ trace } hx rfl
  refine ⟨trace ++ trace', hpassed.append hpassed', ?_⟩
  rw [Runner.run_append, hrun, hrun']
  simp [Outcome.andThen]

theorem Executes.block {text : List (Printed A)} {f : σ → Outcome A B σ}
    (h : Executes d kind map isPrinted text (fun _ => false) f) :
    Executes d kind map isPrinted (.blockBegin :: text ++ [.blockEnd]) (fun _ => false) f := by
  intro x hx hentered
  obtain ⟨trace, hpassed, hrun⟩ := h { x with
    entered := false
    outer := false :: x.outer } hx rfl
  refine ⟨trace, hpassed, ?_⟩
  have hbegin : x.step d kind map .blockBegin = { x with
      entered := false
      outer := false :: x.outer } := by
    simp [Runner.step, Runner.execute, hx, hentered]
  rw [List.cons_append, Runner.run_cons, hbegin, Runner.run_append, hrun]
  simp [Runner.run, Runner.step, Runner.execute, hx]

/-- The entries from the id `n` on. -/
def EntriesAt (map : List (Registered A B)) (n : Nat) (rs : List (Registered A B)) : Prop :=
  ∀ i r, rs[i]? = some r → map[n + i]? = some r

theorem EntriesAt.append {n : Nat} {rs rs' : List (Registered A B)}
    (h : EntriesAt map n (rs ++ rs')) :
    EntriesAt map n rs ∧ EntriesAt map (n + rs.length) rs' := by
  constructor
  · intro i r hi
    obtain ⟨hlt, -⟩ := List.getElem?_eq_some_iff.mp hi
    apply h i r
    rw [List.getElem?_append_left hlt, hi]
  · intro i r hi
    rw [Nat.add_assoc]
    apply h (rs.length + i) r
    rw [List.getElem?_append_right (Nat.le_add_right _ _), Nat.add_sub_cancel_left, hi]

theorem EntriesAt.cons {n : Nat} {r : Registered A B} {rs : List (Registered A B)}
    (h : EntriesAt map n (r :: rs)) : map[n]? = some r ∧ EntriesAt map (n + 1) rs :=
  ⟨h 0 r rfl, fun i r hi => by simpa [Nat.add_assoc, Nat.add_comm 1] using h (i + 1) r hi⟩

theorem executes_nil : Executes d kind map isPrinted [] (fun _ => false) fun s => ⟨s, []⟩ := by
  intro x hx hentered
  refine ⟨[], Passed.nil, ?_⟩
  simp [Runner.run, ← hentered]

/-- A text that selects nothing leaves everything as it is. -/
theorem Executes.run_of_not_selects {text : List (Printed A)} {selects : σ → Bool}
    {f : σ → Outcome A B σ} (h : Executes d kind map isPrinted text selects f) {x : Runner A σ}
    (hx : x.skipped = none) (hentered : x.entered = false) (hnot : selects x.store = false)
    (hstays : f x.store = ⟨x.store, []⟩) : Runner.run d kind map text x = x := by
  obtain ⟨trace, hpassed, hrun⟩ := h x hx hentered
  rw [hstays] at hpassed hrun
  rw [hrun, hpassed.eq_nil, List.append_nil, hnot, ← hentered]

/-- The two arms of a condition. -/
theorem Executes.condit {inner inner' : List (Printed A)} {f g : σ → Outcome A B σ}
    (htrue : Executes d kind map isPrinted inner (fun _ => false) f)
    (hfalse : Executes d kind map isPrinted inner' (fun _ => false) g)
    (hskips : Skips d kind map inner) (hskips' : Skips d kind map inner') {n : Nat} {b b' : B}
    (hmap : map[n]? = some (.branch b)) (hmap' : map[n + 1]? = some (.branch b'))
    (hkind : kind b = .ifTrue) (hkind' : kind b' = .ifFalse) :
    Executes d kind map isPrinted (armText isPrinted n inner ++ armText isPrinted (n + 1) inner')
      (fun _ => false) fun s => if d.holds b s then (f s).enter b else (g s).enter b' := by
  intro x hx hentered
  beta_reduce
  rw [Runner.run_append]
  have hafter : (kind b).enteredAfter x.entered (d.holds b x.store) = d.holds b x.store := by
    rw [hkind]
    rfl
  cases hholds : d.holds b x.store with
  | true =>
      obtain ⟨trace, hpassed, hrun⟩ := run_armText_of_enters htrue hmap hx
        (by rw [hkind]; exact hholds) (hafter.trans hholds)
      let y : Runner A σ :=
        { x with
          store := (f x.store).store
          entered := true
          trace := x.trace ++ trace }
      have hnot : (kind b').enters y.entered (d.holds b' y.store) = false := by
        rw [hkind']
        rfl
      have hend : (kind b').enteredAfter y.entered (d.holds b' y.store) = false := by
        rw [hkind']
        rfl
      refine ⟨trace, hpassed, ?_⟩
      rw [hrun]
      exact run_armText_of_not_enters (x := y) hskips' hmap' hx hnot hend
  | false =>
      let y : Runner A σ := { x with entered := false }
      have henters : (kind b').enters y.entered (d.holds b' y.store) = true := by
        rw [hkind']
        rfl
      have hend : (kind b').enteredAfter y.entered (d.holds b' y.store) = false := by
        rw [hkind']
        rfl
      rw [run_armText_of_not_enters hskips hmap hx (by rw [hkind]; exact hholds)
        (hafter.trans hholds)]
      exact run_armText_of_enters (x := y) hfalse hmap' hx henters hend

/-- An item in front of others. -/
theorem Executes.item {inner rest : List (Printed A)} {selects : σ → Bool}
    {f g : σ → Outcome A B σ} (h : Executes d kind map isPrinted inner (fun _ => false) f)
    (hrest : Executes d kind map isPrinted rest selects g) (hskips : Skips d kind map inner)
    (hpasses : Passes d kind map rest) {id : Nat} {b : B} (hmap : map[id]? = some (.branch b))
    (hkind : kind b = .item) :
    Executes d kind map isPrinted (armText isPrinted id inner ++ rest)
      (fun s => d.holds b s || selects s)
      fun s => if d.holds b s then (f s).enter b else g s := by
  intro x hx hentered
  beta_reduce
  rw [Runner.run_append]
  have hafter : (kind b).enteredAfter x.entered (d.holds b x.store) = d.holds b x.store := by
    rw [hkind, hentered]
    rfl
  have henters : (kind b).enters x.entered (d.holds b x.store) = d.holds b x.store := by
    rw [hkind, hentered]
    rfl
  cases hholds : d.holds b x.store with
  | true =>
      obtain ⟨trace, hpassed, hrun⟩ := run_armText_of_enters h hmap hx (henters.trans hholds)
        (hafter.trans hholds)
      refine ⟨trace, hpassed, ?_⟩
      rw [hrun]
      exact hpasses _ hx rfl
  | false =>
      rw [run_armText_of_not_enters hskips hmap hx (henters.trans hholds)
        (hafter.trans (hholds.trans hentered.symm))]
      exact hrest x hx hentered

theorem Passes.append {text text' : List (Printed A)} (h : Passes d kind map text)
    (h' : Passes d kind map text') : Passes d kind map (text ++ text') := by
  intro x hx hentered
  rw [Runner.run_append, h x hx hentered, h' x hx hentered]

/-- Behind the arm that is entered neither an item nor the default is. -/
theorem passes_armText {inner : List (Printed A)} (hskips : Skips d kind map inner) {id : Nat}
    {b : B} (hmap : map[id]? = some (.branch b)) (hkind : kind b = .item ∨ kind b = .default) :
    Passes d kind map (armText isPrinted id inner) := by
  intro x hx hentered
  have hnot : (kind b).enters x.entered (d.holds b x.store) = false := by
    rcases hkind with hkind | hkind <;> rw [hkind, hentered] <;> rfl
  have hafter : (kind b).enteredAfter x.entered (d.holds b x.store) = x.entered := by
    rcases hkind with hkind | hkind <;> rw [hkind, hentered] <;> rfl
  exact run_armText_of_not_enters hskips hmap hx hnot hafter

/-- The end of a case statement. -/
theorem Executes.endcase {text : List (Printed A)} {selects : σ → Bool} {f : σ → Outcome A B σ}
    (h : Executes d kind map isPrinted text selects f) :
    Executes d kind map isPrinted (text ++ [.endcase]) (fun _ => false) f := by
  intro x hx hentered
  obtain ⟨trace, hpassed, hrun⟩ := h x hx hentered
  refine ⟨trace, hpassed, ?_⟩
  rw [Runner.run_append, hrun]
  simp [Runner.run, Runner.step, Runner.execute, hx]

/-- Items behind items. -/
theorem Executes.items {text text' : List (Printed A)} {selects selects' : σ → Bool}
    {f g : σ → Outcome A B σ} (h : Executes d kind map isPrinted text selects f)
    (h' : Executes d kind map isPrinted text' selects' g) (hpasses : Passes d kind map text')
    (hstays : ∀ s, selects s = false → f s = ⟨s, []⟩) :
    Executes d kind map isPrinted (text ++ text') (fun s => selects s || selects' s)
      fun s => if selects s then f s else g s := by
  intro x hx hentered
  beta_reduce
  rw [Runner.run_append]
  cases hselects : selects x.store with
  | true =>
      obtain ⟨trace, hpassed, hrun⟩ := h x hx hentered
      refine ⟨trace, hpassed, ?_⟩
      rw [hrun, hselects]
      exact hpasses _ hx rfl
  | false =>
      rw [h.run_of_not_selects hx hentered hselects (hstays _ hselects)]
      exact h' x hx hentered

/-- The default, which is entered where no item is. -/
theorem Executes.default {inner : List (Printed A)} {f : σ → Outcome A B σ}
    (h : Executes d kind map isPrinted inner (fun _ => false) f) {id : Nat} {b : B}
    (hmap : map[id]? = some (.branch b)) (hkind : kind b = .default) :
    Executes d kind map isPrinted (armText isPrinted id inner) (fun _ => true)
      fun s => (f s).enter b := by
  intro x hx hentered
  have henters : (kind b).enters x.entered (d.holds b x.store) = true := by
    rw [hkind, hentered]
    rfl
  exact run_armText_of_enters h hmap hx henters (by rw [hkind]; rfl)

namespace IvlStatement

theorem selects_eq_false (d : Dynamics A B σ) {k : IvlKind} (t : IvlStatement A B k)
    (hk : k ≠ .arms) : t.selects d = fun _ => false := by
  cases t with
  | noArm => exact absurd rfl hk
  | arm b stmt rest => exact absurd rfl hk
  | _ => rfl

/-- In an arm that is not entered a whole statement is passed over. -/
theorem skips_text {k : IvlKind} (t : IvlStatement A B k) (isInner : Bool) (n : Nat) :
    Skips d kind map (t.text isPrinted isInner n) := by
  induction t generalizing isInner n with
  | noop =>
      have hnil : Skips d kind map ([] : List (Printed A)) := fun _ _ _ => rfl
      exact hnil.block
  | null => exact Skips.plain (by simp [text])
  | nil => exact Skips.plain (by simp [text])
  | noArm => exact Skips.plain (by simp [text])
  | delay stmt ih => exact Skips.plain (by simp [text])
  | stask => exact Skips.plain (by simp [text])
  | assign isCommit a =>
      rw [text]
      split
      · exact Skips.plain (by simp)
      · exact Skips.plain (by simp)
  | block body ih =>
      cases isInner with
      | true => exact ih false n
      | false => exact (ih false n).block
  | condit trueArm falseArm trueStmt falseStmt iht ihf =>
      exact ((iht _ _).armText n).append ((ihf _ _).armText (n + 1))
  | case arms ih => exact (ih false n).append (Skips.plain (by simp))
  | caseDefault before b stmt after ihb ihs iha =>
      exact (((ihb _ _).append (iha _ _)).append ((ihs _ _).armText _)).append
        (Skips.plain (by simp))
  | wait stmt ih =>
      have hevent : Skips d kind map [.event] := Skips.plain (by simp)
      exact hevent.append (ih true n).block
  | cons stmt rest ihs ihr => exact (ihs _ _).append (ihr _ _)
  | arm b stmt rest ihs ihr => exact ((ihs _ _).armText n).append (ihr _ _)

/-- Behind an arm that has been entered the items do nothing. -/
theorem passes_text {k : IvlKind} (t : IvlStatement A B k) (hk : k = .arms) {n : Nat}
    (hlabelled : t.Labelled kind) (hentries : EntriesAt map n t.registered) :
    Passes d kind map (t.text isPrinted false n) := by
  induction t generalizing n with
  | noArm => exact fun x _ _ => rfl
  | arm b stmt rest ihs ihr =>
      obtain ⟨hkind, -, hlabelled⟩ := hlabelled
      obtain ⟨hmap, hentries⟩ := EntriesAt.cons hentries
      have hrest := ihr rfl hlabelled (EntriesAt.append hentries).2
      exact (passes_armText (stmt.skips_text _ _) hmap (.inl hkind)).append hrest
  | _ => cases hk

/-- **Runs of a statement.** A run of its text does what a run of the statement
does. -/
theorem executes_text {k : IvlKind} (t : IvlStatement A B k) (hundelayed : t.Undelayed)
    (hlabelled : t.Labelled kind) (isInner : Bool) (n : Nat)
    (hentries : EntriesAt map n t.registered) :
    Executes d kind map isPrinted (t.text isPrinted isInner n) (t.selects d) (t.run d) := by
  induction t generalizing isInner n with
  | noop => exact executes_nil.block
  | null => exact executes_nil
  | nil => exact executes_nil
  | noArm => exact executes_nil
  | delay stmt ih => cases hundelayed
  | stask =>
      intro x hx hentered
      cases x
      cases hx
      cases hentered
      refine ⟨[], Passed.nil, ?_⟩
      simp [text, run, selects, Runner.run, Runner.step, Runner.execute]
  | assign isCommit a =>
      intro x hx hentered
      have hmap : map[n]? = some (.assign isCommit a) := hentries 0 _ rfl
      refine ⟨_, Passed.single hmap, ?_⟩
      cases x
      cases hx
      cases hentered
      rw [text, traceOf]
      split
      · simp [run, selects, Runner.run, Runner.step, Runner.execute, Runner.note]
      · simp [run, selects, Runner.run, Runner.step, Runner.execute, Runner.note]
  | block body ih =>
      have hbody := ih hundelayed hlabelled false n hentries
      rw [body.selects_eq_false d nofun] at hbody
      cases isInner with
      | true => exact hbody
      | false => exact hbody.block
  | condit trueArm falseArm trueStmt falseStmt iht ihf =>
      obtain ⟨hundelayedt, hundelayedf⟩ := hundelayed
      obtain ⟨hkindt, hkindf, hlabelledt, hlabelledf⟩ := hlabelled
      obtain ⟨hmapt, hentries⟩ := EntriesAt.cons hentries
      obtain ⟨hmapf, hentries⟩ := EntriesAt.cons hentries
      obtain ⟨hentriest, hentriesf⟩ := EntriesAt.append hentries
      have htrue := iht hundelayedt hlabelledt true (n + 2) hentriest
      have hfalse := ihf hundelayedf hlabelledf true (n + 2 + trueStmt.registered.length) hentriesf
      rw [trueStmt.selects_eq_false d nofun] at htrue
      rw [falseStmt.selects_eq_false d nofun] at hfalse
      exact Executes.condit htrue hfalse (trueStmt.skips_text _ _) (falseStmt.skips_text _ _)
        hmapt hmapf hkindt hkindf
  | case arms ih => exact (ih hundelayed hlabelled false n hentries).endcase
  | caseDefault before b stmt after ihb ihs iha =>
      obtain ⟨hundelayedb, hundelayeds, hundelayeda⟩ := hundelayed
      obtain ⟨hkind, hlabelledb, hlabelleds, hlabelleda⟩ := hlabelled
      obtain ⟨hentries, hentriess⟩ := EntriesAt.append hentries
      obtain ⟨hentriesb, hentriesa⟩ := EntriesAt.append hentries
      rw [List.length_append, ← Nat.add_assoc] at hentriess
      obtain ⟨hmap, hentriess⟩ := EntriesAt.cons hentriess
      have hbefore := ihb hundelayedb hlabelledb false n hentriesb
      have hafter := iha hundelayeda hlabelleda false _ hentriesa
      have hstmt := ihs hundelayeds hlabelleds true _ hentriess
      rw [stmt.selects_eq_false d nofun] at hstmt
      let id := n + before.registered.length + after.registered.length
      have hdefault := hstmt.default hmap hkind
      have hpasses : Passes d kind map
          (armText isPrinted id (stmt.text isPrinted true (id + 1))) :=
        passes_armText (stmt.skips_text _ _) hmap (.inr hkind)
      have hothers := hafter.items hdefault hpasses fun s => after.run_of_not_selects d rfl
      have hitems : Passes d kind map
          (after.text isPrinted false (n + before.registered.length)) :=
        after.passes_text rfl hlabelleda hentriesa
      have hall := hbefore.items hothers (hitems.append hpasses) fun s =>
        before.run_of_not_selects d rfl
      rw [text, List.append_assoc (before.text isPrinted false n)]
      exact hall.endcase
  | wait stmt ih =>
      have hstmt := ih hundelayed hlabelled true n hentries
      rw [stmt.selects_eq_false d nofun] at hstmt
      have hevent : Executes d kind map isPrinted [.event] (fun _ => false)
          fun s => ⟨d.wait s, []⟩ := by
        intro x hx hentered
        refine ⟨[], Passed.nil, ?_⟩
        simp [Runner.run, Runner.step, Runner.execute, hx, ← hentered]
      exact hevent.append hstmt.block
  | cons stmt rest ihs ihr =>
      obtain ⟨hundelayeds, hundelayedr⟩ := hundelayed
      obtain ⟨hlabelleds, hlabelledr⟩ := hlabelled
      obtain ⟨hentriess, hentriesr⟩ := EntriesAt.append hentries
      have hstmt := ihs hundelayeds hlabelleds false n hentriess
      have hrest := ihr hundelayedr hlabelledr false _ hentriesr
      rw [stmt.selects_eq_false d nofun] at hstmt
      rw [rest.selects_eq_false d nofun] at hrest
      exact hstmt.append hrest
  | arm b stmt rest ihs ihr =>
      obtain ⟨hundelayeds, hundelayedr⟩ := hundelayed
      obtain ⟨hkind, hlabelleds, hlabelledr⟩ := hlabelled
      obtain ⟨hmap, hentries⟩ := EntriesAt.cons hentries
      obtain ⟨hentriess, hentriesr⟩ := EntriesAt.append hentries
      have hstmt := ihs hundelayeds hlabelleds true (n + 1) hentriess
      have hrest := ihr hundelayedr hlabelledr false _ hentriesr
      rw [stmt.selects_eq_false d nofun] at hstmt
      exact Executes.item hstmt hrest (stmt.skips_text _ _)
        (rest.passes_text rfl hlabelledr hentriesr) hmap hkind

end IvlStatement

/-- What the records say is what has been passed. -/
def Printed.shown? : Printed A → Option Nat
  | .record id => some id
  | .armRecord id => some id
  | _ => none

theorem shown_traceOf (id : Nat) (r : Registered A B) :
    (traceOf isPrinted id r).filterMap Printed.shown? = if isPrinted id then [id] else [] := by
  cases r with
  | assign isCommit a =>
      rw [traceOf]
      split <;> simp [List.filterMap_cons, Printed.shown?]
  | branch b =>
      rw [traceOf, recordsOf]
      split <;> simp [List.filterMap_cons, Printed.shown?]

theorem shown_flatMap (entries : List (Nat × Registered A B)) :
    (entries.flatMap fun e => traceOf isPrinted e.1 e.2).filterMap Printed.shown? =
      (entries.map Prod.fst).filter isPrinted := by
  induction entries with
  | nil => rfl
  | cons e entries ih =>
      rw [List.flatMap_cons, List.filterMap_append, ih, shown_traceOf, List.map_cons,
        List.filter_cons]
      split <;> rfl

theorem assigns_traceOf (id : Nat) (r : Registered A B) :
    (traceOf isPrinted id r).filterMap Printed.assign? = r.assign?.toList := by
  cases r with
  | assign isCommit a =>
      rw [traceOf]
      split <;> simp [List.filterMap_cons, Printed.assign?, Registered.assign?]
  | branch b =>
      rw [traceOf, recordsOf]
      split <;> simp [List.filterMap_cons, Printed.assign?, Registered.assign?]

theorem assigns_flatMap (entries : List (Nat × Registered A B)) :
    (entries.flatMap fun e => traceOf isPrinted e.1 e.2).filterMap Printed.assign? =
      (entries.map Prod.snd).filterMap Registered.assign? := by
  induction entries with
  | nil => rfl
  | cons e entries ih =>
      rw [List.flatMap_cons, List.filterMap_append, ih, assigns_traceOf, List.map_cons]
      cases h : e.2.assign? with
      | none => rw [List.filterMap_cons_none h]; rfl
      | some p => rw [List.filterMap_cons_some h]; rfl

end Texts

/-- **Runs of the instrumented process.** Whatever assignments do and conditions
test, a run of the text that `emit_stmt` prints ends outside of all blocks in the
store in which a run of the source ends. It makes the assignments of this run in
their order, and the ids that it displays, those of printed records, are in
`assign_map` those of the arms and assignments that this run passes. -/
theorem emitStmt_runs (isPrinted : Nat → Bool) (d : Dynamics A B σ) (kind : B → ArmKind)
    (t : IvlStatement A B .stmt) (honce : t.Once false false) (hundelayed : t.Undelayed)
    (hlabelled : t.Labelled kind) (s : σ) :
    let y := t.emitStmt isPrinted [] Emitter.start
    let x := Runner.run d kind y.assignMap y.out (Runner.start s)
    let o := t.run d s
    x.store = o.store ∧ x.skipped = none ∧ x.outer = [] ∧
      x.trace.filterMap Printed.assign? = o.steps.filterMap Registered.assign? ∧
      ∃ ids : List Nat, ids.map (fun id => y.assignMap[id]?) = o.steps.map some ∧
        x.trace.filterMap Printed.shown? = ids.filter isPrinted := by
  have htext := (emitStmt_eq_text isPrinted t).1 [] .start honce
  have hentries : EntriesAt t.registered 0 t.registered := fun i r hi => by simpa using hi
  have hexecutes : Executes d kind t.registered isPrinted (t.text isPrinted false 0) (t.selects d)
      (t.run d) := t.executes_text hundelayed hlabelled false 0 hentries
  obtain ⟨trace, ⟨entries, hmap, hsteps, rfl⟩, hrun⟩ := hexecutes (.start s) rfl rfl
  intro y x o
  have hy : y = Emitter.start.add (t.after false) t.registered (t.text isPrinted false 0) := htext
  have hsteps : entries.map Prod.snd = o.steps := hsteps
  have hx : x = { (Runner.start s : Runner A σ) with
      store := o.store
      entered := t.selects d s
      trace := entries.flatMap fun e => traceOf isPrinted e.1 e.2 } := by
    rw [show x = Runner.run d kind y.assignMap y.out (Runner.start s) from rfl, hy]
    exact hrun
  rw [hx]
  refine ⟨rfl, rfl, rfl, ?_, entries.map Prod.fst, ?_, shown_flatMap entries⟩
  · rw [← hsteps]
    exact assigns_flatMap entries
  · rw [← hsteps, List.map_map, List.map_map]
    apply List.map_congr_left
    intro e he
    rw [hy]
    exact hmap e he

/-- Two signals, and an arm that looks at the first one. -/
def pairDynamics : Dynamics Nat Nat (Bool × Bool) where
  assign := fun _ a s => if a = 0 then (!s.1, s.2) else (s.1, !s.2)
  holds := fun _ s => s.1
  wait := id

/-- The kinds of the arms of `defaultFirst`. -/
def defaultFirstKind (b : Nat) : ArmKind := if b = 0 then .default else .item

/-- The default is taken although the item is printed in front of it, and the
assignment of the default, which is the last entry, is the only one displayed. -/
theorem defaultFirst_runs :
    let y := defaultFirst.emitStmt (fun id => id ≠ 2) [] Emitter.start
    let x := Runner.run pairDynamics defaultFirstKind y.assignMap y.out (Runner.start (false, true))
    let o := defaultFirst.run pairDynamics (false, true)
    x.store = o.store ∧ x.skipped = none ∧ x.outer = [] ∧
      x.trace.filterMap Printed.assign? = o.steps.filterMap Registered.assign? ∧
      ∃ ids : List Nat, ids.map (fun id => y.assignMap[id]?) = o.steps.map some ∧
        x.trace.filterMap Printed.shown? = ids.filter fun id => id ≠ 2 :=
  emitStmt_runs _ pairDynamics defaultFirstKind defaultFirst
    ⟨trivial, ⟨trivial, trivial⟩, trivial⟩ ⟨trivial, trivial, trivial, trivial⟩
    ⟨rfl, trivial, trivial, rfl, trivial, trivial⟩ _

end Conquest
