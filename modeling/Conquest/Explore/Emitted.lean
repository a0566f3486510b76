import Conquest.Explore.Testbench
import Conquest.Stmt.Path

/-!
# Emitted — the processes of the simulator as `emit_stmt` prints them

The simulator has the statements of a process by their ids, and the arms of an
`if` or a `case` as a chain. What it executes of a process is what `emit_stmt`
prints for the statements: the same assignments, arms and records in the same
order.
-/

namespace Conquest

variable {A B : Type}

/-- A piece that assigns, opens an arm or displays a record. -/
def Printed.isCode : Printed A → Bool
  | .assign _ _ | .record _ | .header _ | .armRecord _ => true
  | _ => false

namespace Code

variable (isPrinted : Nat → Bool) (map : List (Registered A B))

/-- An assignment with its record. -/
def assignText (id : Nat) : List (Printed A) :=
  match map[id]? with
  | some (.assign isCommit a) =>
      .assign isCommit a :: if isPrinted id then [.record id] else []
  | _ => []

/-- The text of the code, with the assignments from `assign_map`. -/
def text : Code → List (Printed A)
  | skip => []
  | assign id => assignText isPrinted map id
  | display id => recordsOf isPrinted id
  | seq c c' => c.text ++ c'.text
  | arm id body rest => .header id :: body.text ++ rest.text

end Code

/-- The statements by their ids, from `n` on. Behind the items of a case statement
the chain goes on with `rest`. -/
def IvlStatement.toStmt {k : IvlKind} : IvlStatement A B k → Nat → Stmt → Stmt
  | assign _ _, n, _ => .assign n
  | block body, n, _ => .block (body.toStmt n .noop)
  | condit _ _ trueStmt falseStmt, n, _ =>
      .arm n (trueStmt.toStmt (n + 2) .noop)
        (.arm (n + 1) (falseStmt.toStmt (n + 2 + trueStmt.registered.length) .noop) .noop)
  | case arms, n, _ => arms.toStmt n .noop
  | caseDefault before _ stmt after, n, _ =>
      let m := n + before.registered.length
      let id := m + after.registered.length
      before.toStmt n (after.toStmt m (.arm id (stmt.toStmt (id + 1) .noop) .noop))
  | cons stmt rest, n, _ =>
      .seq (stmt.toStmt n .noop) (rest.toStmt (n + stmt.registered.length) .noop)
  | arm _ stmt items, n, rest =>
      .arm n (stmt.toStmt (n + 1) .noop) (items.toStmt (n + 1 + stmt.registered.length) rest)
  | noArm, _, rest => rest
  | _, _, _ => .noop

namespace Stmt

def isBlock : Stmt → Bool
  | block _ => true
  | _ => false

/-- The code of an arm. -/
def emitArm (enInst : Bool) (id : Nat) (body : Stmt) : Code × Bool :=
  if body.isBlock then (((body.emit true id).1), false)
  else (.seq (.display id) (body.emit enInst id).1, (body.emit enInst id).2)

theorem emit_arm (enInst : Bool) (top id : Nat) (body rest : Stmt) :
    (Stmt.arm id body rest).emit enInst top =
      (.arm id (emitArm enInst id body).1 (rest.emit (emitArm enInst id body).2 top).1,
        (rest.emit (emitArm enInst id body).2 top).2) := by
  cases body <;> rfl

end Stmt

namespace IvlStatement

theorem isBlock_toStmt_items {k : IvlKind} (t : IvlStatement A B k) (hk : k = .arms) (n : Nat)
    {rest : Stmt} (hrest : rest.isBlock = false) : (t.toStmt n rest).isBlock = false := by
  cases t with
  | noArm => exact hrest
  | arm b stmt items => rfl
  | _ => cases hk

theorem isBlock_toStmt (t : IvlStatement A B .stmt) (n : Nat) :
    (t.toStmt n .noop).isBlock = t.isBlock := by
  cases t with
  | case arms => exact arms.isBlock_toStmt_items rfl n rfl
  | caseDefault before b stmt after =>
      exact before.isBlock_toStmt_items rfl n (after.isBlock_toStmt_items rfl _ rfl)
  | _ => rfl

/-- Nothing sets `en_inst` but an arm, for its own statement. -/
theorem enInst_of_after {k : IvlKind} (t : IvlStatement A B k) {enInst : Bool}
    (h : t.after enInst = true) : enInst = true := by
  induction t generalizing enInst with
  | block body ih => exact ih h
  | case arms ih => exact ih h
  | wait stmt ih => exact ih h
  | cons stmt rest ih ih' => exact ih (ih' h)
  | condit _ _ trueStmt falseStmt ih ih' =>
      simp only [after] at h
      split at h
      · cases h
      · have h := ih' h
        split at h
        · cases h
        · exact ih h
  | caseDefault before b stmt items ihbefore ih ihitems =>
      simp only [after] at h
      split at h
      · cases h
      · exact ihbefore (ihitems (ih h))
  | arm b stmt rest ih ih' =>
      have h := ih' h
      split at h
      · cases h
      · exact ih h
  | _ => exact h

end IvlStatement

section Emitted

variable (isPrinted : Nat → Bool) (map : List (Registered A B))

/-- From `x` on, `emit_stmt` prints the code of the statements by their ids, which
are in `assign_map`. -/
def EmitsCode {k : IvlKind} (t : IvlStatement A B k) (rest : Stmt) (branchStack : List Nat)
    (top : Nat) (x : Emitter A B) : Prop :=
  ∃ text, t.emitStmt isPrinted branchStack x = x.add (t.after x.enInst) t.registered text ∧
    ((t.toStmt x.nextId rest).emit x.enInst top).1.text isPrinted map =
      text.filter Printed.isCode ++ (rest.emit (t.after x.enInst) top).1.text isPrinted map ∧
    ((t.toStmt x.nextId rest).emit x.enInst top).2 = (rest.emit (t.after x.enInst) top).2

variable {isPrinted map}

theorem filter_recordsOf (id : Nat) :
    (recordsOf isPrinted id : List (Printed A)).filter Printed.isCode =
      recordsOf isPrinted id := by
  unfold recordsOf
  split <;> rfl

theorem filter_block {records : List (Printed A)}
    (h : records.filter Printed.isCode = records) (text : List (Printed A)) :
    (.blockBegin :: records ++ text ++ [.blockEnd] : List (Printed A)).filter Printed.isCode =
      records ++ text.filter Printed.isCode := by
  have hbegin : ((.blockBegin : Printed A) :: records).filter Printed.isCode = records := h
  rw [List.filter_append, List.filter_append, hbegin]
  exact List.append_nil _

/-- `emit_blocked_stmt_inst` prints the code of the arm. -/
theorem blockedStmtInst_code {t : IvlStatement A B .stmt} (id : Nat) (branchStack : List Nat)
    {x : Emitter A B}
    (h : ∀ y : Emitter A B, y.nextId = x.nextId →
      EmitsCode isPrinted map t .noop (id :: branchStack) id y) :
    ∃ text, Emitter.blockedStmtInst isPrinted t.isBlock
          (t.emitStmt isPrinted (id :: branchStack)) (id :: branchStack) x =
        x.add (if t.isBlock then false else t.after x.enInst) t.registered text ∧
      (Stmt.emitArm x.enInst id (t.toStmt x.nextId .noop)).1.text isPrinted map =
        text.filter Printed.isCode ∧
      (Stmt.emitArm x.enInst id (t.toStmt x.nextId .noop)).2 =
        if t.isBlock then false else t.after x.enInst := by
  unfold Stmt.emitArm
  rw [t.isBlock_toStmt]
  cases ht : t.isBlock with
  | true =>
      obtain ⟨text, heq, htext, -⟩ := h { x with enInst := true } rfl
      refine ⟨text, ?_, ?_, rfl⟩
      · rw [Emitter.blockedStmtInst, if_pos rfl, heq]
        rfl
      · rw [if_pos rfl]
        exact htext.trans (List.append_nil _)
  | false =>
      have hbegin : Emitter.instCond isPrinted (id :: branchStack) (x.put .blockBegin) =
          x.add x.enInst [] (.blockBegin :: recordsOf isPrinted id) := by
        rw [Emitter.instCond, Emitter.instrument_eq]
        simp [Emitter.add, Emitter.put]
      obtain ⟨text, heq, htext, henInst⟩ :=
        h (x.add x.enInst [] (.blockBegin :: recordsOf isPrinted id)) (Emitter.nextId_add ..)
      refine ⟨.blockBegin :: recordsOf isPrinted id ++ text ++ [.blockEnd], ?_, ?_, ?_⟩
      · rw [Emitter.blockedStmtInst, if_neg Bool.false_ne_true, hbegin, heq]
        simp [Emitter.add, Emitter.put]
      · rw [Emitter.nextId_add, List.length_nil, Nat.add_zero] at htext
        have hcode := htext.trans (List.append_nil _)
        rw [filter_block (filter_recordsOf id), if_neg Bool.false_ne_true]
        exact congrArg (recordsOf isPrinted id ++ ·) hcode
      · rw [Emitter.nextId_add, List.length_nil, Nat.add_zero] at henInst
        exact henInst

/-- An arm of a chain: its entry, its header and its statement. -/
theorem arm_code {t : IvlStatement A B .stmt} (b : B) (branchStack : List Nat) {x : Emitter A B}
    (h : ∀ y : Emitter A B, y.nextId = x.nextId + 1 →
      EmitsCode isPrinted map t .noop (x.nextId :: branchStack) x.nextId y) :
    ∃ text, Emitter.blockedStmtInst isPrinted t.isBlock
          (t.emitStmt isPrinted (x.nextId :: branchStack)) (x.nextId :: branchStack)
          ((x.register (.branch b)).put (.header x.nextId)) =
        x.add (if t.isBlock then false else t.after x.enInst) (.branch b :: t.registered)
          (.header x.nextId :: text) ∧
      (Stmt.emitArm x.enInst x.nextId (t.toStmt (x.nextId + 1) .noop)).1.text isPrinted map =
        text.filter Printed.isCode ∧
      (Stmt.emitArm x.enInst x.nextId (t.toStmt (x.nextId + 1) .noop)).2 =
        if t.isBlock then false else t.after x.enInst := by
  have hnext : ((x.register (.branch b)).put (.header x.nextId)).nextId = x.nextId + 1 :=
    List.length_append
  obtain ⟨text, heq, htext, henInst⟩ :=
    blockedStmtInst_code x.nextId branchStack
      (x := (x.register (.branch b)).put (.header x.nextId)) (by rw [hnext]; exact h)
  rw [hnext] at htext henInst
  refine ⟨text, ?_, htext, henInst⟩
  rw [heq]
  simp [Emitter.add, Emitter.put, Emitter.register]

variable {branchStack : List Nat} {top : Nat} {x : Emitter A B}

/-- A block, with the record of the arm on top of the stack while `en_inst` is set. -/
theorem emitsCode_block {body : IvlStatement A B .stmts}
    (htop : x.enInst = true → branchStack.head? = some top)
    (h : ∀ y : Emitter A B, y.nextId = x.nextId → y.enInst = x.enInst →
      EmitsCode isPrinted map body .noop branchStack top y) :
    EmitsCode isPrinted map (.block body) .noop branchStack top x := by
  let records : List (Printed A) := if x.enInst then recordsOf isPrinted top else []
  have hrecords : records.filter Printed.isCode = records := by
    show (if _ then _ else _ : List (Printed A)).filter _ = if _ then _ else _
    split
    · exact filter_recordsOf top
    · rfl
  let y := x.add x.enInst [] (.blockBegin :: records)
  have hbegin : (if x.enInst then Emitter.instCond isPrinted branchStack (x.put .blockBegin)
      else x.put .blockBegin) = y := by
    show _ = x.add x.enInst [] (.blockBegin :: if x.enInst then _ else _)
    split
    · rename_i henInst
      obtain ⟨stack, rfl⟩ := List.head?_eq_some_iff.mp (htop henInst)
      rw [Emitter.instCond, Emitter.instrument_eq]
      simp [Emitter.add, Emitter.put]
    · exact x.put_eq_add .blockBegin
  have hnext : y.nextId = x.nextId := Emitter.nextId_add ..
  obtain ⟨text, heq, htext, henInst⟩ := h y hnext rfl
  rw [hnext] at htext henInst
  refine ⟨.blockBegin :: records ++ text ++ [.blockEnd], ?_, ?_, henInst⟩
  · show ((body.emitStmt isPrinted branchStack (if x.enInst then _ else _)).put .blockEnd) = _
    rw [hbegin, heq]
    simp [y, Emitter.add, Emitter.put, IvlStatement.after, IvlStatement.registered]
  · have hcode := htext.trans (List.append_nil _)
    have hbody : ((body.toStmt x.nextId .noop).emit x.enInst top).1.text isPrinted map =
        text.filter Printed.isCode := hcode
    rw [filter_block hrecords, ← hbody]
    show (if x.enInst then Code.seq _ _ else _ : Code).text isPrinted map =
      ((if x.enInst then _ else _) ++ _) ++ []
    rw [List.append_nil]
    split <;> rfl

/-- Both arms get their ids before the first one is emitted. -/
theorem emitsCode_condit {trueArm falseArm : B} {trueStmt falseStmt : IvlStatement A B .stmt}
    (h : ∀ y : Emitter A B, y.nextId = x.nextId + 2 →
      EmitsCode isPrinted map trueStmt .noop (x.nextId :: branchStack) x.nextId y)
    (h' : ∀ y : Emitter A B, y.nextId = x.nextId + 2 + trueStmt.registered.length →
      EmitsCode isPrinted map falseStmt .noop ((x.nextId + 1) :: branchStack) (x.nextId + 1) y) :
    EmitsCode isPrinted map (.condit trueArm falseArm trueStmt falseStmt) .noop branchStack top
      x := by
  let x₁ := ((x.register (.branch trueArm)).register (.branch falseArm)).put
    (.header x.nextId)
  have hnext : x₁.nextId = x.nextId + 2 := by
    show ((x.assignMap ++ _) ++ _).length = _
    simp [Emitter.nextId]
  obtain ⟨text, heq, htext, henInst⟩ := blockedStmtInst_code x.nextId branchStack
    (x := x₁) fun y hy => h y (hy.trans hnext)
  let x₂ := (x₁.add (if trueStmt.isBlock then false else trueStmt.after x₁.enInst)
    trueStmt.registered text).put (.header (x.nextId + 1))
  have hnext' : x₂.nextId = x.nextId + 2 + trueStmt.registered.length := by
    rw [← hnext]
    exact Emitter.nextId_add x₁ (if trueStmt.isBlock then false else trueStmt.after x₁.enInst)
      trueStmt.registered text
  obtain ⟨text', heq', htext', henInst'⟩ := blockedStmtInst_code (x.nextId + 1) branchStack
    (x := x₂) fun y hy => h' y (hy.trans hnext')
  rw [hnext] at htext henInst
  rw [hnext'] at htext' henInst'
  have hcode : ((IvlStatement.condit trueArm falseArm trueStmt falseStmt).toStmt x.nextId
      .noop).emit x.enInst top = (.arm x.nextId (Stmt.emitArm x.enInst x.nextId
        (trueStmt.toStmt (x.nextId + 2) .noop)).1 (.arm (x.nextId + 1)
          (Stmt.emitArm x₂.enInst (x.nextId + 1) (falseStmt.toStmt
            (x.nextId + 2 + trueStmt.registered.length) .noop)).1 .skip),
      (Stmt.emitArm x₂.enInst (x.nextId + 1) (falseStmt.toStmt
        (x.nextId + 2 + trueStmt.registered.length) .noop)).2) := by
    have henInst : (Stmt.emitArm x.enInst x.nextId
      (trueStmt.toStmt (x.nextId + 2) .noop)).2 = x₂.enInst := henInst
    rw [IvlStatement.toStmt, Stmt.emit_arm, Stmt.emit_arm, henInst]
    rfl
  refine ⟨.header x.nextId :: text ++ .header (x.nextId + 1) :: text', ?_, ?_, ?_⟩
  · show Emitter.blockedStmtInst isPrinted falseStmt.isBlock _ _
      ((Emitter.blockedStmtInst isPrinted trueStmt.isBlock _ _ x₁).put _) = _
    rw [heq]
    refine heq'.trans ?_
    simp [x₂, x₁, Emitter.add, Emitter.put, Emitter.register, IvlStatement.after,
      IvlStatement.registered]
  · rw [hcode]
    show .header _ :: Code.text isPrinted map _ ++
        (.header _ :: Code.text isPrinted map _ ++ []) =
      (List.filter _ (.header _ :: text ++ .header _ :: text')) ++ []
    have htext : Code.text isPrinted map (Stmt.emitArm x.enInst x.nextId
      (trueStmt.toStmt (x.nextId + 2) .noop)).1 = text.filter Printed.isCode := htext
    rw [htext, htext', List.append_nil, List.append_nil, List.filter_append]
    rfl
  · rw [hcode]
    exact henInst'

/-- The default is emitted behind the items on both sides of it. -/
theorem emitsCode_caseDefault {before items : IvlStatement A B .arms} {b : B}
    {stmt : IvlStatement A B .stmt}
    (hbefore : ∀ rest, EmitsCode isPrinted map before rest branchStack top x)
    (hitems : ∀ (rest : Stmt) (y : Emitter A B), y.nextId = x.nextId + before.registered.length →
      (y.enInst = true → x.enInst = true) → EmitsCode isPrinted map items rest branchStack top y)
    (h : ∀ y : Emitter A B,
      y.nextId = x.nextId + before.registered.length + items.registered.length + 1 →
      EmitsCode isPrinted map stmt .noop
        ((x.nextId + before.registered.length + items.registered.length) :: branchStack)
        (x.nextId + before.registered.length + items.registered.length) y) :
    EmitsCode isPrinted map (.caseDefault before b stmt items) .noop branchStack top x := by
  let id := x.nextId + before.registered.length + items.registered.length
  let default : Stmt := .arm id (stmt.toStmt (id + 1) .noop) .noop
  obtain ⟨text, heq, htext, henInst⟩ :=
    hbefore (items.toStmt (x.nextId + before.registered.length) default)
  let x₁ := x.add (before.after x.enInst) before.registered text
  have hnext : x₁.nextId = x.nextId + before.registered.length := Emitter.nextId_add ..
  obtain ⟨text₁, heq₁, htext₁, henInst₁⟩ := hitems default x₁ hnext before.enInst_of_after
  let x₂ := x₁.add (items.after x₁.enInst) items.registered text₁
  have hnext₂ : x₂.nextId = id := by
    rw [Emitter.nextId_add, hnext]
  obtain ⟨text₂, heq₂, htext₂, henInst₂⟩ := arm_code b branchStack (x := x₂)
    (by rw [hnext₂]; exact h)
  rw [hnext] at htext₁ henInst₁
  rw [hnext₂] at heq₂ htext₂ henInst₂
  have hdefault : default.emit x₂.enInst top = (.arm id (Stmt.emitArm x₂.enInst id
      (stmt.toStmt (id + 1) .noop)).1 .skip, (Stmt.emitArm x₂.enInst id
      (stmt.toStmt (id + 1) .noop)).2) := by
    rw [Stmt.emit_arm]
    rfl
  refine ⟨text ++ text₁ ++ .header id :: text₂ ++ [.endcase], ?_, ?_, ?_⟩
  · simp only [IvlStatement.emitStmt]
    rw [heq, heq₁, hnext₂, heq₂]
    simp [x₂, x₁, Emitter.add, Emitter.put, IvlStatement.after, IvlStatement.registered]
  · refine (htext.trans (congrArg (text.filter Printed.isCode ++ ·) htext₁)).trans ?_
    show _ ++ (_ ++ (default.emit x₂.enInst top).1.text isPrinted map) = _
    rw [hdefault]
    show _ ++ (_ ++ (.header id :: Code.text isPrinted map _ ++ [])) = _ ++ []
    rw [htext₂, List.filter_append, List.filter_append, List.filter_append]
    simp [Printed.isCode, List.filter_cons]
  · refine henInst.trans (henInst₁.trans ?_)
    show (default.emit x₂.enInst top).2 = _
    rw [hdefault]
    exact henInst₂

theorem emitsCode_cons {stmt : IvlStatement A B .stmt} {items : IvlStatement A B .stmts}
    (h : EmitsCode isPrinted map stmt .noop branchStack top x)
    (h' : ∀ y : Emitter A B, y.nextId = x.nextId + stmt.registered.length →
      (y.enInst = true → x.enInst = true) →
      EmitsCode isPrinted map items .noop branchStack top y) :
    EmitsCode isPrinted map (.cons stmt items) .noop branchStack top x := by
  obtain ⟨text, heq, htext, henInst⟩ := h
  let x₁ := x.add (stmt.after x.enInst) stmt.registered text
  have hnext : x₁.nextId = x.nextId + stmt.registered.length := Emitter.nextId_add ..
  obtain ⟨text₁, heq₁, htext₁, henInst₁⟩ := h' x₁ hnext stmt.enInst_of_after
  rw [hnext] at htext₁ henInst₁
  have henInst : ((stmt.toStmt x.nextId .noop).emit x.enInst top).2 = x₁.enInst := henInst
  have hcode : ((IvlStatement.cons stmt items).toStmt x.nextId .noop).emit x.enInst top =
      (.seq ((stmt.toStmt x.nextId .noop).emit x.enInst top).1 ((items.toStmt
          (x.nextId + stmt.registered.length) .noop).emit x₁.enInst top).1,
        ((items.toStmt (x.nextId + stmt.registered.length) .noop).emit
          x₁.enInst top).2) := by
    rw [IvlStatement.toStmt, Stmt.emit, henInst]
  refine ⟨text ++ text₁, ?_, ?_, ?_⟩
  · simp only [IvlStatement.emitStmt]
    rw [heq, heq₁]
    exact Emitter.add_add ..
  · rw [hcode]
    show Code.text isPrinted map _ ++ Code.text isPrinted map _ = _ ++ []
    rw [htext, htext₁, List.filter_append]
    show _ ++ [] ++ (_ ++ []) = _
    simp only [List.append_nil]
  · rw [hcode]
    exact henInst₁

theorem emitsCode_arm {b : B} {stmt : IvlStatement A B .stmt} {items : IvlStatement A B .arms}
    {rest : Stmt}
    (h : ∀ y : Emitter A B, y.nextId = x.nextId + 1 →
      EmitsCode isPrinted map stmt .noop (x.nextId :: branchStack) x.nextId y)
    (h' : ∀ y : Emitter A B, y.nextId = x.nextId + 1 + stmt.registered.length →
      (y.enInst = true → x.enInst = true) →
      EmitsCode isPrinted map items rest branchStack top y) :
    EmitsCode isPrinted map (.arm b stmt items) rest branchStack top x := by
  obtain ⟨text, heq, htext, henInst⟩ := arm_code b branchStack h
  let x₁ := x.add (if stmt.isBlock then false else stmt.after x.enInst)
    (.branch b :: stmt.registered) (.header x.nextId :: text)
  have hnext : x₁.nextId = x.nextId + 1 + stmt.registered.length := by
    rw [Emitter.nextId_add, List.length_cons]
    omega
  have hset : x₁.enInst = true → x.enInst = true := by
    intro hset
    change (if stmt.isBlock then false else stmt.after x.enInst) = true at hset
    split at hset
    · cases hset
    · exact stmt.enInst_of_after hset
  obtain ⟨text₁, heq₁, htext₁, henInst₁⟩ := h' x₁ hnext hset
  rw [hnext] at htext₁ henInst₁
  have hcode : ((IvlStatement.arm b stmt items).toStmt x.nextId rest).emit x.enInst top =
      (.arm x.nextId (Stmt.emitArm x.enInst x.nextId
        (stmt.toStmt (x.nextId + 1) .noop)).1 ((items.toStmt
          (x.nextId + 1 + stmt.registered.length) rest).emit x₁.enInst top).1,
        ((items.toStmt (x.nextId + 1 + stmt.registered.length) rest).emit
          x₁.enInst top).2) := by
    have henInst : (Stmt.emitArm x.enInst x.nextId
      (stmt.toStmt (x.nextId + 1) .noop)).2 = x₁.enInst := henInst
    rw [IvlStatement.toStmt, Stmt.emit_arm, henInst]
  refine ⟨.header x.nextId :: text ++ text₁, ?_, ?_, ?_⟩
  · simp only [IvlStatement.emitStmt]
    rw [heq, heq₁]
    simp [x₁, Emitter.add, IvlStatement.after, IvlStatement.registered]
  · rw [hcode]
    show .header _ :: Code.text isPrinted map _ ++ Code.text isPrinted map _ = _
    rw [htext, htext₁, List.filter_append, ← List.append_assoc]
    rfl
  · rw [hcode]
    exact henInst₁

/-- **The printed process.** A statement without event controls is printed as the
code of its process: the pieces that execute are those of the code, and `en_inst`
is left as the code leaves it. -/
theorem emitStmt_code {k : IvlKind} (t : IvlStatement A B k) (hunwaited : t.Unwaited)
    (rest : Stmt) (hrest : k = .arms ∨ rest = .noop) {branchStack : List Nat} {top : Nat}
    {x : Emitter A B} (htop : x.enInst = true → branchStack.head? = some top)
    (hmap : EntriesAt map x.nextId t.registered) :
    EmitsCode isPrinted map t rest branchStack top x := by
  induction t generalizing rest branchStack top x with
  | noop =>
      obtain rfl := hrest.resolve_left nofun
      exact ⟨[.blockBegin, .blockEnd], x.emptyBlock_eq_add, rfl, rfl⟩
  | null | nil | delay stmt =>
      obtain rfl := hrest.resolve_left nofun
      exact ⟨[], x.add_nil.symm, rfl, rfl⟩
  | noArm => exact ⟨[], x.add_nil.symm, rfl, rfl⟩
  | stask =>
      obtain rfl := hrest.resolve_left nofun
      exact ⟨[.display], x.put_eq_add .display, rfl, rfl⟩
  | wait stmt => cases hunwaited
  | assign isCommit a =>
      obtain rfl := hrest.resolve_left nofun
      have hentry : map[x.nextId]? = some (.assign isCommit a) := hmap 0 _ rfl
      refine ⟨Code.assignText isPrinted map x.nextId, ?_, ?_, rfl⟩
      · simp only [IvlStatement.emitStmt, Emitter.initAssign, Code.assignText, hentry]
        split <;> simp [Emitter.add, Emitter.put, Emitter.register, IvlStatement.registered,
          IvlStatement.after]
      · simp only [IvlStatement.toStmt, Stmt.emit, Code.text, Code.assignText, hentry]
        split <;> rfl
  | block body ih =>
      obtain rfl := hrest.resolve_left nofun
      apply emitsCode_block htop
      intro y hnext henInst
      exact ih hunwaited .noop (.inr rfl) (henInst ▸ htop) (hnext ▸ hmap)
  | condit trueArm falseArm trueStmt falseStmt ih ih' =>
      obtain rfl := hrest.resolve_left nofun
      obtain ⟨-, hmap⟩ := hmap.cons
      obtain ⟨-, hmap⟩ := hmap.cons
      obtain ⟨hmap, hmap'⟩ := hmap.append
      apply emitsCode_condit
      · intro y hnext
        exact ih hunwaited.1 .noop (.inr rfl) (fun _ => rfl) (hnext ▸ hmap)
      · intro y hnext
        exact ih' hunwaited.2 .noop (.inr rfl) (fun _ => rfl) (hnext ▸ hmap')
  | case arms ih =>
      obtain rfl := hrest.resolve_left nofun
      obtain ⟨text, heq, htext, henInst⟩ := ih hunwaited .noop (.inl rfl) htop hmap
      refine ⟨text ++ [.endcase], ?_, ?_, henInst⟩
      · show (arms.emitStmt isPrinted branchStack x).put .endcase = _
        rw [heq]
        simp [Emitter.add, Emitter.put, IvlStatement.after, IvlStatement.registered]
      · rw [List.filter_append]
        refine htext.trans ?_
        exact congrArg (· ++ _) (List.append_nil _).symm
  | caseDefault before b stmt items ihbefore ih ihitems =>
      obtain rfl := hrest.resolve_left nofun
      obtain ⟨hmap, hmapArm⟩ := hmap.append
      obtain ⟨hmap, hmapItems⟩ := hmap.append
      obtain ⟨-, hmapArm⟩ := hmapArm.cons
      rw [List.length_append, ← Nat.add_assoc] at hmapArm
      apply emitsCode_caseDefault
      · intro rest
        exact ihbefore hunwaited.1 rest (.inl rfl) htop hmap
      · intro rest y hnext hset
        exact ihitems hunwaited.2.2 rest (.inl rfl) (fun h => htop (hset h)) (hnext ▸ hmapItems)
      · intro y hnext
        exact ih hunwaited.2.1 .noop (.inr rfl) (fun _ => rfl) (hnext ▸ hmapArm)
  | cons stmt items ih ih' =>
      obtain rfl := hrest.resolve_left nofun
      obtain ⟨hmap, hmap'⟩ := hmap.append
      apply emitsCode_cons (ih hunwaited.1 .noop (.inr rfl) htop hmap)
      intro y hnext hset
      exact ih' hunwaited.2 .noop (.inr rfl) (fun h => htop (hset h)) (hnext ▸ hmap')
  | arm b stmt items ih ih' =>
      rw [IvlStatement.registered, List.cons_append] at hmap
      obtain ⟨-, hmap⟩ := hmap.cons
      obtain ⟨hmap, hmap'⟩ := hmap.append
      apply emitsCode_arm
      · intro y hnext
        exact ih hunwaited.1 .noop (.inr rfl) (fun _ => rfl) (hnext ▸ hmap)
      · intro y hnext hset
        exact ih' hunwaited.2 rest hrest (fun h => htop (hset h)) (hnext ▸ hmap')

/-- A process whose statements are those of `t` executes what `emit_stmt` prints
for `t`. -/
theorem process_code {S : Type} {p : Process S} {t : IvlStatement A B .stmt}
    (hunwaited : t.Unwaited) {branchStack : List Nat} {x : Emitter A B}
    (henInst : x.enInst = false) (hbody : p.body = t.toStmt x.nextId .noop) :
    ∃ text, (t.emitStmt isPrinted branchStack x).out = x.out ++ text ∧
      text.filter Printed.isCode =
        p.code.text isPrinted (t.emitStmt isPrinted branchStack x).assignMap := by
  have hmap : EntriesAt (x.assignMap ++ t.registered) x.nextId t.registered := by
    intro i r hi
    rw [Emitter.nextId, List.getElem?_append_right (Nat.le_add_right _ _),
      Nat.add_sub_cancel_left, hi]
  have hcode : EmitsCode isPrinted (x.assignMap ++ t.registered) t .noop branchStack 0 x :=
    emitStmt_code t hunwaited .noop (.inr rfl)
      (fun h => absurd (henInst.symm.trans h) Bool.false_ne_true) hmap
  obtain ⟨text, heq, htext, -⟩ := hcode
  refine ⟨text, by rw [heq]; rfl, ?_⟩
  rw [heq, Process.code, hbody, ← henInst]
  exact (htext.trans (List.append_nil _)).symm

end Emitted

end Conquest
