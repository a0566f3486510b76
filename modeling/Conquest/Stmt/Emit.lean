import Mathlib.Data.List.Nodup
import Mathlib.Data.List.Perm.Basic

/-!
# Emit — the statements of a process in the instrumented design

`emit_stmt` prints a statement, registers every assignment and arm in
`assign_map` and prints their records. Whether a block prints the record of the
arm on top of `branch_stack` hangs on the global `en_inst`, which an arm sets
for its own block and which is still set for the blocks inside it.
-/

namespace Conquest

/-! ## Statements -/

inductive IvlKind where
  | stmt | stmts | arms

/-- The statements that `emit_stmt` accepts, with labels for the assignments and
the arms. A case statement has at most one default, at any place. -/
inductive IvlStatement (A B : Type) : IvlKind → Type
  | noop : IvlStatement A B .stmt
  /-- A missing `then` or `else` statement. -/
  | null : IvlStatement A B .stmt
  /-- `$display`. -/
  | stask : IvlStatement A B .stmt
  | assign (isCommit : Bool) (a : A) : IvlStatement A B .stmt
  | block (body : IvlStatement A B .stmts) : IvlStatement A B .stmt
  | condit (trueArm falseArm : B) (trueStmt falseStmt : IvlStatement A B .stmt) :
      IvlStatement A B .stmt
  | case (arms : IvlStatement A B .arms) : IvlStatement A B .stmt
  | caseDefault (before : IvlStatement A B .arms) (b : B) (stmt : IvlStatement A B .stmt)
      (after : IvlStatement A B .arms) : IvlStatement A B .stmt
  | delay (stmt : IvlStatement A B .stmt) : IvlStatement A B .stmt
  | wait (stmt : IvlStatement A B .stmt) : IvlStatement A B .stmt
  | nil : IvlStatement A B .stmts
  | cons (stmt : IvlStatement A B .stmt) (rest : IvlStatement A B .stmts) : IvlStatement A B .stmts
  | noArm : IvlStatement A B .arms
  | arm (b : B) (stmt : IvlStatement A B .stmt) (rest : IvlStatement A B .arms) :
      IvlStatement A B .arms

/-- An entry of `assign_map`. -/
inductive Registered (A B : Type) where
  | assign (isCommit : Bool) (a : A)
  | branch (b : B)
  deriving DecidableEq, Repr

/-- A piece of the printed text. -/
inductive Printed (A : Type) where
  | blockBegin | blockEnd | endcase | event | display
  | assign (isCommit : Bool) (a : A)
  /-- The record of an assignment. -/
  | record (id : Nat)
  /-- `if ( )`, `else`, `item :` or `default:`. -/
  | header (id : Nat)
  /-- The record of an arm. -/
  | armRecord (id : Nat)
  deriving DecidableEq, Repr

/-! ## `emit_stmt` -/

structure Emitter (A B : Type) where
  enInst : Bool
  assignMap : List (Registered A B)
  out : List (Printed A)

namespace Emitter

variable {A B : Type}

def start : Emitter A B where
  enInst := false
  assignMap := []
  out := []

def put (p : Printed A) (x : Emitter A B) : Emitter A B := { x with out := x.out ++ [p] }

def register (r : Registered A B) (x : Emitter A B) : Emitter A B :=
  { x with assignMap := x.assignMap ++ [r] }

/-- The id of the next entry. -/
def nextId (x : Emitter A B) : Nat := x.assignMap.length

variable (isPrinted : Nat → Bool)

/-- `SMTBranch::instrument`. -/
def instrument (id : Nat) (x : Emitter A B) : Emitter A B :=
  if isPrinted id then x.put (.armRecord id) else x

/-- `inst_cond`, of the arm on top of `branch_stack`. -/
def instCond (branchStack : List Nat) (x : Emitter A B) : Emitter A B :=
  match branchStack with
  | [] => x
  | id :: _ => x.instrument isPrinted id

/-- The text of an assignment, then its constructor and its record. -/
def initAssign (isCommit : Bool) (a : A) (x : Emitter A B) : Emitter A B :=
  let id := x.nextId
  let x := (x.put (.assign isCommit a)).register (.assign isCommit a)
  if isPrinted id then x.put (.record id) else x

/-- `emit_blocked_stmt_inst`, where `emit` emits the statement. -/
def blockedStmtInst (isBlock : Bool) (emit : Emitter A B → Emitter A B) (branchStack : List Nat)
    (x : Emitter A B) : Emitter A B :=
  if isBlock then { emit { x with enInst := true } with enInst := false }
  else (emit (instCond isPrinted branchStack (x.put .blockBegin))).put .blockEnd

/-- `emit_blocked_stmt`. -/
def blockedStmt (isBlock : Bool) (emit : Emitter A B → Emitter A B) (x : Emitter A B) :
    Emitter A B :=
  if isBlock then emit x else (emit (x.put .blockBegin)).put .blockEnd

end Emitter

namespace IvlStatement

variable {A B : Type}

def isBlock {k : IvlKind} : IvlStatement A B k → Bool
  | block _ => true
  | _ => false

open Emitter in
/-- `emit_stmt`. A delay prints nothing, not even the statement that it delays. -/
def emitStmt (isPrinted : Nat → Bool) {k : IvlKind} :
    IvlStatement A B k → List Nat → Emitter A B → Emitter A B
  | noop, _, x => (x.put .blockBegin).put .blockEnd
  | null, _, x => x
  | stask, _, x => x.put .display
  | assign isCommit a, _, x => x.initAssign isPrinted isCommit a
  | block body, branchStack, x =>
      let x := x.put .blockBegin
      let x := if x.enInst then x.instCond isPrinted branchStack else x
      (body.emitStmt isPrinted branchStack x).put .blockEnd
  | condit trueArm falseArm trueStmt falseStmt, branchStack, x =>
      let trueBr := x.nextId
      let falseBr := trueBr + 1
      let x := (x.register (.branch trueArm)).register (.branch falseArm)
      let x := blockedStmtInst isPrinted trueStmt.isBlock
        (trueStmt.emitStmt isPrinted (trueBr :: branchStack)) (trueBr :: branchStack)
        (x.put (.header trueBr))
      blockedStmtInst isPrinted falseStmt.isBlock
        (falseStmt.emitStmt isPrinted (falseBr :: branchStack)) (falseBr :: branchStack)
        (x.put (.header falseBr))
  | case arms, branchStack, x => (arms.emitStmt isPrinted branchStack x).put .endcase
  | caseDefault before b stmt after, branchStack, x =>
      -- the default is emitted last
      let x := before.emitStmt isPrinted branchStack x
      let x := after.emitStmt isPrinted branchStack x
      let id := x.nextId
      let x := (x.register (.branch b)).put (.header id)
      (blockedStmtInst isPrinted stmt.isBlock (stmt.emitStmt isPrinted (id :: branchStack))
        (id :: branchStack) x).put .endcase
  | delay _, _, x => x
  | wait stmt, branchStack, x =>
      blockedStmt stmt.isBlock (stmt.emitStmt isPrinted branchStack) (x.put .event)
  | nil, _, x => x
  | cons stmt rest, branchStack, x =>
      rest.emitStmt isPrinted branchStack (stmt.emitStmt isPrinted branchStack x)
  | noArm, _, x => x
  | arm b stmt rest, branchStack, x =>
      let id := x.nextId
      let x := (x.register (.branch b)).put (.header id)
      rest.emitStmt isPrinted branchStack
        (blockedStmtInst isPrinted stmt.isBlock (stmt.emitStmt isPrinted (id :: branchStack))
          (id :: branchStack) x)

/-! ## What the source has -/

/-- The assignments, with the default of a case statement in its place or, if
`defaultLast`, behind the other arms. -/
def assigns (defaultLast : Bool) {k : IvlKind} : IvlStatement A B k → List (Bool × A)
  | assign isCommit a => [(isCommit, a)]
  | block body => body.assigns defaultLast
  | condit _ _ trueStmt falseStmt =>
      trueStmt.assigns defaultLast ++ falseStmt.assigns defaultLast
  | case arms => arms.assigns defaultLast
  | caseDefault before _ stmt after =>
      if defaultLast then
        before.assigns defaultLast ++ after.assigns defaultLast ++ stmt.assigns defaultLast
      else before.assigns defaultLast ++ stmt.assigns defaultLast ++ after.assigns defaultLast
  | delay stmt => stmt.assigns defaultLast
  | wait stmt => stmt.assigns defaultLast
  | cons stmt rest => stmt.assigns defaultLast ++ rest.assigns defaultLast
  | arm _ stmt rest => stmt.assigns defaultLast ++ rest.assigns defaultLast
  | _ => []

/-- The arms. -/
def arms {k : IvlKind} : IvlStatement A B k → List B
  | block body => body.arms
  | condit trueArm falseArm trueStmt falseStmt =>
      trueArm :: trueStmt.arms ++ falseArm :: falseStmt.arms
  | case arms => arms.arms
  | caseDefault before b stmt after => before.arms ++ b :: stmt.arms ++ after.arms
  | delay stmt => stmt.arms
  | wait stmt => stmt.arms
  | cons stmt rest => stmt.arms ++ rest.arms
  | arm b stmt rest => b :: stmt.arms ++ rest.arms
  | _ => []

/-- No delay has an assignment or an arm in it. -/
def Kept {k : IvlKind} : IvlStatement A B k → Prop
  | block body => body.Kept
  | condit _ _ trueStmt falseStmt => trueStmt.Kept ∧ falseStmt.Kept
  | case arms => arms.Kept
  | caseDefault before _ stmt after => before.Kept ∧ stmt.Kept ∧ after.Kept
  | delay stmt => stmt.assigns true = [] ∧ stmt.arms = []
  | wait stmt => stmt.Kept
  | cons stmt rest => stmt.Kept ∧ rest.Kept
  | arm _ stmt rest => stmt.Kept ∧ rest.Kept
  | _ => True

/-- `en_inst` after the statement: an arm that is a block clears it. -/
def after {k : IvlKind} (enInst : Bool) : IvlStatement A B k → Bool
  | block body => body.after enInst
  | condit _ _ trueStmt falseStmt =>
      let enInst := if trueStmt.isBlock then false else trueStmt.after enInst
      if falseStmt.isBlock then false else falseStmt.after enInst
  | case arms => arms.after enInst
  | caseDefault before _ stmt after =>
      if stmt.isBlock then false else stmt.after (after.after (before.after enInst))
  | wait stmt => stmt.after enInst
  | cons stmt rest => rest.after (stmt.after enInst)
  | arm _ stmt rest => rest.after (if stmt.isBlock then false else stmt.after enInst)
  | _ => enInst

/-- No block that is not itself an arm is reached with `en_inst` set: in the
block of an arm such a block stands only behind an inner arm that is a block. -/
def Once {k : IvlKind} (isArm enInst : Bool) : IvlStatement A B k → Prop
  | block body => (isArm = true ∨ enInst = false) ∧ body.Once false enInst
  | condit _ _ trueStmt falseStmt =>
      trueStmt.Once true (enInst || trueStmt.isBlock) ∧
        falseStmt.Once true
          ((if trueStmt.isBlock then false else trueStmt.after enInst) || falseStmt.isBlock)
  | case arms => arms.Once false enInst
  | caseDefault before _ stmt after =>
      before.Once false enInst ∧ after.Once false (before.after enInst) ∧
        stmt.Once true (after.after (before.after enInst) || stmt.isBlock)
  | wait stmt => stmt.Once false enInst
  | cons stmt rest => stmt.Once false enInst ∧ rest.Once false (stmt.after enInst)
  | arm _ stmt rest =>
      stmt.Once true (enInst || stmt.isBlock) ∧
        rest.Once false (if stmt.isBlock then false else stmt.after enInst)
  | _ => True

/-- The entries that the statement makes. -/
def registered {k : IvlKind} : IvlStatement A B k → List (Registered A B)
  | assign isCommit a => [.assign isCommit a]
  | block body => body.registered
  | condit trueArm falseArm trueStmt falseStmt =>
      .branch trueArm :: .branch falseArm :: (trueStmt.registered ++ falseStmt.registered)
  | case arms => arms.registered
  | caseDefault before b stmt after =>
      before.registered ++ after.registered ++ .branch b :: stmt.registered
  | wait stmt => stmt.registered
  | cons stmt rest => stmt.registered ++ rest.registered
  | arm b stmt rest => .branch b :: stmt.registered ++ rest.registered
  | _ => []

end IvlStatement

/-! ## What is printed for new entries -/

section Prints

variable {A B : Type}

def Registered.assign? : Registered A B → Option (Bool × A)
  | assign isCommit a => some (isCommit, a)
  | branch _ => none

def Registered.branch? : Registered A B → Option B
  | assign _ _ => none
  | branch b => some b

def Printed.assign? : Printed A → Option (Bool × A)
  | assign isCommit a => some (isCommit, a)
  | _ => none

def Printed.header? : Printed A → Option Nat
  | header id => some id
  | _ => none

def Printed.armRecord? : Printed A → Option Nat
  | armRecord id => some id
  | _ => none

/-- The ids of the arms among the entries from `n` on. -/
def armIds (n : Nat) : List (Registered A B) → List Nat
  | [] => []
  | .assign _ _ :: rs => armIds (n + 1) rs
  | .branch _ :: rs => n :: armIds (n + 1) rs

theorem armIds_append (n : Nat) (rs rs' : List (Registered A B)) :
    armIds n (rs ++ rs') = armIds n rs ++ armIds (n + rs.length) rs' := by
  induction rs generalizing n with
  | nil => rfl
  | cons r rs ih =>
      cases r with
      | assign isCommit a => simp [armIds, ih, Nat.add_comm, Nat.add_left_comm]
      | branch b => simp [armIds, ih, Nat.add_comm, Nat.add_left_comm]

variable (isPrinted : Nat → Bool)

/-- The records of an arm. -/
def recordsOf (id : Nat) : List (Printed A) := if isPrinted id then [.armRecord id] else []

/-- An arm with the text `inner` of its statement. -/
def armText (id : Nat) (inner : List (Printed A)) : List (Printed A) :=
  .header id :: .blockBegin :: recordsOf isPrinted id ++ inner ++ [.blockEnd]

/-- A text with these arms and assignments: the assignments in order, every arm
once, and its record, once, right at its beginning. -/
structure Prints (ids : List Nat) (assigns : List (Bool × A)) (text : List (Printed A)) :
    Prop where
  assigns : text.filterMap Printed.assign? = assigns
  headers : (text.filterMap Printed.header?).Perm ids
  records : text.filterMap Printed.armRecord? =
    (text.filterMap Printed.header?).filter isPrinted
  first : ∀ id ∈ text.filterMap Printed.header?, isPrinted id →
    [.header id, .blockBegin, .armRecord id] <:+: text

namespace Prints

variable {isPrinted} {ids ids' : List Nat} {assigns assigns' : List (Bool × A)}
  {text text' : List (Printed A)}

theorem append (h : Prints isPrinted ids assigns text) (h' : Prints isPrinted ids' assigns' text') :
    Prints isPrinted (ids ++ ids') (assigns ++ assigns') (text ++ text') where
  assigns := by rw [List.filterMap_append, h.assigns, h'.assigns]
  headers := by
    rw [List.filterMap_append]
    exact h.headers.append h'.headers
  records := by
    rw [List.filterMap_append, List.filterMap_append, List.filter_append, h.records, h'.records]
  first := by
    intro id hid hprinted
    rw [List.filterMap_append, List.mem_append] at hid
    rcases hid with hid | hid
    · exact (h.first id hid hprinted).trans (List.prefix_append _ _).isInfix
    · exact (h'.first id hid hprinted).trans (List.suffix_append _ _).isInfix

theorem perm (h : Prints isPrinted ids assigns text) (hids : ids.Perm ids') :
    Prints isPrinted ids' assigns text :=
  { h with headers := h.headers.trans hids }

/-- Text that has no assignment and no arm. -/
theorem plain (h : ∀ p ∈ text, p.assign? = none ∧ p.header? = none ∧ p.armRecord? = none) :
    Prints isPrinted [] [] text := by
  have hassigns : text.filterMap Printed.assign? = [] :=
    List.filterMap_eq_nil_iff.mpr fun p hp => (h p hp).1
  have hheaders : text.filterMap Printed.header? = [] :=
    List.filterMap_eq_nil_iff.mpr fun p hp => (h p hp).2.1
  have hrecords : text.filterMap Printed.armRecord? = [] :=
    List.filterMap_eq_nil_iff.mpr fun p hp => (h p hp).2.2
  refine ⟨hassigns, ?_, ?_, fun id hid => ?_⟩
  · rw [hheaders]
  · rw [hheaders, hrecords, List.filter_nil]
  · rw [hheaders] at hid
    exact absurd hid List.not_mem_nil

theorem assign (isCommit : Bool) (a : A) :
    Prints isPrinted [] [(isCommit, a)] [.assign isCommit a] where
  assigns := rfl
  headers := .refl _
  records := rfl
  first := fun _ h => absurd h List.not_mem_nil

/-- The text of an arm, from that of its statement. -/
theorem arm (h : Prints isPrinted ids assigns text) (id : Nat) :
    Prints isPrinted (id :: ids) assigns (armText isPrinted id text) := by
  have hheaders : (armText isPrinted id text).filterMap Printed.header? =
      id :: text.filterMap Printed.header? := by
    by_cases hid : isPrinted id <;>
      simp [armText, recordsOf, hid, List.filterMap_cons, Printed.header?]
  refine ⟨?_, ?_, ?_, fun i hi hprinted => ?_⟩
  · rw [← h.assigns]
    by_cases hid : isPrinted id <;>
      simp [armText, recordsOf, hid, List.filterMap_cons, Printed.assign?]
  · rw [hheaders]
    exact h.headers.cons id
  · rw [hheaders, List.filter_cons, ← h.records]
    by_cases hid : isPrinted id <;>
      simp [armText, recordsOf, hid, List.filterMap_cons, Printed.armRecord?]
  · rw [hheaders] at hi
    rcases List.mem_cons.mp hi with rfl | hi
    · refine ⟨[], text ++ [.blockEnd], ?_⟩
      simp [armText, recordsOf, hprinted]
    · refine (h.first i hi hprinted).trans ?_
      exact ⟨.header id :: .blockBegin :: recordsOf isPrinted id, [.blockEnd], by simp [armText]⟩

end Prints

end Prints

/-! ## What `emit_stmt` prints -/

section Emits

variable {A B : Type}

/-- More entries and more text. -/
def Emitter.add (x : Emitter A B) (enInst : Bool) (rs : List (Registered A B))
    (text : List (Printed A)) : Emitter A B where
  enInst := enInst
  assignMap := x.assignMap ++ rs
  out := x.out ++ text

theorem Emitter.add_add (x : Emitter A B) (enInst enInst' : Bool)
    (rs rs' : List (Registered A B)) (text text' : List (Printed A)) :
    (x.add enInst rs text).add enInst' rs' text' = x.add enInst' (rs ++ rs') (text ++ text') := by
  simp [Emitter.add]

theorem Emitter.nextId_add (x : Emitter A B) (enInst : Bool) (rs : List (Registered A B))
    (text : List (Printed A)) : (x.add enInst rs text).nextId = x.nextId + rs.length :=
  List.length_append

theorem Emitter.instrument_eq (isPrinted : Nat → Bool) (id : Nat) (x : Emitter A B) :
    x.instrument isPrinted id = x.add x.enInst [] (recordsOf isPrinted id) := by
  unfold instrument recordsOf
  split <;> simp [Emitter.add, Emitter.put]

variable (isPrinted : Nat → Bool)

/-- From `x` on the text goes with the entries `rs`. -/
def PrintsFrom (x : Emitter A B) (rs : List (Registered A B)) (text : List (Printed A)) : Prop :=
  Prints isPrinted (armIds x.nextId rs) (rs.filterMap Registered.assign?) text

/-- The statement makes its entries, with a text that goes with them. -/
def Emits {k : IvlKind} (t : IvlStatement A B k) (branchStack : List Nat) (x : Emitter A B) :
    Prop :=
  ∃ text, t.emitStmt isPrinted branchStack x = x.add (t.after x.enInst) t.registered text ∧
    PrintsFrom isPrinted x t.registered text

/-- The same of the statement of the arm `id`, which is put into a block. -/
def EmitsArm {k : IvlKind} (t : IvlStatement A B k) (enInst : Bool)
    (emit : Emitter A B → Emitter A B) (id : Nat) (x : Emitter A B) : Prop :=
  ∃ text, emit x = x.add enInst t.registered
      (.blockBegin :: recordsOf isPrinted id ++ text ++ [.blockEnd]) ∧
    PrintsFrom isPrinted x t.registered text

variable {isPrinted}

theorem PrintsFrom.append {x : Emitter A B} {enInst : Bool} {rs rs' : List (Registered A B)}
    {text text' : List (Printed A)} (h : PrintsFrom isPrinted x rs text)
    (h' : PrintsFrom isPrinted (x.add enInst rs text) rs' text') :
    PrintsFrom isPrinted x (rs ++ rs') (text ++ text') := by
  unfold PrintsFrom at h h' ⊢
  rw [Emitter.nextId_add] at h'
  rw [armIds_append, List.filterMap_append]
  exact h.append h'

theorem PrintsFrom.around {x : Emitter A B} {rs : List (Registered A B)}
    {pre text post : List (Printed A)} (h : PrintsFrom isPrinted x rs text)
    (hpre : ∀ p ∈ pre, p.assign? = none ∧ p.header? = none ∧ p.armRecord? = none)
    (hpost : ∀ p ∈ post, p.assign? = none ∧ p.header? = none ∧ p.armRecord? = none) :
    PrintsFrom isPrinted x rs (pre ++ text ++ post) := by
  have htext := ((Prints.plain hpre).append h).append (Prints.plain hpost)
  simpa [PrintsFrom] using htext

/-- Whether the statement is an arm matters to a block only. -/
theorem IvlStatement.Once.of_arm {k : IvlKind} {t : IvlStatement A B k} {enInst : Bool}
    (hblock : t.isBlock = false) (h : t.Once true enInst) : t.Once false enInst := by
  cases t with
  | block body => cases hblock
  | noop => trivial
  | null => trivial
  | stask => trivial
  | assign isCommit a => trivial
  | delay stmt => trivial
  | nil => trivial
  | noArm => trivial
  | condit trueArm falseArm trueStmt falseStmt => exact h
  | case arms => exact h
  | caseDefault before b stmt after => exact h
  | wait stmt => exact h
  | cons stmt rest => exact h
  | arm b stmt rest => exact h

/-- `emit_blocked_stmt_inst` prints the record of the arm at the beginning of the
block, be it the statement's own or a new one. -/
theorem emitsArm_blocked {t : IvlStatement A B .stmt} {id : Nat} {branchStack : List Nat}
    {x : Emitter A B}
    (hemits : ∀ y : Emitter A B, t.Once false y.enInst → Emits isPrinted t (id :: branchStack) y)
    (hblock : t.isBlock = true → ∀ y : Emitter A B, y.enInst = true → t.Once true true →
      EmitsArm isPrinted t (t.after true) (t.emitStmt isPrinted (id :: branchStack)) id y)
    (honce : t.Once true (x.enInst || t.isBlock)) :
    EmitsArm isPrinted t (if t.isBlock then false else t.after x.enInst)
      (Emitter.blockedStmtInst isPrinted t.isBlock (t.emitStmt isPrinted (id :: branchStack))
        (id :: branchStack)) id x := by
  cases ht : t.isBlock with
  | true =>
      rw [ht, Bool.or_true] at honce
      obtain ⟨text, heq, hprints⟩ := hblock ht { x with enInst := true } rfl honce
      refine ⟨text, ?_, hprints⟩
      rw [Emitter.blockedStmtInst, if_pos rfl, heq]
      rfl
  | false =>
      rw [ht, Bool.or_false] at honce
      obtain ⟨text, heq, hprints⟩ := hemits
        (x.add x.enInst [] (.blockBegin :: recordsOf isPrinted id)) (honce.of_arm ht)
      refine ⟨text, ?_, ?_⟩
      · have hbegin : Emitter.instCond isPrinted (id :: branchStack) (x.put .blockBegin) =
            x.add x.enInst [] (.blockBegin :: recordsOf isPrinted id) := by
          rw [Emitter.instCond, Emitter.instrument_eq]
          simp [Emitter.add, Emitter.put]
        rw [Emitter.blockedStmtInst, if_neg Bool.false_ne_true, hbegin, heq]
        simp [Emitter.add, Emitter.put]
      · simpa [PrintsFrom, Emitter.nextId_add] using hprints

theorem printsFrom_nil {x : Emitter A B} {text : List (Printed A)}
    (h : ∀ p ∈ text, p.assign? = none ∧ p.header? = none ∧ p.armRecord? = none) :
    PrintsFrom isPrinted x [] text := Prints.plain h

theorem printsFrom_add_nil {x : Emitter A B} {enInst : Bool} {rs : List (Registered A B)}
    {text text' : List (Printed A)} :
    PrintsFrom isPrinted (x.add enInst [] text') rs text ↔ PrintsFrom isPrinted x rs text := by
  rw [PrintsFrom, PrintsFrom, Emitter.nextId_add, List.length_nil, Nat.add_zero]

theorem Emitter.put_eq_add (p : Printed A) (x : Emitter A B) :
    x.put p = x.add x.enInst [] [p] := by simp [Emitter.put, Emitter.add]

/-- The empty block of a missing statement. -/
theorem Emitter.emptyBlock_eq_add (x : Emitter A B) :
    (x.put .blockBegin).put .blockEnd = x.add x.enInst [] [.blockBegin, .blockEnd] := by
  simp [Emitter.put, Emitter.add]

theorem Emitter.add_nil (x : Emitter A B) : x.add x.enInst [] [] = x := by
  simp [Emitter.add]

/-- `emit_blocked_stmt` puts a statement that is no block into one. -/
theorem emits_blockedStmt {stmt : IvlStatement A B .stmt} {branchStack : List Nat}
    {x : Emitter A B}
    (h : ∀ text, Emits isPrinted stmt branchStack (x.add x.enInst [] text)) :
    ∃ text, Emitter.blockedStmt stmt.isBlock (stmt.emitStmt isPrinted branchStack) x =
        x.add (stmt.after x.enInst) stmt.registered text ∧
      PrintsFrom isPrinted x stmt.registered text := by
  cases hblock : stmt.isBlock with
  | true =>
      obtain ⟨text, heq, hprints⟩ := h []
      rw [x.add_nil] at heq
      exact ⟨text, by rw [Emitter.blockedStmt, if_pos rfl, heq], printsFrom_add_nil.mp hprints⟩
  | false =>
      obtain ⟨text, heq, hprints⟩ := h [.blockBegin]
      refine ⟨.blockBegin :: text ++ [.blockEnd], ?_, ?_⟩
      · rw [Emitter.blockedStmt, if_neg Bool.false_ne_true, x.put_eq_add, heq]
        simp [Emitter.add, Emitter.put]
      · exact (printsFrom_add_nil.mp hprints).around
          (List.forall_mem_singleton.mpr ⟨rfl, rfl, rfl⟩)
          (List.forall_mem_singleton.mpr ⟨rfl, rfl, rfl⟩)

/-- An entry for the arm, its header, and its statement. -/
theorem EmitsArm.enter {k : IvlKind} {t : IvlStatement A B k} {enInst : Bool}
    {emit : Emitter A B → Emitter A B} {b : B} {x : Emitter A B}
    (h : EmitsArm isPrinted t enInst emit x.nextId
      ((x.register (.branch b)).put (.header x.nextId))) :
    ∃ text, emit ((x.register (.branch b)).put (.header x.nextId)) =
        x.add enInst (.branch b :: t.registered) text ∧
      PrintsFrom isPrinted x (.branch b :: t.registered) text := by
  obtain ⟨text, heq, hprints⟩ := h
  refine ⟨armText isPrinted x.nextId text, ?_, ?_⟩
  · rw [heq]
    simp [Emitter.add, Emitter.put, Emitter.register, armText]
  · have hnext : ((x.register (.branch b)).put (.header x.nextId)).nextId = x.nextId + 1 :=
      List.length_append
    rw [PrintsFrom, hnext] at hprints
    exact hprints.arm x.nextId

/-- Both arms of a condition are entered before either of them is printed. -/
theorem emits_condit {trueArm falseArm : B} {trueStmt falseStmt : IvlStatement A B .stmt}
    {branchStack : List Nat} {x : Emitter A B}
    (htrue : EmitsArm isPrinted trueStmt (if trueStmt.isBlock then false else trueStmt.after x.enInst)
      (Emitter.blockedStmtInst isPrinted trueStmt.isBlock
        (trueStmt.emitStmt isPrinted (x.nextId :: branchStack)) (x.nextId :: branchStack))
      x.nextId (x.add x.enInst [.branch trueArm, .branch falseArm] [.header x.nextId]))
    (hfalse : ∀ text,
      let y := x.add (if trueStmt.isBlock then false else trueStmt.after x.enInst)
        (.branch trueArm :: .branch falseArm :: trueStmt.registered)
        (armText isPrinted x.nextId text)
      EmitsArm isPrinted falseStmt (if falseStmt.isBlock then false else falseStmt.after y.enInst)
        (Emitter.blockedStmtInst isPrinted falseStmt.isBlock
          (falseStmt.emitStmt isPrinted ((x.nextId + 1) :: branchStack))
          ((x.nextId + 1) :: branchStack))
        (x.nextId + 1) (y.add y.enInst [] [.header (x.nextId + 1)])) :
    Emits isPrinted (.condit trueArm falseArm trueStmt falseStmt) branchStack x := by
  obtain ⟨text, heq, hprints⟩ := htrue
  let y := x.add (if trueStmt.isBlock then false else trueStmt.after x.enInst)
    (.branch trueArm :: .branch falseArm :: trueStmt.registered) (armText isPrinted x.nextId text)
  obtain ⟨text', heq', hprints'⟩ : EmitsArm _ falseStmt _ _ _ (y.add y.enInst [] _) := hfalse text
  refine ⟨armText isPrinted x.nextId text ++ armText isPrinted (x.nextId + 1) text', ?_, ?_⟩
  · have hbegin : ((x.register (.branch trueArm)).register (.branch falseArm)).put
        (.header x.nextId) =
          x.add x.enInst [.branch trueArm, .branch falseArm] [.header x.nextId] := by
      simp [Emitter.put, Emitter.register, Emitter.add]
    have hmiddle : (Emitter.blockedStmtInst isPrinted trueStmt.isBlock
        (trueStmt.emitStmt isPrinted (x.nextId :: branchStack)) (x.nextId :: branchStack)
        (x.add x.enInst [.branch trueArm, .branch falseArm] [.header x.nextId])).put
          (.header (x.nextId + 1)) = y.add y.enInst [] [.header (x.nextId + 1)] := by
      rw [heq]
      simp [Emitter.put, Emitter.add, y, armText]
    rw [IvlStatement.emitStmt, hbegin, hmiddle, heq']
    simp [Emitter.add, y, armText, IvlStatement.registered, IvlStatement.after]
  · have hids : x.nextId + 2 + trueStmt.registered.length =
        (y.add y.enInst [] [.header (x.nextId + 1)]).nextId := by
      simp only [y, Emitter.nextId_add, List.length_cons, List.length_nil]
      omega
    rw [PrintsFrom, Emitter.nextId_add] at hprints
    rw [PrintsFrom, ← hids] at hprints'
    have htext := (Prints.arm hprints x.nextId).append (hprints'.arm (x.nextId + 1))
    rw [← List.filterMap_append] at htext
    refine htext.perm ?_
    -- both arms come first in the list, but the text has the second header
    -- behind everything inside the first arm
    rw [IvlStatement.registered, armIds, armIds, armIds_append]
    exact List.perm_middle.cons x.nextId

/-- A statement emits its entries with `en_inst` as it is, and a block that is an
arm does so with `en_inst` set. -/
theorem emits_emitStmt (isPrinted : Nat → Bool) {k : IvlKind} (t : IvlStatement A B k)
    (hkept : t.Kept) :
    (∀ branchStack (x : Emitter A B), t.Once false x.enInst → Emits isPrinted t branchStack x) ∧
      (t.isBlock = true → ∀ id branchStack (x : Emitter A B), x.enInst = true → t.Once true true →
        EmitsArm isPrinted t (t.after true) (t.emitStmt isPrinted (id :: branchStack)) id x) := by
  induction t with
  | noop =>
      refine ⟨fun _ x _ => ⟨_, x.emptyBlock_eq_add, printsFrom_nil ?_⟩, nofun⟩
      simp [Printed.assign?, Printed.header?, Printed.armRecord?]
  | null => exact ⟨fun _ x _ => ⟨[], x.add_nil.symm, printsFrom_nil nofun⟩, nofun⟩
  | nil => exact ⟨fun _ x _ => ⟨[], x.add_nil.symm, printsFrom_nil nofun⟩, nofun⟩
  | noArm => exact ⟨fun _ x _ => ⟨[], x.add_nil.symm, printsFrom_nil nofun⟩, nofun⟩
  | delay stmt ih => exact ⟨fun _ x _ => ⟨[], x.add_nil.symm, printsFrom_nil nofun⟩, nofun⟩
  | stask =>
      refine ⟨fun _ x _ => ⟨[.display], x.put_eq_add .display, printsFrom_nil ?_⟩, nofun⟩
      exact List.forall_mem_singleton.mpr ⟨rfl, rfl, rfl⟩
  | assign isCommit a =>
      refine ⟨fun _ x _ => ?_, nofun⟩
      have hrecord : ∀ p ∈ ([.record x.nextId] : List (Printed A)).filter fun _ =>
          isPrinted x.nextId, p.assign? = none ∧ p.header? = none ∧ p.armRecord? = none := by
        intro p hp
        obtain rfl := List.mem_singleton.mp (List.mem_of_mem_filter hp)
        exact ⟨rfl, rfl, rfl⟩
      refine ⟨_, ?_, (Prints.assign isCommit a).append (.plain hrecord)⟩
      simp only [IvlStatement.emitStmt, Emitter.initAssign]
      split <;> simp_all [Emitter.add, Emitter.put, Emitter.register, IvlStatement.registered,
        IvlStatement.after]
  | block body ih =>
      obtain ⟨hbody, -⟩ := ih hkept
      constructor
      · rintro branchStack x ⟨hen, honce⟩
        have hen : x.enInst = false := hen.resolve_left Bool.false_ne_true
        obtain ⟨text, heq, hprints⟩ := hbody branchStack (x.add x.enInst [] [.blockBegin]) honce
        refine ⟨.blockBegin :: text ++ [.blockEnd], ?_, ?_⟩
        · rw [IvlStatement.emitStmt, x.put_eq_add .blockBegin,
            if_neg (by simp [Emitter.add, hen]), heq]
          simp [Emitter.add, Emitter.put, IvlStatement.after, IvlStatement.registered]
        · exact (printsFrom_add_nil.mp hprints).around
            (List.forall_mem_singleton.mpr ⟨rfl, rfl, rfl⟩)
            (List.forall_mem_singleton.mpr ⟨rfl, rfl, rfl⟩)
      · rintro - id branchStack x hen ⟨-, honce⟩
        obtain ⟨text, heq, hprints⟩ := hbody (id :: branchStack)
          (x.add true [] (.blockBegin :: recordsOf isPrinted id)) honce
        refine ⟨text, ?_, printsFrom_add_nil.mp hprints⟩
        have hbegin : Emitter.instCond isPrinted (id :: branchStack) (x.put .blockBegin) =
            x.add true [] (.blockBegin :: recordsOf isPrinted id) := by
          rw [Emitter.instCond, Emitter.instrument_eq]
          simp [Emitter.add, Emitter.put, hen]
        rw [IvlStatement.emitStmt, if_pos (by simpa [Emitter.put] using hen), hbegin, heq]
        simp [Emitter.add, Emitter.put, IvlStatement.after, IvlStatement.registered]
  | condit trueArm falseArm trueStmt falseStmt iht ihf =>
      obtain ⟨hkeptt, hkeptf⟩ := hkept
      refine ⟨fun branchStack x honce => ?_, nofun⟩
      obtain ⟨honcet, honcef⟩ := honce
      obtain ⟨hstmtt, hblockt⟩ := iht hkeptt
      obtain ⟨hstmtf, hblockf⟩ := ihf hkeptf
      exact emits_condit
        (emitsArm_blocked (hstmtt (x.nextId :: branchStack)) (fun ht y => hblockt ht _ _ y) honcet)
        fun text => emitsArm_blocked
          (x := (x.add _ _ _).add _ [] [.header (x.nextId + 1)])
          (hstmtf ((x.nextId + 1) :: branchStack)) (fun ht y => hblockf ht _ _ y) honcef
  | case arms ih =>
      refine ⟨fun branchStack x honce => ?_, nofun⟩
      obtain ⟨text, heq, hprints⟩ := (ih hkept).1 branchStack x honce
      refine ⟨[] ++ text ++ [.endcase], ?_, hprints.around nofun
        (List.forall_mem_singleton.mpr ⟨rfl, rfl, rfl⟩)⟩
      rw [IvlStatement.emitStmt, heq]
      simp [Emitter.add, Emitter.put, IvlStatement.after, IvlStatement.registered]
  | caseDefault before b stmt after ihb ihs iha =>
      obtain ⟨hkeptb, hkepts, hkepta⟩ := hkept
      refine ⟨fun branchStack x honce => ?_, nofun⟩
      obtain ⟨honceb, honcea, honces⟩ := honce
      obtain ⟨text, heq, hprints⟩ := (ihb hkeptb).1 branchStack x honceb
      let y := x.add (before.after x.enInst) before.registered text
      obtain ⟨text', heq', hprints'⟩ := (iha hkepta).1 branchStack y honcea
      let z := y.add (after.after y.enInst) after.registered text'
      obtain ⟨hstmt, hblock⟩ := ihs hkepts
      obtain ⟨text'', heq'', hprints''⟩ := EmitsArm.enter (b := b) (x := z)
        (emitsArm_blocked (hstmt (z.nextId :: branchStack)) (fun ht y => hblock ht _ _ y) honces)
      refine ⟨[] ++ (text ++ text' ++ text'') ++ [.endcase], ?_, ?_⟩
      · have hafter : after.emitStmt isPrinted branchStack
            (before.emitStmt isPrinted branchStack x) = z := by rw [heq, heq']
        rw [IvlStatement.emitStmt, hafter, heq'']
        simp [Emitter.add, Emitter.put, Emitter.register, y, z, IvlStatement.registered,
          IvlStatement.after]
      · have hz : z = x.add (after.after y.enInst) (before.registered ++ after.registered)
            (text ++ text') := Emitter.add_add ..
        rw [hz] at hprints''
        refine PrintsFrom.around ?_ nofun (List.forall_mem_singleton.mpr ⟨rfl, rfl, rfl⟩)
        rw [IvlStatement.registered]
        exact (hprints.append hprints').append hprints''
  | wait stmt ih =>
      obtain ⟨hstmt, -⟩ := ih hkept
      refine ⟨fun branchStack x honce => ?_, nofun⟩
      obtain ⟨text, heq, hprints⟩ := emits_blockedStmt (x := x.add x.enInst [] [.event])
        fun text => hstmt branchStack ((x.add x.enInst [] [.event]).add x.enInst [] text) honce
      refine ⟨[.event] ++ text ++ [], ?_, (printsFrom_add_nil.mp hprints).around
        (List.forall_mem_singleton.mpr ⟨rfl, rfl, rfl⟩) nofun⟩
      rw [IvlStatement.emitStmt, Emitter.put_eq_add, heq]
      simp [Emitter.add, IvlStatement.after, IvlStatement.registered]
  | cons stmt rest ihs ihr =>
      obtain ⟨hkepts, hkeptr⟩ := hkept
      refine ⟨fun branchStack x honce => ?_, nofun⟩
      obtain ⟨honces, honcer⟩ := honce
      obtain ⟨text, heq, hprints⟩ := (ihs hkepts).1 branchStack x honces
      obtain ⟨text', heq', hprints'⟩ := (ihr hkeptr).1 branchStack
        (x.add (stmt.after x.enInst) stmt.registered text) honcer
      refine ⟨text ++ text', ?_, hprints.append hprints'⟩
      rw [IvlStatement.emitStmt, heq, heq', Emitter.add_add]
      rfl
  | arm b stmt rest ihs ihr =>
      obtain ⟨hkepts, hkeptr⟩ := hkept
      refine ⟨fun branchStack x honce => ?_, nofun⟩
      obtain ⟨honces, honcer⟩ := honce
      obtain ⟨hstmt, hblock⟩ := ihs hkepts
      obtain ⟨text, heq, hprints⟩ := EmitsArm.enter (b := b) (x := x)
        (emitsArm_blocked (hstmt (x.nextId :: branchStack)) (fun ht y => hblock ht _ _ y) honces)
      obtain ⟨text', heq', hprints'⟩ := (ihr hkeptr).1 branchStack (x.add _ _ text) honcer
      refine ⟨text ++ text', ?_, hprints.append hprints'⟩
      calc (IvlStatement.arm b stmt rest).emitStmt isPrinted branchStack x
          = rest.emitStmt isPrinted branchStack (x.add _ _ text) :=
            congrArg (rest.emitStmt isPrinted branchStack) heq
        _ = _ := heq'.trans (Emitter.add_add ..)

end Emits

/-! ## Every assignment and every arm once -/

section Once

variable {A B : Type}

theorem mem_armIds {n id : Nat} {rs : List (Registered A B)} :
    id ∈ armIds n rs ↔ n ≤ id ∧ ∃ b, rs[id - n]? = some (.branch b) := by
  induction rs generalizing n with
  | nil => simp [armIds]
  | cons r rs ih =>
      have hrest : (n + 1 ≤ id ∧ ∃ b, rs[id - (n + 1)]? = some (.branch b)) ↔
          n < id ∧ ∃ b, (r :: rs)[id - n]? = some (.branch b) := by
        refine and_congr_right fun hle => ?_
        rw [show id - n = id - (n + 1) + 1 by omega, List.getElem?_cons_succ]
      rcases Nat.lt_trichotomy id n with hlt | rfl | hlt
      · cases r <;> simp [armIds, ih] <;> omega
      · cases r with
        | assign isCommit a =>
            rw [armIds, ih]
            exact iff_of_false (fun h => Nat.not_succ_le_self id h.1) (by simp)
        | branch b => simp [armIds]
      · have hne : id ≠ n := Nat.ne_of_gt hlt
        have hlater : (n < id ∧ ∃ b, (r :: rs)[id - n]? = some (.branch b)) ↔
            n ≤ id ∧ ∃ b, (r :: rs)[id - n]? = some (.branch b) :=
          and_congr_left fun _ => iff_of_true hlt (Nat.le_of_lt hlt)
        cases r with
        | assign isCommit a => exact ih.trans (hrest.trans hlater)
        | branch b =>
            rw [armIds, List.mem_cons, or_iff_right hne]
            exact ih.trans (hrest.trans hlater)

theorem nodup_armIds (n : Nat) (rs : List (Registered A B)) : (armIds n rs).Nodup := by
  induction rs generalizing n with
  | nil => exact List.nodup_nil
  | cons r rs ih =>
      cases r with
      | assign isCommit a => exact ih (n + 1)
      | branch b =>
          refine List.nodup_cons.mpr ⟨fun hn => ?_, ih (n + 1)⟩
          have hle := (mem_armIds.mp hn).1
          omega

namespace IvlStatement

/-- The entries of the assignments are in the order of the source, except for
defaults. -/
theorem assigns_registered {k : IvlKind} (t : IvlStatement A B k) (hkept : t.Kept) :
    t.registered.filterMap Registered.assign? = t.assigns true := by
  induction t with
  | noop => rfl
  | null => rfl
  | stask => rfl
  | nil => rfl
  | noArm => rfl
  | assign isCommit a => rfl
  | delay stmt ih => exact hkept.1.symm
  | block body ih => exact ih hkept
  | case arms ih => exact ih hkept
  | wait stmt ih => exact ih hkept
  | condit trueArm falseArm trueStmt falseStmt iht ihf =>
      simp [registered, List.filterMap_cons, Registered.assign?, assigns, iht hkept.1, ihf hkept.2]
  | caseDefault before b stmt after ihb ihs iha =>
      simp [registered, List.filterMap_cons, Registered.assign?, assigns, ihb hkept.1,
        ihs hkept.2.1, iha hkept.2.2]
  | cons stmt rest ihs ihr =>
      simp [registered, assigns, ihs hkept.1, ihr hkept.2]
  | arm b stmt rest ihs ihr =>
      simp [registered, List.filterMap_cons, Registered.assign?, assigns, ihs hkept.1,
        ihr hkept.2]

/-- Every arm has one entry. -/
theorem arms_registered {k : IvlKind} (t : IvlStatement A B k) (hkept : t.Kept) :
    (t.registered.filterMap Registered.branch?).Perm t.arms := by
  induction t with
  | noop => exact .refl _
  | null => exact .refl _
  | stask => exact .refl _
  | nil => exact .refl _
  | noArm => exact .refl _
  | assign isCommit a => exact .refl _
  | delay stmt ih =>
      rw [arms, hkept.2]
      exact .refl _
  | block body ih => exact ih hkept
  | case arms ih => exact ih hkept
  | wait stmt ih => exact ih hkept
  | condit trueArm falseArm trueStmt falseStmt iht ihf =>
      rw [arms, registered, List.filterMap_cons, List.filterMap_cons, List.filterMap_append]
      refine List.Perm.cons trueArm (List.Perm.trans ?_ List.perm_middle.symm)
      exact ((iht hkept.1).append (ihf hkept.2)).cons falseArm
  | caseDefault before b stmt after ihb ihs iha =>
      rw [arms, registered, List.filterMap_append, List.filterMap_append, List.filterMap_cons]
      -- the entry of the default comes behind those of the other arms
      have hperm := (((ihb hkept.1).append (iha hkept.2.2))).append ((ihs hkept.2.1).cons b)
      refine hperm.trans ?_
      rw [List.append_assoc, List.append_assoc]
      exact List.perm_append_comm.append_left before.arms
  | cons stmt rest ihs ihr =>
      rw [arms, registered, List.filterMap_append]
      exact (ihs hkept.1).append (ihr hkept.2)
  | arm b stmt rest ihs ihr =>
      rw [arms, registered, List.filterMap_append, List.filterMap_cons]
      exact ((ihs hkept.1).cons b).append (ihr hkept.2)

/-- The default's place does not change which assignments there are. -/
theorem assigns_perm {k : IvlKind} (t : IvlStatement A B k) :
    (t.assigns true).Perm (t.assigns false) := by
  induction t with
  | noop => exact .refl _
  | null => exact .refl _
  | stask => exact .refl _
  | nil => exact .refl _
  | noArm => exact .refl _
  | assign isCommit a => exact .refl _
  | delay stmt ih => exact ih
  | block body ih => exact ih
  | case arms ih => exact ih
  | wait stmt ih => exact ih
  | condit trueArm falseArm trueStmt falseStmt iht ihf => exact iht.append ihf
  | caseDefault before b stmt after ihb ihs iha =>
      refine ((ihb.append iha).append ihs).trans ?_
      simp only [assigns, Bool.false_eq_true, if_false, List.append_assoc]
      exact List.perm_append_comm.append_left _
  | cons stmt rest ihs ihr => exact ihs.append ihr
  | arm b stmt rest ihs ihr => exact ihs.append ihr

end IvlStatement

/-- **Records of a process.** Without a delay that has statements to emit, and
without a further block reached while `en_inst` is set, every assignment is
printed and registered once, in the order of the source but with defaults last,
and every arm begins with its only record, which is left out if it shows the
reset. -/
theorem emitStmt_records (isPrinted : Nat → Bool) (t : IvlStatement A B .stmt) (hkept : t.Kept)
    (honce : t.Once false false) :
    let y := t.emitStmt isPrinted [] Emitter.start
    y.out.filterMap Printed.assign? = t.assigns true ∧
      y.assignMap.filterMap Registered.assign? = t.assigns true ∧
      (y.assignMap.filterMap Registered.branch?).Perm t.arms ∧
      ∀ id b, y.assignMap[id]? = some (.branch b) →
        (y.out.filterMap Printed.header?).count id = 1 ∧
        (y.out.filterMap Printed.armRecord?).count id = (if isPrinted id then 1 else 0) ∧
        (isPrinted id → [.header id, .blockBegin, .armRecord id] <:+: y.out) := by
  obtain ⟨text, heq, hprints⟩ := (emits_emitStmt isPrinted t hkept).1 [] .start honce
  have hassigns := t.assigns_registered hkept
  rw [heq]
  refine ⟨?_, ?_, ?_, fun id b hid => ?_⟩
  · exact hprints.assigns.trans hassigns
  · exact hassigns
  · exact t.arms_registered hkept
  · have hmem : id ∈ armIds 0 t.registered := mem_armIds.mpr ⟨Nat.zero_le _, b, hid⟩
    have hcount : (text.filterMap Printed.header?).count id = 1 := by
      rw [hprints.headers.count_eq]
      exact List.count_eq_one_of_mem (nodup_armIds 0 _) hmem
    refine ⟨hcount, ?_, fun hprinted => ?_⟩
    · show (text.filterMap Printed.armRecord?).count id = _
      rw [hprints.records]
      split
      · rename_i hprinted
        rw [List.count_filter hprinted, hcount]
      · rename_i hprinted
        refine List.count_eq_zero.mpr fun hin => hprinted ?_
        exact (List.mem_filter.mp hin).2
    · exact hprints.first id (hprints.headers.mem_iff.mpr hmem) hprinted

end Once

/-- `@( ) if ( ) begin x = ..; end else y <= ..;`. -/
def ifElse : IvlStatement Nat Nat .stmt :=
  .wait (.condit 0 1 (.block (.cons (.assign true 0) .nil)) (.assign false 1))

theorem ifElse_records :
    let y := ifElse.emitStmt (fun _ => true) [] Emitter.start
    y.out.filterMap Printed.assign? = ifElse.assigns true ∧
      y.assignMap.filterMap Registered.assign? = ifElse.assigns true ∧
      (y.assignMap.filterMap Registered.branch?).Perm ifElse.arms ∧
      ∀ id b, y.assignMap[id]? = some (.branch b) →
        (y.out.filterMap Printed.header?).count id = 1 ∧
        (y.out.filterMap Printed.armRecord?).count id = (if true then 1 else 0) ∧
        (true → [.header id, .blockBegin, .armRecord id] <:+: y.out) :=
  emitStmt_records (fun _ => true) ifElse ⟨⟨trivial, trivial⟩, trivial⟩
    ⟨⟨.inl rfl, trivial, trivial⟩, trivial⟩

/-- `@( ) case ( ) default: x = ..; item: y = ..; endcase`. -/
def defaultFirst : IvlStatement Nat Nat .stmt :=
  .wait (.caseDefault .noArm 0 (.assign true 0) (.arm 1 (.assign true 1) .noArm))

/-- The assignment of the default is printed behind that of the item, and a record
that shows the reset is not printed at all. -/
theorem defaultFirst_records :
    (defaultFirst.emitStmt (fun _ => true) [] Emitter.start).out.filterMap Printed.assign? =
        [(true, 1), (true, 0)] ∧
      defaultFirst.assigns false = [(true, 0), (true, 1)] ∧
      (defaultFirst.emitStmt (fun id => id ≠ 0) [] Emitter.start).assignMap[0]? =
        some (.branch 1) ∧
      .armRecord 0 ∉ (defaultFirst.emitStmt (fun id => id ≠ 0) [] Emitter.start).out := by
  decide

end Conquest
