import Conquest.Flow.Prepare
import Conquest.Lib.Dominance
import Conquest.Stmt.Emit

/-!
# Cfg — the control flow graph of a process

`emit_stmt` builds the basic blocks of a process while it prints. Assignments go
to the block `top_bb`; an `if` or a `case` ends that block, starts a block for
each of its arms, and goes on with a new block where the arms meet. The blocks
where the arms begin and meet have the block before as their immediate dominator.
-/

namespace Conquest

open Dominance Relation

variable {A B : Type}

/-! ## Blocks -/

/-- A basic block, with what it holds of others by their ids. -/
structure SMTBasicBlock (A B : Type) where
  assignList : List (Registered A B)
  successors : List Nat
  predecessors : List Nat
  idom : Option Nat
  weight : Nat

def SMTBasicBlock.new : SMTBasicBlock A B where
  assignList := []
  successors := []
  predecessors := []
  idom := none
  weight := 0

/-- The blocks made so far, and `curr_proc->top_bb`. -/
structure Blocks (A B : Type) where
  idCounter : Nat
  block : Nat → SMTBasicBlock A B
  topBb : Nat

namespace Blocks

def start : Blocks A B where
  idCounter := 0
  block := fun _ => .new
  topBb := 0

/-- `new SMTBasicBlock`, of the fields that are set right after it. -/
def newBlock (b : SMTBasicBlock A B) (x : Blocks A B) : Blocks A B :=
  { x with idCounter := x.idCounter + 1, block := Function.update x.block x.idCounter b }

def modify (id : Nat) (f : SMTBasicBlock A B → SMTBasicBlock A B) (x : Blocks A B) :
    Blocks A B :=
  { x with block := Function.update x.block id (f (x.block id)) }

/-- `predecessors.insert` of the one block and `successors.insert` of the other. -/
def link (src dst : Nat) (x : Blocks A B) : Blocks A B :=
  (x.modify dst fun b => { b with predecessors := b.predecessors.insert src }).modify src fun b =>
    { b with successors := b.successors.insert dst }

/-- `curr_proc->top_bb = id`. -/
def goTo (id : Nat) (x : Blocks A B) : Blocks A B := { x with topBb := id }

/-- `add_assign`. -/
def addAssign (r : Registered A B) (x : Blocks A B) : Blocks A B :=
  x.modify x.topBb fun b => { b with assignList := b.assignList ++ [r] }

/-- The block of an arm that leaves the block `top`. -/
def newArm (weight : Nat) (b : B) (top : Nat) (x : Blocks A B) : Blocks A B :=
  (x.newBlock
    { assignList := [.branch b]
      successors := []
      predecessors := []
      idom := some top
      weight := weight }).link top x.idCounter

/-- The block where the arms meet. -/
def newExit (top : Nat) (x : Blocks A B) : Blocks A B :=
  x.newBlock
    { assignList := []
      successors := []
      predecessors := []
      idom := some top
      weight := 0 }

/-- The statement of an arm that begins in the block `bb`, then the way to
`exit`. -/
def fillArm (emit : Blocks A B → Blocks A B) (bb exit : Nat) (x : Blocks A B) : Blocks A B :=
  let x := emit (x.goTo bb)
  x.link x.topBb exit

/-- An arm of a case statement. -/
def caseArm (weight : Nat) (b : B) (emit : Blocks A B → Blocks A B) (top exit : Nat)
    (x : Blocks A B) : Blocks A B :=
  (x.newArm weight b top).fillArm emit x.idCounter exit

end Blocks

/-! ## `emit_stmt` -/

namespace IvlStatement

open Blocks in
/-- `emit_stmt`, of what it does to the blocks. The arms of a case statement know
its `top_bb` and `exit_bb`. -/
def emitBlocks {k : IvlKind} : IvlStatement A B k → Nat → Nat → Blocks A B → Blocks A B
  | noop, _, _, x => x
  | null, _, _, x => x
  | stask, _, _, x => x
  | assign isCommit a, _, _, x => x.addAssign (.assign isCommit a)
  | block body, top, exit, x => body.emitBlocks top exit x
  | condit trueArm falseArm trueStmt falseStmt, _, _, x =>
      let top := x.topBb
      let trueBb := x.idCounter
      let falseBb := trueBb + 1
      let exitBb := falseBb + 1
      let x := ((x.newArm 1 trueArm top).newArm 1 falseArm top).newExit top
      let x := x.fillArm (trueStmt.emitBlocks top exitBb) trueBb exitBb
      let x := x.fillArm (falseStmt.emitBlocks top exitBb) falseBb exitBb
      x.goTo exitBb
  | case arms, _, _, x =>
      let top := x.topBb
      let exitBb := x.idCounter
      (arms.emitBlocks top exitBb (x.newExit top)).goTo exitBb
  | caseDefault before b stmt after, _, _, x =>
      let top := x.topBb
      let exitBb := x.idCounter
      let x := before.emitBlocks top exitBb (x.newExit top)
      let x := after.emitBlocks top exitBb x
      -- the default is emitted last, and its block has no weight
      (x.caseArm 0 b (stmt.emitBlocks top exitBb) top exitBb).goTo exitBb
  | delay _, _, _, x => x
  | wait stmt, top, exit, x => stmt.emitBlocks top exit x
  | nil, _, _, x => x
  | cons stmt rest, top, exit, x => rest.emitBlocks top exit (stmt.emitBlocks top exit x)
  | noArm, _, _, x => x
  | arm b stmt rest, top, exit, x =>
      rest.emitBlocks top exit (x.caseArm 1 b (stmt.emitBlocks top exit) top exit)

/-- Every case statement has an arm. -/
def HasArms {k : IvlKind} : IvlStatement A B k → Prop
  | block body => body.HasArms
  | condit _ _ trueStmt falseStmt => trueStmt.HasArms ∧ falseStmt.HasArms
  | case arms => arms.arms ≠ [] ∧ arms.HasArms
  | caseDefault before _ stmt after => before.HasArms ∧ stmt.HasArms ∧ after.HasArms
  | wait stmt => stmt.HasArms
  | cons stmt rest => stmt.HasArms ∧ rest.HasArms
  | arm _ stmt rest => stmt.HasArms ∧ rest.HasArms
  | _ => True

/-- `emit_process`. A process that is not a `wait` statement ends the program in
`error`, apart from an empty one. -/
def emitProcess : IvlStatement A B .stmt → Blocks A B → Option (SMTProcess Nat × Blocks A B)
  | noop, x => some (⟨x.idCounter, x.idCounter⟩, x.newBlock .new)
  | wait stmt, x =>
      let y := stmt.emitBlocks 0 0 ((x.newBlock .new).goTo x.idCounter)
      some (⟨x.idCounter, y.topBb⟩, y)
  | _, _ => none

/-- The processes of a design, one after the other. -/
def emitProcesses (procs : List (IvlStatement A B .stmt)) (x : Blocks A B) :
    Option (Blocks A B) :=
  procs.foldlM (fun x proc => (proc.emitProcess x).map Prod.snd) x

end IvlStatement

/-! ## What the operations change -/

namespace Blocks

variable {x y z : Blocks A B}

theorem block_newBlock_self (b : SMTBasicBlock A B) (x : Blocks A B) :
    (x.newBlock b).block x.idCounter = b := Function.update_self _ _ _

theorem block_newBlock {v : Nat} (hv : v ≠ x.idCounter) (b : SMTBasicBlock A B) :
    (x.newBlock b).block v = x.block v := Function.update_of_ne hv _ _

theorem block_modify (id : Nat) (f : SMTBasicBlock A B → SMTBasicBlock A B) (v : Nat) :
    (x.modify id f).block v = if v = id then f (x.block v) else x.block v := by
  show Function.update x.block id (f (x.block id)) v = _
  by_cases hv : v = id
  · rw [hv, Function.update_self, if_pos rfl]
  · rw [Function.update_of_ne hv, if_neg hv]

/-- What `link` leaves of the fields of a block. -/
theorem block_link (src dst v : Nat) :
    (x.link src dst).block v =
      { x.block v with
        predecessors :=
          if v = dst then (x.block v).predecessors.insert src else (x.block v).predecessors
        successors :=
          if v = src then (x.block v).successors.insert dst else (x.block v).successors } := by
  rw [link, block_modify, block_modify]
  by_cases hdst : v = dst
  · rw [if_pos hdst]
    by_cases hsrc : v = src
    · rw [if_pos hsrc, if_pos hdst, if_pos hsrc]
    · rw [if_neg hsrc, if_pos hdst, if_neg hsrc]
  · rw [if_neg hdst]
    by_cases hsrc : v = src
    · rw [if_pos hsrc, if_neg hdst, if_pos hsrc]
    · rw [if_neg hsrc, if_neg hdst, if_neg hsrc]

theorem mem_predecessors_link {src dst u v : Nat} :
    u ∈ ((x.link src dst).block v).predecessors ↔
      u ∈ (x.block v).predecessors ∨ v = dst ∧ u = src := by
  rw [block_link]
  dsimp only
  split
  · rename_i hv
    rw [List.mem_insert_iff, and_iff_right hv, or_comm]
  · rename_i hv
    rw [or_iff_left fun h => hv h.1]

theorem mem_successors_link {src dst u v : Nat} :
    v ∈ ((x.link src dst).block u).successors ↔
      v ∈ (x.block u).successors ∨ u = src ∧ v = dst := by
  rw [block_link]
  dsimp only
  split
  · rename_i hu
    rw [List.mem_insert_iff, and_iff_right hu, or_comm]
  · rename_i hu
    rw [or_iff_left fun h => hu h.1]

theorem predecessors_link {src dst v : Nat} (hv : v ≠ dst) :
    ((x.link src dst).block v).predecessors = (x.block v).predecessors := by
  rw [block_link]
  exact if_neg hv

theorem idom_link (src dst v : Nat) :
    ((x.link src dst).block v).idom = (x.block v).idom := by
  rw [block_link]

theorem weight_link (src dst v : Nat) :
    ((x.link src dst).block v).weight = (x.block v).weight := by
  rw [block_link]

/-- An assignment changes the list of a block only. -/
theorem block_addAssign (r : Registered A B) (x : Blocks A B) (v : Nat) :
    ((x.addAssign r).block v).predecessors = (x.block v).predecessors ∧
      ((x.addAssign r).block v).successors = (x.block v).successors ∧
        ((x.addAssign r).block v).idom = (x.block v).idom ∧
          ((x.addAssign r).block v).weight = (x.block v).weight := by
  rw [addAssign, block_modify]
  split
  · exact ⟨rfl, rfl, rfl, rfl⟩
  · exact ⟨rfl, rfl, rfl, rfl⟩

/-! ## Edges in both directions -/

/-- Every edge is noted at both ends, and there are none at blocks to come. -/
structure Linked (x : Blocks A B) : Prop where
  linked : ∀ u v, v ∈ (x.block u).successors ↔ u ∈ (x.block v).predecessors
  blank : ∀ v, x.idCounter ≤ v →
    (x.block v).predecessors = [] ∧ (x.block v).successors = []
  weight_le : ∀ v, (x.block v).weight ≤ 1

theorem Linked.congr (h : Linked x) (hcount : y.idCounter = x.idCounter)
    (hsame : ∀ v, (y.block v).predecessors = (x.block v).predecessors ∧
      (y.block v).successors = (x.block v).successors ∧
        (y.block v).idom = (x.block v).idom ∧ (y.block v).weight = (x.block v).weight) :
    Linked y where
  linked := by
    intro u v
    rw [(hsame u).2.1, (hsame v).1]
    exact h.linked u v
  blank := by
    intro v hv
    rw [(hsame v).1, (hsame v).2.1]
    exact h.blank v (hcount ▸ hv)
  weight_le := by
    intro v
    rw [(hsame v).2.2.2]
    exact h.weight_le v

theorem linked_start : Linked (Blocks.start : Blocks A B) where
  linked := fun _ _ => iff_of_false List.not_mem_nil List.not_mem_nil
  blank := fun _ _ => ⟨rfl, rfl⟩
  weight_le := fun _ => Nat.zero_le 1

theorem Linked.newBlock (h : Linked x) {b : SMTBasicBlock A B} (hpreds : b.predecessors = [])
    (hsuccs : b.successors = []) (hweight : b.weight ≤ 1) : Linked (x.newBlock b) := by
  have hsame : ∀ v, ((x.newBlock b).block v).predecessors = (x.block v).predecessors ∧
      ((x.newBlock b).block v).successors = (x.block v).successors := by
    intro v
    by_cases hv : v = x.idCounter
    · rw [hv, block_newBlock_self, hpreds, hsuccs]
      exact ⟨(h.blank _ le_rfl).1.symm, (h.blank _ le_rfl).2.symm⟩
    · rw [block_newBlock hv]
      exact ⟨rfl, rfl⟩
  refine ⟨fun u v => ?_, fun v hv => ?_, fun v => ?_⟩
  · rw [(hsame u).2, (hsame v).1]
    exact h.linked u v
  · rw [(hsame v).1, (hsame v).2]
    exact h.blank v (Nat.le_of_succ_le hv)
  · by_cases hv : v = x.idCounter
    · rw [hv, block_newBlock_self]
      exact hweight
    · rw [block_newBlock hv]
      exact h.weight_le v

theorem Linked.link (h : Linked x) {src dst : Nat} (hsrc : src < x.idCounter)
    (hdst : dst < x.idCounter) : Linked (x.link src dst) := by
  refine ⟨fun u v => ?_, fun v hv => ?_, fun v => ?_⟩
  · rw [mem_successors_link, mem_predecessors_link, h.linked, and_comm]
  · have hblank := h.blank v hv
    constructor
    · rw [predecessors_link (hdst.trans_le hv).ne', hblank.1]
    · refine List.eq_nil_iff_forall_not_mem.mpr fun w hw => ?_
      rcases mem_successors_link.mp hw with hw | ⟨rfl, -⟩
      · rw [hblank.2] at hw
        exact absurd hw List.not_mem_nil
      · exact absurd hsrc (not_lt.mpr hv)
  · rw [weight_link]
    exact h.weight_le v

/-- In a process, where a block is current. -/
structure Ready (x : Blocks A B) : Prop extends Linked x where
  topBb_lt : x.topBb < x.idCounter

theorem Ready.newArm {weight top : Nat} (h : Ready x) (hweight : weight ≤ 1)
    (htop : top < x.idCounter) (b : B) : Ready (x.newArm weight b top) where
  toLinked := (h.toLinked.newBlock rfl rfl hweight).link (Nat.lt_succ_of_lt htop)
    (Nat.lt_succ_self _)
  topBb_lt := Nat.lt_succ_of_lt h.topBb_lt

theorem Ready.newExit {top : Nat} (h : Ready x) : Ready (x.newExit top) where
  toLinked := h.toLinked.newBlock rfl rfl (Nat.zero_le 1)
  topBb_lt := Nat.lt_succ_of_lt h.topBb_lt

theorem Linked.goTo {id : Nat} (h : Linked x) (hid : id < x.idCounter) : Ready (x.goTo id) where
  toLinked := ⟨h.linked, h.blank, h.weight_le⟩
  topBb_lt := hid

/-- What is known of the blocks after a statement. -/
def Advances (x y : Blocks A B) : Prop := Ready y ∧ x.idCounter ≤ y.idCounter

theorem Advances.trans (h : Advances x y) (h' : Advances y z) : Advances x z :=
  ⟨h'.1, h.2.trans h'.2⟩

theorem advances_fillArm {emit : Blocks A B → Blocks A B} (bb exit : Nat) (h : Ready x)
    (hbb : bb < x.idCounter) (hexit : exit < x.idCounter)
    (hemit : Ready (x.goTo bb) → Advances (x.goTo bb) (emit (x.goTo bb))) :
    Advances x (x.fillArm emit bb exit) := by
  obtain ⟨hready, hle⟩ := hemit (h.toLinked.goTo hbb)
  have hexit' : exit < (emit (x.goTo bb)).idCounter := hexit.trans_le hle
  exact ⟨⟨hready.toLinked.link hready.topBb_lt hexit', hready.topBb_lt⟩, hle⟩

theorem advances_caseArm {emit : Blocks A B → Blocks A B} {weight top exit : Nat} {b : B}
    (h : Ready x) (hweight : weight ≤ 1) (htop : top < x.idCounter) (hexit : exit < x.idCounter)
    (hemit : ∀ y : Blocks A B, Ready y → Advances y (emit y)) :
    Advances x (x.caseArm weight b emit top exit) := by
  obtain ⟨hready, hle⟩ := advances_fillArm _ exit (h.newArm hweight htop b) (Nat.lt_succ_self _)
    (Nat.lt_succ_of_lt hexit) (hemit _)
  exact ⟨hready, Nat.le_of_succ_le hle⟩

end Blocks

namespace IvlStatement

open Blocks

/-- Statements keep the edges in both directions. -/
theorem advances_emitBlocks {k : IvlKind} (t : IvlStatement A B k) :
    ∀ (top exit : Nat) (x : Blocks A B), Ready x →
      (k = .arms → top < x.idCounter ∧ exit < x.idCounter) →
        Advances x (t.emitBlocks top exit x) := by
  induction t with
  | noop | null | stask | delay | nil | noArm => exact fun _ _ x h _ => ⟨h, le_rfl⟩
  | assign isCommit a =>
      intro top exit x h _
      exact ⟨⟨h.toLinked.congr rfl (block_addAssign _ x), h.topBb_lt⟩, le_rfl⟩
  | block body ih => exact fun top exit x h _ => ih top exit x h nofun
  | condit trueArm falseArm trueStmt falseStmt ihtrue ihfalse =>
      intro top exit x h _
      have hready : Ready (((x.newArm 1 trueArm x.topBb).newArm 1 falseArm x.topBb).newExit
          x.topBb) :=
        ((h.newArm le_rfl h.topBb_lt trueArm).newArm le_rfl
          (Nat.lt_succ_of_lt h.topBb_lt) falseArm).newExit
      have hbounds : ∀ y : Blocks A B, x.idCounter + 3 ≤ y.idCounter →
          x.idCounter < y.idCounter ∧ x.idCounter + 1 < y.idCounter ∧
            x.idCounter + 2 < y.idCounter := fun y hy => by omega
      have htrue := advances_fillArm x.idCounter (x.idCounter + 2) hready
        (hbounds _ le_rfl).1 (hbounds _ le_rfl).2.2 fun hy =>
          ihtrue x.topBb (x.idCounter + 2) _ hy nofun
      have hfalse := advances_fillArm (x.idCounter + 1) (x.idCounter + 2) htrue.1
        (hbounds _ htrue.2).2.1 (hbounds _ htrue.2).2.2 fun hy =>
          ihfalse x.topBb (x.idCounter + 2) _ hy nofun
      have hall := htrue.trans hfalse
      exact ⟨hall.1.toLinked.goTo (hbounds _ hall.2).2.2, le_trans (Nat.le_add_right _ 3) hall.2⟩
  | case arms ih =>
      intro top exit x h _
      have hexit : Ready (x.newExit x.topBb) := h.newExit
      have harms := ih x.topBb x.idCounter _ hexit fun _ =>
        ⟨Nat.lt_succ_of_lt h.topBb_lt, Nat.lt_succ_self _⟩
      exact ⟨harms.1.toLinked.goTo (lt_of_lt_of_le (Nat.lt_succ_self _) harms.2),
        le_trans (Nat.le_succ _) harms.2⟩
  | caseDefault before b stmt after ihbefore ihstmt ihafter =>
      intro top exit x h _
      have hexit : Ready (x.newExit x.topBb) := h.newExit
      have hbounds : ∀ y : Blocks A B, x.idCounter + 1 ≤ y.idCounter →
          x.topBb < y.idCounter ∧ x.idCounter < y.idCounter := fun y hy =>
        ⟨(Nat.lt_succ_of_lt h.topBb_lt).trans_le hy, hy⟩
      have hbefore := ihbefore x.topBb x.idCounter _ hexit fun _ => hbounds _ le_rfl
      have hafter := hbefore.trans
        (ihafter x.topBb x.idCounter _ hbefore.1 fun _ => hbounds _ hbefore.2)
      have hstmt := hafter.trans (advances_caseArm (b := b) hafter.1 (Nat.zero_le 1)
        (hbounds _ hafter.2).1 (hbounds _ hafter.2).2 fun y hy =>
          ihstmt x.topBb x.idCounter y hy nofun)
      exact ⟨hstmt.1.toLinked.goTo (hbounds _ hstmt.2).2, le_trans (Nat.le_succ _) hstmt.2⟩
  | wait stmt ih => exact fun top exit x h _ => ih top exit x h nofun
  | cons stmt rest ih ihrest =>
      intro top exit x h _
      have hstmt := ih top exit x h nofun
      exact hstmt.trans (ihrest top exit _ hstmt.1 nofun)
  | arm b stmt rest ih ihrest =>
      intro top exit x h hbounds
      obtain ⟨htop, hexit⟩ := hbounds rfl
      have harm := advances_caseArm (b := b) h le_rfl htop hexit fun y hy =>
        ih top exit y hy nofun
      exact harm.trans (ihrest top exit _ harm.1 fun _ =>
        ⟨htop.trans_le harm.2, hexit.trans_le harm.2⟩)

end IvlStatement

/-! ## What a statement adds to the graph -/

namespace Blocks

/-- The edge from `u` to `v`. -/
def Edge (x : Blocks A B) (u v : Nat) : Prop := v < x.idCounter ∧ u ∈ (x.block v).predecessors

/-- The blocks that were there stay as they are, but for predecessors of those
in `open_`, which the arms of a statement under way come to. -/
structure Frame (open_ : Set Nat) (x y : Blocks A B) : Prop where
  le : x.idCounter ≤ y.idCounter
  preds : ∀ v, v < x.idCounter → v ∉ open_ →
    (y.block v).predecessors = (x.block v).predecessors
  idom : ∀ v, v < x.idCounter → (y.block v).idom = (x.block v).idom
  edge : ∀ u v, x.Edge u v → y.Edge u v

/-- The place of a block `b` in what is added from `lo` on, behind the block `s`. -/
structure Placed (lo s : Nat) (x : Blocks A B) (b : Nat) : Prop where
  preds : ∀ u ∈ (x.block b).predecessors, u = s ∨ lo ≤ u ∧ u < x.idCounter
  reach : ReflTransGen x.Edge s b
  /-- The immediate dominator is the only way into a region around the block. -/
  idom : ∃ d, (x.block b).idom = some d ∧ d < b ∧ (d = s ∨ lo ≤ d) ∧
    ∃ R : Set Nat, b ∈ R ∧ (∀ v ∈ R, lo ≤ v ∧ v < x.idCounter) ∧
      ∀ v ∈ R, ∀ u ∈ (x.block v).predecessors, u ∈ R ∨ u = d

/-- A statement, from the block that is current before it. -/
structure Spreads (x y : Blocks A B) : Prop where
  frame : Frame ∅ x y
  top : y.topBb = x.topBb ∨ x.idCounter ≤ y.topBb
  reach : ReflTransGen y.Edge x.topBb y.topBb
  blocks : ∀ b, x.idCounter ≤ b → b < y.idCounter → Placed x.idCounter x.topBb y b

/-- The statement of an arm that begins in the block `bb` and goes on to `exit`. -/
structure Fills (bb exit : Nat) (x y : Blocks A B) : Prop where
  frame : Frame {exit} x y
  preds : ∀ u ∈ (y.block exit).predecessors,
    u ∈ (x.block exit).predecessors ∨ (u = bb ∨ x.idCounter ≤ u) ∧ u < y.idCounter
  reach : ReflTransGen y.Edge bb exit
  blocks : ∀ b, x.idCounter ≤ b → b < y.idCounter → Placed x.idCounter bb y b

/-- Arms between the blocks `top` and `exit`, where there are some. -/
structure Arms (top exit : Nat) (some : Prop) (x y : Blocks A B) : Prop where
  frame : Frame {exit} x y
  preds : ∀ u ∈ (y.block exit).predecessors,
    u ∈ (x.block exit).predecessors ∨ x.idCounter ≤ u ∧ u < y.idCounter
  reach : some → ReflTransGen y.Edge top exit
  blocks : ∀ b, x.idCounter ≤ b → b < y.idCounter → Placed x.idCounter top y b

variable {x y z : Blocks A B}

theorem Frame.refl (open_ : Set Nat) (x : Blocks A B) : Frame open_ x x :=
  ⟨le_rfl, fun _ _ _ => rfl, fun _ _ => rfl, fun _ _ h => h⟩

/-- Blocks that come in between may be open in what follows. -/
theorem Frame.hide {open_ open' : Set Nat} (h : Frame open_ x y) (h' : Frame open' y z)
    (hopen : ∀ v ∈ open', v ∈ open_ ∨ x.idCounter ≤ v) : Frame open_ x z where
  le := h.le.trans h'.le
  preds := by
    intro v hv hnot
    refine (h'.preds v (hv.trans_le h.le) fun hmem => ?_).trans (h.preds v hv hnot)
    rcases hopen v hmem with hold | hle
    · exact hnot hold
    · exact absurd hv (not_lt.mpr hle)
  idom := fun v hv => (h'.idom v (hv.trans_le h.le)).trans (h.idom v hv)
  edge := fun u v he => h'.edge u v (h.edge u v he)

theorem Frame.trans {open_ : Set Nat} (h : Frame open_ x y) (h' : Frame open_ y z) :
    Frame open_ x z := h.hide h' fun _ hv => .inl hv

theorem Frame.weaken {open_ : Set Nat} (h : Frame ∅ x y) : Frame open_ x y :=
  ⟨h.le, fun v hv _ => h.preds v hv (Set.notMem_empty v), h.idom, h.edge⟩

theorem Frame.reach {open_ : Set Nat} (h : Frame open_ x y) {u v : Nat}
    (hreach : ReflTransGen x.Edge u v) : ReflTransGen y.Edge u v :=
  ReflTransGen.mono (fun u v he => h.edge u v he) u v hreach

/-- What is placed stays, as long as none of its blocks is open. -/
theorem Placed.frame {lo s b : Nat} {open_ : Set Nat} (h : Placed lo s x b)
    (hframe : Frame open_ x y) (hlo : lo ≤ b) (hb : b < x.idCounter)
    (hopen : ∀ v ∈ open_, v < lo) : Placed lo s y b := by
  have hsame : ∀ v, lo ≤ v → v < x.idCounter →
      (y.block v).predecessors = (x.block v).predecessors := fun v hv hlt =>
    hframe.preds v hlt fun hmem => absurd (hopen v hmem) (not_lt.mpr hv)
  obtain ⟨d, hd, hdb, hds, R, hbR, hR, hclosed⟩ := h.idom
  refine ⟨fun u hu => ?_, hframe.reach h.reach, d, ?_, hdb, hds, R, hbR, ?_, ?_⟩
  · rw [hsame b hlo hb] at hu
    exact (h.preds u hu).imp_right fun hu => ⟨hu.1, hu.2.trans_le hframe.le⟩
  · exact (hframe.idom b hb).trans hd
  · exact fun v hv => ⟨(hR v hv).1, (hR v hv).2.trans_le hframe.le⟩
  · intro v hv u hu
    rw [hsame v (hR v hv).1 (hR v hv).2] at hu
    exact hclosed v hv u hu

/-- A part of what is added is placed in the whole. -/
theorem Placed.widen {lo s lo' s' b : Nat} (h : Placed lo s x b) (hlo : lo' ≤ lo)
    (hs : s = s' ∨ lo' ≤ s ∧ s < x.idCounter) (hreach : ReflTransGen x.Edge s' s) :
    Placed lo' s' x b := by
  obtain ⟨d, hd, hdb, hds, R, hbR, hR, hclosed⟩ := h.idom
  refine ⟨fun u hu => ?_, hreach.trans h.reach, d, hd, hdb, ?_, R, hbR, ?_, hclosed⟩
  · rcases h.preds u hu with rfl | hu
    · exact hs
    · exact .inr ⟨hlo.trans hu.1, hu.2⟩
  · rcases hds with rfl | hds
    · exact hs.imp_right And.left
    · exact .inr (hlo.trans hds)
  · exact fun v hv => ⟨hlo.trans (hR v hv).1, (hR v hv).2⟩

theorem Placed.goTo {lo s b : Nat} (h : Placed lo s x b) (id : Nat) : Placed lo s (x.goTo id) b :=
  ⟨h.preds, h.reach, h.idom⟩

theorem Spreads.refl (x : Blocks A B) : Spreads x x :=
  ⟨.refl _ x, .inl rfl, .refl, fun _ hle hlt => absurd hlt (not_lt.mpr hle)⟩

/-- One statement after the other. -/
theorem Spreads.trans (h : Spreads x y) (h' : Spreads y z) (hready : Ready y) : Spreads x z where
  frame := h.frame.trans h'.frame
  top := by
    rcases h'.top with heq | hle
    · rw [heq]
      exact h.top
    · exact .inr (h.frame.le.trans hle)
  reach := (h'.frame.reach h.reach).trans h'.reach
  blocks := by
    intro b hle hlt
    rcases lt_or_ge b y.idCounter with hb | hb
    · exact (h.blocks b hle hb).frame h'.frame hle hb fun v hv => absurd hv (Set.notMem_empty v)
    · refine (h'.blocks b hb hlt).widen h.frame.le ?_ (h'.frame.reach h.reach)
      exact h.top.imp_right fun hle => ⟨hle, hready.topBb_lt.trans_le h'.frame.le⟩

/-! ## Arms -/

theorem frame_link {src dst : Nat} (x : Blocks A B) : Frame {dst} x (x.link src dst) where
  le := le_rfl
  preds := fun _ _ hv => predecessors_link hv
  idom := fun v _ => idom_link src dst v
  edge := fun _ _ he => ⟨he.1, mem_predecessors_link.mpr (.inl he.2)⟩

theorem frame_newBlock (b : SMTBasicBlock A B) (x : Blocks A B) : Frame ∅ x (x.newBlock b) where
  le := Nat.le_succ _
  preds := fun v hv _ => by rw [block_newBlock hv.ne]
  idom := fun v hv => by rw [block_newBlock hv.ne]
  edge := by
    rintro u v ⟨hv, hu⟩
    refine ⟨Nat.lt_succ_of_lt hv, ?_⟩
    rw [block_newBlock hv.ne]
    exact hu

theorem frame_addAssign (r : Registered A B) (x : Blocks A B) : Frame ∅ x (x.addAssign r) where
  le := le_rfl
  preds := fun v _ _ => (block_addAssign r x v).1
  idom := fun v _ => (block_addAssign r x v).2.2.1
  edge := by
    rintro u v ⟨hv, hu⟩
    rw [← (block_addAssign r x v).1] at hu
    exact ⟨hv, hu⟩

theorem frame_newExit (top : Nat) (x : Blocks A B) : Frame ∅ x (x.newExit top) :=
  frame_newBlock _ x

theorem frame_newArm (weight : Nat) (b : B) (top : Nat) (x : Blocks A B) :
    Frame ∅ x (x.newArm weight b top) :=
  (frame_newBlock _ x).hide (frame_link _) fun _ hv => .inr (Set.mem_singleton_iff.mp hv).ge

/-- The block of an arm that leaves the block `top`. -/
structure ArmAt (top : Nat) (x : Blocks A B) (b : Nat) : Prop where
  mem_predecessors : ∀ u, u ∈ (x.block b).predecessors ↔ u = top
  idom : (x.block b).idom = some top

theorem armAt_newArm (weight : Nat) (b : B) (top : Nat) (x : Blocks A B) :
    ArmAt top (x.newArm weight b top) x.idCounter := by
  constructor
  · intro u
    rw [newArm, mem_predecessors_link, block_newBlock_self, and_iff_right rfl]
    exact or_iff_right List.not_mem_nil
  · rw [newArm, idom_link, block_newBlock_self]

theorem ArmAt.frame {top b : Nat} {open_ : Set Nat} (h : ArmAt top x b) (hframe : Frame open_ x y)
    (hb : b < x.idCounter) (hopen : b ∉ open_) : ArmAt top y b := by
  constructor
  · intro u
    rw [hframe.preds b hb hopen]
    exact h.mem_predecessors u
  · rw [hframe.idom b hb]
    exact h.idom

/-- The region around it is the block alone. -/
theorem ArmAt.placed {top lo b : Nat} (h : ArmAt top x b) (hlo : lo ≤ b) (hb : b < x.idCounter)
    (htop : top < b) : Placed lo top x b := by
  refine ⟨fun u hu => .inl ((h.mem_predecessors u).mp hu), ?_, top, h.idom, htop, .inl rfl,
    {b}, rfl, ?_, ?_⟩
  · exact .single ⟨hb, (h.mem_predecessors top).mpr rfl⟩
  · rintro v rfl
    exact ⟨hlo, hb⟩
  · rintro v rfl u hu
    exact .inr ((h.mem_predecessors u).mp hu)

/-- An arm, from what is known of its statement. -/
theorem fills_fillArm {emit : Blocks A B → Blocks A B} {bb exit : Nat}
    (hexit : exit < x.idCounter) (hready : Ready (emit (x.goTo bb)))
    (h : Spreads (x.goTo bb) (emit (x.goTo bb))) :
    Fills bb exit x (x.fillArm emit bb exit) := by
  have hlink : Frame {exit} (emit (x.goTo bb)) (x.fillArm emit bb exit) := frame_link _
  have hframe : Frame {exit} (x.goTo bb) (x.fillArm emit bb exit) := h.frame.weaken.trans hlink
  have htop : bb = (emit (x.goTo bb)).topBb ∨ x.idCounter ≤ (emit (x.goTo bb)).topBb :=
    h.top.imp_left Eq.symm
  refine ⟨⟨hframe.le, hframe.preds, hframe.idom, hframe.edge⟩, fun u hu => ?_, ?_,
    fun b hle hlt => ?_⟩
  · rcases mem_predecessors_link.mp hu with hu | ⟨-, rfl⟩
    · rw [h.frame.preds exit hexit (Set.notMem_empty exit)] at hu
      exact .inl hu
    · exact .inr ⟨htop.imp_left Eq.symm, hready.topBb_lt⟩
  · refine (hlink.reach h.reach).tail ⟨hexit.trans_le hframe.le, ?_⟩
    exact mem_predecessors_link.mpr (.inr ⟨rfl, rfl⟩)
  · exact (h.blocks b hle hlt).frame hlink hle hlt fun v hv => hv ▸ hexit

/-- An arm of a case statement. -/
theorem arms_caseArm {emit : Blocks A B → Blocks A B} {weight top exit : Nat} {b : B}
    (htop : top < x.idCounter) (hexit : exit < x.idCounter)
    (hready : Ready (emit ((x.newArm weight b top).goTo x.idCounter)))
    (h : Spreads ((x.newArm weight b top).goTo x.idCounter)
      (emit ((x.newArm weight b top).goTo x.idCounter))) :
    Arms top exit True x (x.caseArm weight b emit top exit) := by
  have harm := armAt_newArm weight b top x
  have hframe := frame_newArm weight b top x
  have hfills : Fills x.idCounter exit (x.newArm weight b top) (x.caseArm weight b emit top exit) :=
    fills_fillArm (Nat.lt_succ_of_lt hexit) hready h
  have hlt : x.idCounter < (x.caseArm weight b emit top exit).idCounter := hfills.frame.le
  have hnew : Placed x.idCounter top (x.caseArm weight b emit top exit) x.idCounter :=
    (harm.frame hfills.frame (Nat.lt_succ_self _) hexit.ne').placed le_rfl hlt htop
  refine ⟨hframe.weaken.trans hfills.frame, fun u hu => ?_, fun _ => ?_, fun b' hle hb => ?_⟩
  · rcases hfills.preds u hu with hu | ⟨hu, hu'⟩
    · rw [hframe.preds exit hexit (Set.notMem_empty exit)] at hu
      exact .inl hu
    · exact .inr ⟨hu.elim (fun heq => heq.ge) Nat.le_of_succ_le, hu'⟩
  · exact hnew.reach.trans hfills.reach
  · rcases Nat.eq_or_lt_of_le hle with rfl | hlt'
    · exact hnew
    · exact (hfills.blocks b' hlt' hb).widen (Nat.le_succ _) (.inr ⟨le_rfl, hlt⟩) hnew.reach

theorem Arms.refl {top exit : Nat} (x : Blocks A B) : Arms top exit False x x :=
  ⟨.refl _ x, fun _ hu => .inl hu, False.elim, fun _ hle hlt => absurd hlt (not_lt.mpr hle)⟩

theorem Arms.trans {top exit : Nat} {some some' : Prop} (h : Arms top exit some x y)
    (h' : Arms top exit some' y z) (hexit : exit < x.idCounter) :
    Arms top exit (some ∨ some') x z where
  frame := h.frame.trans h'.frame
  preds := by
    intro u hu
    rcases h'.preds u hu with hu | ⟨hle, hlt⟩
    · exact (h.preds u hu).imp_right fun hu => ⟨hu.1, hu.2.trans_le h'.frame.le⟩
    · exact .inr ⟨h.frame.le.trans hle, hlt⟩
  reach := by
    rintro (hsome | hsome)
    · exact h'.frame.reach (h.reach hsome)
    · exact h'.reach hsome
  blocks := by
    intro b hle hlt
    rcases lt_or_ge b y.idCounter with hb | hb
    · exact (h.blocks b hle hb).frame h'.frame hle hb fun v hv => hv ▸ hexit
    · exact (h'.blocks b hb hlt).widen h.frame.le (.inl rfl) .refl

theorem Arms.imp {top exit : Nat} {some some' : Prop} (h : Arms top exit some x y)
    (hsome : some' → some) : Arms top exit some' x y :=
  ⟨h.frame, h.preds, fun hs => h.reach (hsome hs), h.blocks⟩

/-! ## Where the arms meet -/

/-- The statement ends in a block to which all arms lead. -/
theorem spreads_goTo {exit : Nat} (hframe : Frame ∅ x y) (hlt : exit < y.idCounter)
    (hnew : x.idCounter ≤ exit) (htop : x.topBb < x.idCounter)
    (hidom : (y.block exit).idom = some x.topBb)
    (hpreds : ∀ u ∈ (y.block exit).predecessors, x.idCounter ≤ u ∧ u < y.idCounter)
    (hreach : ReflTransGen y.Edge x.topBb exit)
    (hblocks : ∀ b, x.idCounter ≤ b → b < y.idCounter → b ≠ exit →
      Placed x.idCounter x.topBb y b) : Spreads x (y.goTo exit) := by
  have hexit : Placed x.idCounter x.topBb y exit := by
    refine ⟨fun u hu => .inr (hpreds u hu), hreach, x.topBb, hidom, htop.trans_le hnew, .inl rfl,
      {v | x.idCounter ≤ v ∧ v < y.idCounter}, ⟨hnew, hlt⟩, fun v hv => hv, ?_⟩
    rintro v ⟨hv, hv'⟩ u hu
    by_cases heq : v = exit
    · rw [heq] at hu
      exact .inl (hpreds u hu)
    · exact ((hblocks v hv hv' heq).preds u hu).symm
  refine ⟨⟨hframe.le, hframe.preds, hframe.idom, hframe.edge⟩, .inr hnew, hreach, ?_⟩
  intro b hle hb
  by_cases heq : b = exit
  · rw [heq]
    exact hexit.goTo exit
  · exact (hblocks b hle hb heq).goTo exit

/-- A case statement, from what is known of its arms. -/
theorem spreads_case {some : Prop} (hsome : some) (htop : x.topBb < x.idCounter)
    (h : Arms x.topBb x.idCounter some (x.newExit x.topBb) y) : Spreads x (y.goTo x.idCounter) := by
  have hnew : ((x.newExit x.topBb).block x.idCounter).predecessors = [] ∧
      ((x.newExit x.topBb).block x.idCounter).idom = Option.some x.topBb := by
    rw [newExit, block_newBlock_self]
    exact ⟨rfl, rfl⟩
  have hframe : Frame ∅ x y := (frame_newExit x.topBb x).hide h.frame fun v hv => .inr hv.ge
  refine spreads_goTo hframe h.frame.le le_rfl htop ?_ (fun u hu => ?_) (h.reach hsome) ?_
  · rw [h.frame.idom _ (Nat.lt_succ_self _)]
    exact hnew.2
  · rcases h.preds u hu with hu | hu
    · rw [hnew.1] at hu
      exact absurd hu List.not_mem_nil
    · exact ⟨Nat.le_of_succ_le hu.1, hu.2⟩
  · intro b hle hlt hne
    have hb : (x.newExit x.topBb).idCounter ≤ b := Nat.lt_of_le_of_ne hle hne.symm
    exact (h.blocks b hb hlt).widen (Nat.le_succ _) (.inl rfl) .refl

/-- The blocks that an `if` makes before its statements. -/
def newCondit (trueArm falseArm : B) (x : Blocks A B) : Blocks A B :=
  ((x.newArm 1 trueArm x.topBb).newArm 1 falseArm x.topBb).newExit x.topBb

theorem frame_newCondit (trueArm falseArm : B) (x : Blocks A B) :
    Frame ∅ x (x.newCondit trueArm falseArm) :=
  ((frame_newArm 1 trueArm x.topBb x).trans
    (frame_newArm 1 falseArm x.topBb (x.newArm 1 trueArm x.topBb))).trans (frame_newExit x.topBb _)

/-- The arms and the exit, before the statements. -/
theorem armAt_newCondit_true (trueArm falseArm : B) (x : Blocks A B) :
    ArmAt x.topBb (x.newCondit trueArm falseArm) x.idCounter :=
  ((armAt_newArm 1 trueArm x.topBb x).frame
    (frame_newArm 1 falseArm x.topBb (x.newArm 1 trueArm x.topBb)) (Nat.lt_succ_self _)
      (Set.notMem_empty _)).frame (frame_newExit x.topBb _)
        (Nat.lt_succ_of_lt (Nat.lt_succ_self _)) (Set.notMem_empty _)

theorem armAt_newCondit_false (trueArm falseArm : B) (x : Blocks A B) :
    ArmAt x.topBb (x.newCondit trueArm falseArm) (x.idCounter + 1) :=
  (armAt_newArm 1 falseArm x.topBb (x.newArm 1 trueArm x.topBb)).frame (frame_newExit x.topBb _)
    (Nat.lt_succ_self _) (Set.notMem_empty _)

theorem exit_newCondit (trueArm falseArm : B) (x : Blocks A B) :
    ((x.newCondit trueArm falseArm).block (x.idCounter + 2)).predecessors = [] ∧
      ((x.newCondit trueArm falseArm).block (x.idCounter + 2)).idom = some x.topBb := by
  have hnew : (x.newCondit trueArm falseArm).block (x.idCounter + 2) = _ :=
    block_newBlock_self _ _
  rw [hnew]
  exact ⟨rfl, rfl⟩

/-- An `if`, from what is known of its arms. -/
theorem spreads_condit {trueArm falseArm : B} (htop : x.topBb < x.idCounter)
    (htrue : Fills x.idCounter (x.idCounter + 2) (x.newCondit trueArm falseArm) y)
    (hfalse : Fills (x.idCounter + 1) (x.idCounter + 2) y z) :
    Spreads x (z.goTo (x.idCounter + 2)) := by
  have hexit := exit_newCondit trueArm falseArm x
  have hfill : Frame {x.idCounter + 2} (x.newCondit trueArm falseArm) z :=
    htrue.frame.trans hfalse.frame
  have hy : x.idCounter + 3 ≤ y.idCounter := htrue.frame.le
  have hz : y.idCounter ≤ z.idCounter := hfalse.frame.le
  have hframe : Frame ∅ x z := (frame_newCondit trueArm falseArm x).hide hfill fun v hv =>
    .inr (hv ▸ Nat.le_add_right _ 2)
  have htruePlaced : Placed x.idCounter x.topBb z x.idCounter :=
    ((armAt_newCondit_true trueArm falseArm x).frame hfill
      (Nat.lt_add_of_pos_right (Nat.succ_pos 2)) (by simp)).placed le_rfl (by omega) htop
  have hfalsePlaced : Placed x.idCounter x.topBb z (x.idCounter + 1) :=
    ((armAt_newCondit_false trueArm falseArm x).frame hfill
      (Nat.lt_succ_of_lt (Nat.lt_succ_self _)) (by simp)).placed (Nat.le_succ _) (by omega)
        (Nat.lt_succ_of_lt htop)
  refine spreads_goTo hframe (by omega) (Nat.le_add_right _ 2) htop ?_ (fun u hu => ?_) ?_ ?_
  · exact (hfill.idom (x.idCounter + 2) (Nat.lt_succ_self _)).trans hexit.2
  · rcases hfalse.preds u hu with hu | hu
    · rcases htrue.preds u hu with hu | hu
      · rw [hexit.1] at hu
        exact absurd hu List.not_mem_nil
      · have hle : u = x.idCounter ∨ x.idCounter + 3 ≤ u := hu.1
        omega
    · omega
  · exact hfalsePlaced.reach.trans hfalse.reach
  · intro b hle hlt hne
    rcases lt_or_ge b y.idCounter with hb | hb
    · rcases lt_or_ge b (x.idCounter + 3) with hb' | hb'
      · have harm : b = x.idCounter ∨ b = x.idCounter + 1 := by omega
        rcases harm with rfl | rfl
        · exact htruePlaced
        · exact hfalsePlaced
      · have hinner := (htrue.blocks b hb' hb).frame hfalse.frame hb' hb fun v hv =>
          hv ▸ Nat.lt_succ_self _
        exact hinner.widen (Nat.le_add_right _ 3) (.inr ⟨le_rfl, by omega⟩) htruePlaced.reach
    · exact (hfalse.blocks b hb hlt).widen (by omega) (.inr ⟨Nat.le_succ _, by omega⟩)
        hfalsePlaced.reach

end Blocks

/-! ## Statements -/

namespace IvlStatement

open Blocks

/-- What a statement does to the graph, and what the arms of a case statement do. -/
def Builds {k : IvlKind} (t : IvlStatement A B k) (top exit : Nat) (x : Blocks A B) : Prop :=
  match k with
  | .arms => top < x.idCounter → exit < x.idCounter →
      Blocks.Arms top exit (t.arms ≠ []) x (t.emitBlocks top exit x)
  | _ => Spreads x (t.emitBlocks top exit x)

/-- An arm, with the state after it. -/
theorem arms_arm {stmt : IvlStatement A B .stmt} {weight top exit : Nat} {b : B} {x : Blocks A B}
    (hweight : weight ≤ 1) (h : Ready x) (htop : top < x.idCounter) (hexit : exit < x.idCounter)
    (hstmt : ∀ y, Ready y → Spreads y (stmt.emitBlocks top exit y)) :
    Blocks.Arms top exit True x (x.caseArm weight b (stmt.emitBlocks top exit) top exit) ∧
      Advances x (x.caseArm weight b (stmt.emitBlocks top exit) top exit) := by
  have hready : Ready ((x.newArm weight b top).goTo x.idCounter) :=
    (h.newArm hweight htop b).toLinked.goTo (Nat.lt_succ_self _)
  have hemit := (stmt.advances_emitBlocks top exit _ hready nofun).1
  exact ⟨arms_caseArm htop hexit hemit (hstmt _ hready),
    advances_caseArm h hweight htop hexit fun y hy => stmt.advances_emitBlocks top exit y hy nofun⟩

/-- **The induction over the statement.** -/
theorem builds_emitBlocks {k : IvlKind} (t : IvlStatement A B k) (ht : t.HasArms) :
    ∀ (top exit : Nat) (x : Blocks A B), Ready x → t.Builds top exit x := by
  induction t with
  | noop | null | stask | delay | nil => exact fun _ _ x _ => .refl x
  | assign isCommit a =>
      intro top exit x h
      exact ⟨frame_addAssign _ x, .inl rfl, .refl, fun _ hle hlt => absurd hlt (not_lt.mpr hle)⟩
  | block body ih => exact fun top exit x h => ih ht top exit x h
  | condit trueArm falseArm trueStmt falseStmt ihtrue ihfalse =>
      intro top exit x h
      have hready : Ready (x.newCondit trueArm falseArm) :=
        ((h.newArm le_rfl h.topBb_lt trueArm).newArm le_rfl
          (Nat.lt_succ_of_lt h.topBb_lt) falseArm).newExit
      have hbounds : ∀ y : Blocks A B, x.idCounter + 3 ≤ y.idCounter →
          x.idCounter < y.idCounter ∧ x.idCounter + 1 < y.idCounter ∧
            x.idCounter + 2 < y.idCounter := fun y hy => by omega
      have hgo := hready.toLinked.goTo (hbounds _ le_rfl).1
      have hemit := trueStmt.advances_emitBlocks x.topBb (x.idCounter + 2) _ hgo nofun
      have htrue := fills_fillArm (hbounds _ le_rfl).2.2 hemit.1
        (ihtrue ht.1 x.topBb (x.idCounter + 2) _ hgo)
      have hnext := advances_fillArm x.idCounter (x.idCounter + 2) hready (hbounds _ le_rfl).1
        (hbounds _ le_rfl).2.2 fun _ => hemit
      have hgo' := hnext.1.toLinked.goTo (hbounds _ hnext.2).2.1
      have hemit' := falseStmt.advances_emitBlocks x.topBb (x.idCounter + 2) _ hgo' nofun
      have hfalse := fills_fillArm (hbounds _ hnext.2).2.2 hemit'.1
        (ihfalse ht.2 x.topBb (x.idCounter + 2) _ hgo')
      exact spreads_condit h.topBb_lt htrue hfalse
  | case arms ih =>
      intro top exit x h
      have hexit : Ready (x.newExit x.topBb) := h.newExit
      have harms := ih ht.2 x.topBb x.idCounter _ hexit (Nat.lt_succ_of_lt h.topBb_lt)
        (Nat.lt_succ_self _)
      exact spreads_case ht.1 h.topBb_lt harms
  | caseDefault before b stmt after ihbefore ihstmt ihafter =>
      intro top exit x h
      have hbounds : ∀ y : Blocks A B, x.idCounter + 1 ≤ y.idCounter →
          x.topBb < y.idCounter ∧ x.idCounter < y.idCounter := fun y hy =>
        ⟨(Nat.lt_succ_of_lt h.topBb_lt).trans_le hy, hy⟩
      have hexit : Ready (x.newExit x.topBb) := h.newExit
      have hbefore := ihbefore ht.1 x.topBb x.idCounter _ hexit (hbounds _ le_rfl).1
        (hbounds _ le_rfl).2
      have hnext := before.advances_emitBlocks x.topBb x.idCounter _ hexit fun _ =>
        hbounds _ le_rfl
      have hafter := ihafter ht.2.2 x.topBb x.idCounter _ hnext.1 (hbounds _ hnext.2).1
        (hbounds _ hnext.2).2
      have hlast := hnext.trans (after.advances_emitBlocks x.topBb x.idCounter _ hnext.1 fun _ =>
        hbounds _ hnext.2)
      have hstmt := (arms_arm (b := b) (Nat.zero_le 1) hlast.1 (hbounds _ hlast.2).1
        (hbounds _ hlast.2).2 (ihstmt ht.2.1 x.topBb x.idCounter)).1
      exact spreads_case (.inr trivial) h.topBb_lt ((hbefore.trans hafter (hbounds _ le_rfl).2).trans
        hstmt (hbounds _ le_rfl).2)
  | wait stmt ih => exact fun top exit x h => ih ht top exit x h
  | cons stmt rest ih ihrest =>
      intro top exit x h
      have hstmt := (stmt.advances_emitBlocks top exit x h nofun).1
      exact Spreads.trans (ih ht.1 top exit x h) (ihrest ht.2 top exit _ hstmt) hstmt
  | noArm => exact fun top exit x _ _ _ => (Arms.refl x).imp fun hne => hne rfl
  | arm b stmt rest ih ihrest =>
      intro top exit x h htop hexit
      obtain ⟨harm, hnext⟩ := arms_arm (b := b) le_rfl h htop hexit (ih ht.1 top exit)
      have hrest := ihrest ht.2 top exit _ hnext.1 (htop.trans_le hnext.2) (hexit.trans_le hnext.2)
      exact (harm.trans hrest hexit).imp fun _ => .inl trivial

end IvlStatement

/-! ## Processes -/

open Blocks

/-- The graph of a process whose entry is the block `entry`, the first of its
blocks. -/
structure IsCfg (entry : Nat) (x : Blocks A B) : Prop where
  linked : ∀ a b, b ∈ (x.block a).successors ↔ a ∈ (x.block b).predecessors
  reachable : ∀ b, entry ≤ b → b < x.idCounter →
    ∃ p, Path (fun a b => b ∈ (x.block a).successors) entry b p
  idom : ∀ b, entry < b → b < x.idCounter → ∃ d, (x.block b).idom = some d ∧ d ≠ b ∧
    Dominates (fun a b => b ∈ (x.block a).successors) entry d b
  follow : ∀ b, entry ≤ b → b < x.idCounter →
    ReflTransGen (fun b d => (x.block b).idom = some d) b entry

/-- The blocks behind the entry. -/
theorem Blocks.Linked.isCfg {x : Blocks A B} {entry : Nat} (hlinked : Linked x)
    (hplaced : ∀ b, entry < b → b < x.idCounter → Placed (entry + 1) entry x b) :
    IsCfg entry x := by
  constructor
  · exact hlinked.linked
  · intro b hle hlt
    have hreach : ReflTransGen x.Edge entry b := by
      rcases Nat.eq_or_lt_of_le hle with rfl | hb
      · exact .refl
      · exact (hplaced b hb hlt).reach
    refine exists_path (ReflTransGen.mono (fun u v (he : x.Edge u v) => ?_) _ _ hreach)
    exact (hlinked.linked u v).mpr he.2
  · intro b hb hlt
    obtain ⟨d, hd, hdb, -, R, hbR, hR, hclosed⟩ := (hplaced b hb hlt).idom
    refine ⟨d, hd, hdb.ne, dominates_of_region (fun hmem => ?_) ?_ hbR⟩
    · exact absurd (hR entry hmem).1 (Nat.not_succ_le_self entry)
    · exact fun v hv u hu => hclosed v hv u ((hlinked.linked u v).mp hu)
  · intro b hle hlt
    refine reaches_of_lt (fun b hb hlt => ?_) hle hlt
    obtain ⟨d, hd, hdb, hds, -⟩ := (hplaced b hb hlt).idom
    exact ⟨d, hd, hds.elim (fun heq => heq.ge) Nat.le_of_succ_le, hdb⟩

namespace IvlStatement

theorem linked_newEntry {x : Blocks A B} (h : Linked x) :
    Ready ((x.newBlock .new).goTo x.idCounter) :=
  (h.newBlock rfl rfl (Nat.zero_le 1)).goTo (Nat.lt_succ_self _)

theorem linked_emitProcess {proc : IvlStatement A B .stmt} {x y : Blocks A B}
    {p : SMTProcess Nat} (h : Linked x) (hemit : proc.emitProcess x = some (p, y)) : Linked y := by
  unfold emitProcess at hemit
  split at hemit
  · cases hemit
    exact h.newBlock rfl rfl (Nat.zero_le 1)
  · rename_i stmt
    cases hemit
    exact (stmt.advances_emitBlocks 0 0 _ (linked_newEntry h) nofun).1.toLinked
  · cases hemit

theorem linked_emitProcesses {procs : List (IvlStatement A B .stmt)} {x y : Blocks A B}
    (h : Linked x) (hemit : emitProcesses procs x = some y) : Linked y := by
  induction procs generalizing x with
  | nil =>
      cases hemit
      exact h
  | cons proc procs ih =>
      obtain ⟨z, hz, hemit⟩ := Option.bind_eq_some_iff.mp hemit
      obtain ⟨⟨p, z⟩, hp, rfl⟩ := Option.map_eq_some_iff.mp hz
      exact ih (linked_emitProcess h hp) hemit

/-- **The control flow graph.** Behind any processes, a process whose case
statements have arms gets a graph with every edge at both ends, whose blocks are
reached from the entry, are dominated by their `idom` and lead back to the entry
along it. -/
theorem emitProcess_isCfg {procs : List (IvlStatement A B .stmt)} {x y : Blocks A B}
    (hprocs : emitProcesses procs .start = some x) {stmt : IvlStatement A B .stmt}
    (harms : stmt.HasArms) {p : SMTProcess Nat} (hemit : stmt.emitProcess x = some (p, y)) :
    p.entryBlock = x.idCounter ∧ IsCfg p.entryBlock y := by
  have hlinked := linked_emitProcesses linked_start hprocs
  have hlinked' := linked_emitProcess hlinked hemit
  unfold emitProcess at hemit
  split at hemit
  · cases hemit
    refine ⟨rfl, hlinked'.isCfg fun b hb hlt => ?_⟩
    exact absurd hlt (not_lt.mpr hb)
  · rename_i stmt
    cases hemit
    have hbuilds : Spreads _ _ := builds_emitBlocks stmt harms 0 0 _ (linked_newEntry hlinked)
    exact ⟨rfl, hlinked'.isCfg hbuilds.blocks⟩
  · cases hemit

/-- An `if` without `else`, with a `case` in it. -/
def nestedProcess : IvlStatement Nat Nat .stmt :=
  .wait (.block (.cons
    (.condit 0 1
      (.block (.cons (.assign false 0) (.cons
        (.caseDefault (.arm 2 (.assign true 1) .noArm) 3 .noop (.arm 4 (.assign true 2) .noArm))
        .nil)))
      .null)
    (.cons (.assign true 3) .nil)))

theorem nestedProcess_isCfg : ∃ x p y, emitProcesses [nestedProcess] .start = some x ∧
    nestedProcess.emitProcess x = some (p, y) ∧ p.entryBlock = x.idCounter ∧
      IsCfg p.entryBlock y := by
  have harms : nestedProcess.HasArms := by simp [nestedProcess, HasArms]
  have hprocs : emitProcesses [nestedProcess] .start = some _ := rfl
  obtain ⟨hentry, hcfg⟩ := emitProcess_isCfg hprocs harms rfl
  exact ⟨_, _, _, hprocs, rfl, hentry, hcfg⟩

example : ((nestedProcess.emitProcess .start).map fun r =>
    (r.2.idCounter, r.1.exitBlock, (r.2.block 3).predecessors, (r.2.block 3).idom)) =
      some (8, 3, [2, 4], some 0) := by decide

end IvlStatement

end Conquest
