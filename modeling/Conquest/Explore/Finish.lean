import Conquest.Explore.Told

/-!
# Finish — where the log ends

The testbench calls `$finish` at a time that depends on `g_unroll` only, and the
log has a marker for every rise of the clock before. The loop of `build_stack`
leaves at the marker after the last clock of the path, and at nothing else.
-/

namespace Conquest

open Run

/-! ## The loop of build_stack -/

namespace Session

variable {S : Type} [DecidableEq S] (d : Design S)

/-- The loop of `build_stack` does not end: it comes to the end of the file. A
record that cannot be read ends the program. -/
def Hangs (clock : Nat) (x : Session S) : List LogRecord → Prop
  | [] => True
  | r :: log =>
      r ≠ .clock (x.simClk + 1) ∧
        ∃ y, x.read d clock r = some y ∧ Hangs (r.clockAfter clock) y log

variable {d}

/-- The loop leaves at the marker. -/
theorem not_hangs_of_mem {clock : Nat} {x : Session S} {log : List LogRecord}
    (h : .clock (x.simClk + 1) ∈ log) : ¬ Hangs d clock x log := by
  induction log generalizing clock x with
  | nil => cases h
  | cons r log ih =>
      rintro ⟨hr, y, hread, hrest⟩
      obtain ⟨_, -, hclk, -⟩ := pushes_of_read hread
      rcases List.mem_cons.mp h with heq | hmem
      · exact hr heq.symm
      · exact ih (hclk ▸ hmem) hrest

end Session

/-! ## Rises of the clock -/

namespace Sim

variable {S : Type} [DecidableEq S] {hw : Hardware S} {x y z : Sim S}

/-- When the testbench calls `$finish`. -/
def finishTime (unroll : Nat) : Nat := 2 + 5 + unroll * 12

/-- The rises up to time `t`. -/
def risesTo (t : Nat) : Nat := if t < 2 then 0 else 1 + t / 10

theorem risesTo_succ (t : Nat) :
    risesTo (t + 1) = if risesAfter t then risesTo t + 1 else risesTo t := by
  simp only [risesAfter_iff, risesTo]
  grind

/-- Time and markers stay. -/
structure KeepsTime (x y : Sim S) : Prop where
  time : y.time = x.time
  pc : y.pc = x.pc
  strobe : y.strobe = x.strobe
  markers : ∀ n, .clock n ∈ y.log ↔ .clock n ∈ x.log

namespace KeepsTime

omit [DecidableEq S] in
theorem refl (x : Sim S) : KeepsTime x x := ⟨rfl, rfl, rfl, fun _ => Iff.rfl⟩

omit [DecidableEq S] in
theorem trans (h : KeepsTime x y) (h' : KeepsTime y z) : KeepsTime x z :=
  ⟨h'.time.trans h.time, h'.pc.trans h.pc, h'.strobe.trans h.strobe,
    fun n => (h'.markers n).trans (h.markers n)⟩

omit [DecidableEq S] in
theorem print (id : Nat) (x : Sim S) : KeepsTime x (x.print hw id) := by
  unfold Sim.print
  split
  · exact ⟨rfl, rfl, rfl, fun n => by simp⟩
  · exact refl x

theorem assign (runner : Option Nat) (a : SMTAssign S) (x : Sim S) :
    KeepsTime x (x.assign hw runner a) := by
  unfold Sim.assign
  cases a.target with
  | branch lval => exact refl x
  | assign isCommit lval =>
      refine KeepsTime.trans ?_ (print a.id _)
      cases isCommit with
      | false => exact ⟨rfl, rfl, rfl, fun _ => Iff.rfl⟩
      | true =>
          obtain ⟨active, hwrite⟩ := write_eq hw runner lval.parent (hw.verilog a.rval x.store)
            { x with
              notes :=
                { x.notes with
                  written :=
                    Function.update x.notes.written lval.parent
                      (x.notes.written lval.parent ++ [hw.verilog a.rval x.store]) } }
          simp only [if_true]
          rw [hwrite]
          exact ⟨rfl, rfl, rfl, fun _ => Iff.rfl⟩

/-- A process runs within a time step. -/
theorem exec (runner : Option Nat) (c : Code) (x : Sim S) : KeepsTime x (x.exec hw runner c) := by
  induction c generalizing x with
  | skip => exact refl x
  | assign id =>
      rw [Sim.exec]
      cases hw.design.getAssign id with
      | none => exact refl x
      | some a => exact assign runner a x
  | display id => exact print id x
  | seq c c' ih ih' => exact (ih x).trans (ih' _)
  | arm id body rest ihBody ihRest =>
      rw [Sim.exec]
      cases hw.design.getAssign id with
      | none => exact refl x
      | some a =>
          dsimp only
          split
          · exact ihBody x
          · exact ihRest x

theorem update (x : Sim S) : KeepsTime x (x.update hw) := by
  obtain ⟨inputs, inputDue, active, -, heq⟩ := update_eq hw x
  rw [heq]
  exact ⟨rfl, rfl, rfl, fun _ => Iff.rfl⟩

end KeepsTime

/-- The log has a marker for every rise, in order, and the last one is still to
be printed while the strobe waits. -/
structure Ticking (x : Sim S) : Prop where
  pc : x.pc = risesTo x.time
  strobe : x.strobe = true → 2 ≤ x.time ∧ x.time % 2 = 0
  markers : ∀ n, .clock n ∈ x.log ↔ 1 ≤ n ∧ n + (if x.strobe then 1 else 0) ≤ x.pc

omit [DecidableEq S] in
theorem Ticking.keeps (h : Ticking x) (hkeeps : KeepsTime x y) : Ticking y where
  pc := by rw [hkeeps.pc, hkeeps.time, h.pc]
  strobe := by
    rw [hkeeps.strobe, hkeeps.time]
    exact h.strobe
  markers := by
    intro n
    rw [hkeeps.markers, h.markers, hkeeps.strobe, hkeeps.pc]

theorem Ticking.mark (h : Ticking x) (hstrobe : x.strobe = true) (hpos : 1 ≤ x.pc) :
    Ticking (x.mark hw) where
  pc := h.pc
  strobe := fun hs => by cases hs
  markers := by
    intro n
    have hold := h.markers n
    rw [hstrobe, if_pos rfl] at hold
    have hmem : .clock n ∈ (x.mark hw).log ↔ .clock n ∈ x.log ∨ n = x.pc := by
      simp [Sim.mark]
    rw [hmem, hold]
    simp only [Sim.mark, Bool.false_eq_true, if_false]
    omega

theorem Ticking.tick (h : Ticking x) (hstrobe : x.strobe = false) : Ticking (x.tick hw) := by
  obtain ⟨store, active, inputDue, -, -, -, heq⟩ := tick_eq hw x
  have hpc := h.pc
  have hmarkers := h.markers
  rw [hstrobe] at hmarkers
  rw [heq]
  refine ⟨?_, ?_, ?_⟩
  · dsimp only
    rw [risesTo_succ, hpc]
  · dsimp only
    intro hrise
    rw [hstrobe, Bool.or_false, risesAfter_iff] at hrise
    constructor <;> omega
  · intro n
    dsimp only
    rw [hmarkers, hstrobe, Bool.or_false]
    cases risesAfter x.time with
    | false => exact Iff.rfl
    | true => simp

theorem Ticking.step {c : Choice} (h : Ticking x) (hstep : x.step hw c = some y) : Ticking y := by
  cases c with
  | run i =>
      unfold Sim.step at hstep
      dsimp only at hstep
      split at hstep
      · obtain ⟨p, -, rfl⟩ := Option.map_eq_some_iff.mp hstep
        have hwoken : KeepsTime x { x with active := x.active.erase i } :=
          ⟨rfl, rfl, rfl, fun _ => Iff.rfl⟩
        exact h.keeps (hwoken.trans (.exec (some i) p.code _))
      · cases hstep
  | advance =>
      unfold Sim.step at hstep
      dsimp only at hstep
      split at hstep
      · obtain rfl := Option.some.inj hstep
        unfold Sim.advance
        split
        · exact h.keeps (.update x)
        · split
          · rename_i hstrobe
            have hpos : 1 ≤ x.pc := by
              have hlate := (h.strobe hstrobe).1
              rw [h.pc, risesTo, if_neg (by omega)]
              omega
            exact (h.mark hstrobe hpos).tick rfl
          · rename_i hstrobe
            exact h.tick (Bool.eq_false_of_not_eq_true hstrobe)
      · cases hstep

theorem ticking_start (active : List Nat) : Ticking (start hw active) where
  pc := rfl
  strobe := fun hs => by cases hs
  markers := by
    intro n
    constructor
    · intro hmem
      cases hmem
    · rintro ⟨hpos, hle⟩
      have hzero : n + 0 ≤ 0 := hle
      omega

/-- The markers of a log that ends with the call of `$finish`. -/
theorem clock_mem_log_iff {active : List Nat} {unroll : Nat}
    (h : Reach (Sim.step hw) (fun _ _ => True) (start hw active) x)
    (hend : x.time = finishTime unroll) (n : Nat) :
    .clock (n + 1) ∈ x.log ↔ 5 * n ≤ 6 * unroll + 3 := by
  have hticking : Ticking x :=
    h.inv (ticking_start active) fun _ _ _ ht _ hstep => ht.step hstep
  -- the clock rises at even times only
  have hstrobe : x.strobe = false := by
    by_contra hne
    have heven := (hticking.strobe (Bool.eq_true_of_not_eq_false hne)).2
    rw [hend, finishTime] at heven
    omega
  rw [hticking.markers, hticking.pc, hend, hstrobe, finishTime, risesTo]
  simp only [Bool.false_eq_true, if_false]
  split <;> omega

end Sim

/-- The log is long enough for a path of `n` clocks: it has the marker after the
last clock, and the loop of `build_stack` ends. -/
def IsLongEnough {S : Type} [DecidableEq S] (d : Design S) (log : List LogRecord) (n : Nat) :
    Prop :=
  .clock (n + 1) ∈ log ∧ ∀ x : Session S, x.simClk = n → ¬ x.Hangs d 0 (.clock 0 :: log)

/-- **The end of the simulation.** The log is long enough for every path of up to
`g_unroll` clocks that is extended by `g_step`, if and only if
`5 * g_step <= g_unroll + 3`. -/
theorem finish_exact {S : Type} [DecidableEq S] {hw : Hardware S} {active : List Nat} {x : Sim S}
    {unroll : Nat} (h : Reach (Sim.step hw) (fun _ _ => True) (Sim.start hw active) x)
    (hend : x.time = Sim.finishTime unroll) (step : Nat) :
    (∀ n ≤ unroll + step, IsLongEnough hw.design x.log n) ↔ 5 * step ≤ unroll + 3 := by
  constructor
  · intro hlong
    have hlast := (Sim.clock_mem_log_iff h hend _).mp (hlong (unroll + step) le_rfl).1
    omega
  · intro hle n hn
    have hmem : .clock (n + 1) ∈ x.log := (Sim.clock_mem_log_iff h hend n).mpr (by omega)
    refine ⟨hmem, fun y hy => ?_⟩
    subst hy
    exact Session.not_hangs_of_mem (List.mem_cons_of_mem _ hmem)

/-! ## A short simulation -/

/-- A design with a clock and a reset, and nothing else. -/
def idleDesign : Design Bool where
  decl := fun _ => { width := 1, isInput := true, indexCount := 1 }
  regList := []
  inputList := [false, true]
  assignMap := []
  isEdgeTriggered := fun _ => false
  branchNodes := []
  hashTable := fun _ => 0
  mem_regList := by decide
  mem_inputList := by decide
  id_eq := by decide
  writesReg := by decide
  isBranch := by decide

def idle : Hardware Bool where
  design := idleDesign
  clock := false
  reset := true
  resetActive := true
  processes := []
  inPorts := []
  row := fun _ _ => 0#1
  isPrinted := fun _ => true
  verilog := fun e σ => e.value idleDesign.decl σ
  clock_decl := by decide
  reset_decl := by decide
  inPorts_decl := by decide

theorem idle_run (steps unroll : Nat) (log : List LogRecord)
    (h : ((List.replicate steps Choice.advance).foldlM (Sim.step idle) (Sim.start idle [])).map
      (fun x => (x.time, x.log)) = some (Sim.finishTime unroll, log)) :
    ∃ x, Reach (Sim.step idle) (fun _ _ => True) (Sim.start idle []) x ∧
      x.time = Sim.finishTime unroll ∧ x.log = log := by
  obtain ⟨x, hx, heq⟩ := Option.map_eq_some_iff.mp h
  obtain ⟨htime, hlog⟩ := Prod.mk.inj heq
  exact ⟨x, Reach.start.run (fun _ _ _ => trivial) hx, htime, hlog⟩

/-- `g_unroll` of two and `g_step` of one. -/
theorem idle_exact :
    ∃ x : Sim Bool, x.time = Sim.finishTime 2 ∧
      ((∀ n ≤ 2 + 1, IsLongEnough idleDesign x.log n) ↔ 5 * 1 ≤ 2 + 3) := by
  obtain ⟨x, hx, htime, -⟩ := idle_run 34 2 [.clock 1, .clock 2, .clock 3, .clock 4]
    (by decide +kernel)
  exact ⟨x, htime, finish_exact hx htime 1⟩

/-- With `g_unroll` and `g_step` of one, the log of a path of two clocks ends
after the second marker. -/
theorem idle_hangs :
    ∃ x, Reach (Sim.step idle) (fun _ _ => True) (Sim.start idle []) x ∧
      x.time = Sim.finishTime 1 ∧ .clock 3 ∉ x.log ∧
      ∀ y : Session Bool, y.simClk = 2 → y.Hangs idleDesign 0 (.clock 0 :: x.log) := by
  obtain ⟨x, hx, htime, hlog⟩ := idle_run 21 1 [.clock 1, .clock 2] (by decide +kernel)
  refine ⟨x, hx, htime, by rw [hlog]; decide, fun y hy => ?_⟩
  rw [hlog]
  exact ⟨by simp, _, rfl, by simp [hy], _, rfl, by simp [hy], _, rfl, trivial⟩

end Conquest
