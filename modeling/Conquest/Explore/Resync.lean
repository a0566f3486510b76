import Conquest.Explore.SimLog

/-!
# Resync — what the scan of a log puts on the stack

Where a conversion fails, the scan reads the rest of the value as a tag, and it
is in step again with the next line: the stack gets the markers and the records
of the log. A number in other text is taken away by `%u`, so that a tag behind it
is read as one.
-/

namespace Conquest

open Text Scanf

/-! ## The markers and records of a log -/

/-- What the lines before the first marker of `stop` put on the stack, each record
with the clock of the last marker. -/
def pushes (stop : BitVec 32) : BitVec 32 → List LogLine → List Call
  | _, [] => []
  | _, .clock _ n :: log => if n = stop then [] else .createClock n :: pushes stop n log
  | clock, .assign id :: log => .createConstraint clock id :: pushes stop clock log
  | clock, _ :: log => pushes stop clock log

/-- A call that pushes to `constraints_stack`. -/
def Call.isPush : Call → Bool
  | .addState _ _ _ => false
  | _ => true

/-- A log with the marker after the last simulated clock. -/
def Stops (simClk : BitVec 32) (log : List LogLine) : Prop :=
  ∃ blanks, LogLine.clock blanks (simClk + 1) ∈ log

/-- Whatever `tag` and `val` hold at first, the scan ends, and the stack gets the
markers and records of the file, whose first line is that of `write_first_clock`. -/
def ScansExactly (simClk : BitVec 32) (log : List LogLine) : Prop :=
  ∀ tag val, ∃ n, ∀ m ≥ n,
    (scanLog simClk tag val (logText log) m).ended = true ∧
      (scanLog simClk tag val (logText log) m).calls.filter Call.isPush =
        pushes (simClk + 1) 0 (.clock 9 0 :: log)

section Pushes

variable {simClk : BitVec 32}

theorem pushes_cons {l : LogLine} (h : l.isStop simClk = false) (clock : BitVec 32)
    (log : List LogLine) :
    pushes (simClk + 1) clock (l :: log) =
      (l.calls clock).filter Call.isPush ++ pushes (simClk + 1) (l.clockAfter clock) log := by
  cases l with
  | clock blanks n => exact if_neg (of_decide_eq_false h)
  | input v => rfl
  | assign id => rfl
  | state stateName v =>
      rw [LogLine.calls]
      split <;> rfl
  | other t => rfl

theorem pushes_stop {l : LogLine} (h : l.isStop simClk = true) (clock : BitVec 32)
    (log : List LogLine) : pushes (simClk + 1) clock (l :: log) = [] := by
  cases l with
  | clock blanks n => exact if_pos (of_decide_eq_true h)
  | input v => cases h
  | assign id => cases h
  | state stateName v => cases h
  | other t => cases h

theorem Stops.cons {log : List LogLine} (h : Stops simClk log) (l : LogLine) :
    Stops simClk (l :: log) := by
  obtain ⟨blanks, hmem⟩ := h
  exact ⟨blanks, List.mem_cons_of_mem l hmem⟩

theorem Stops.tail {l : LogLine} {log : List LogLine} (h : Stops simClk (l :: log))
    (hl : l.isStop simClk = false) : Stops simClk log := by
  obtain ⟨blanks, hmem⟩ := h
  refine ⟨blanks, (List.mem_cons.mp hmem).resolve_left ?_⟩
  rintro rfl
  simp [LogLine.isStop] at hl

/-- The trace of a log with the last marker ends, with the pushes of the log. -/
theorem itemTrace_pushes {log : List LogLine} (h : Stops simClk log) (taken : Bool)
    (clock : BitVec 32) :
    (itemTrace simClk taken clock (log.flatMap LogLine.items)).ended = true ∧
      (itemTrace simClk taken clock (log.flatMap LogLine.items)).calls.filter Call.isPush =
        pushes (simClk + 1) clock log := by
  induction log generalizing taken clock with
  | nil =>
      obtain ⟨blanks, hmem⟩ := h
      cases hmem
  | cons l log ih =>
      rw [List.flatMap_cons]
      cases hl : l.isStop simClk with
      | true =>
          rw [itemTrace_stop hl, pushes_stop hl]
          exact ⟨rfl, rfl⟩
      | false =>
          obtain ⟨taken', htrace⟩ := itemTrace_line hl taken clock (log.flatMap LogLine.items)
          obtain ⟨hended, hcalls⟩ := ih (h.tail hl) taken' (l.clockAfter clock)
          rw [htrace, pushes_cons hl, ← hcalls, ← List.filter_append]
          exact ⟨hended, rfl⟩

end Pushes

/-- **The scan falls back into step.** Unless other text has a tag behind a number,
the stack gets exactly the markers and records before the last marker. -/
theorem scansExactly_of_harmless {simClk : BitVec 32} {log : List LogLine}
    (h : ∀ t, .other t ∈ log → t.Harmless) (hstop : Stops simClk log) :
    ScansExactly simClk log := by
  intro tag val
  have hfile : Stops simClk (.clock 9 0 :: log) := hstop.cons _
  obtain ⟨hended, hcalls⟩ := itemTrace_pushes hfile false 0
  obtain ⟨n, hn⟩ := scanLog_logTrace h simClk tag val
  refine ⟨n, ?_⟩
  intro m hm
  obtain ⟨-, hscan⟩ := hn m hm
  rw [hscan hended]
  exact ⟨hended, hcalls⟩

section Example

/-- Text with the number 12 in front of a tag. -/
def numberedTag : OtherText where
  chars := ['f', 'o', 'o', ' ', '1', '2', ';', 'A', ' ', '5']
  no_nul := by decide
  not_tag := by decide +kernel

/-- `%u` takes the number, and the stack gets a record of assignment 5. -/
theorem scansExactly_counterexample :
    ¬ ∀ (simClk : BitVec 32) (log : List LogLine), Stops simClk log → ScansExactly simClk log := by
  intro h
  obtain ⟨n, hn⟩ := h 0 [.other numberedTag, .clock 9 1] ⟨9, by simp⟩ [] 0
  obtain ⟨-, hcalls⟩ := hn (5 + n) (by omega)
  have hended : (scanLog 0 [] 0 (logText [.other numberedTag, .clock 9 1]) 5).ended = true := by
    decide +kernel
  rw [scanLog, scanRounds_of_ended _ _ hended] at hcalls
  revert hcalls
  decide +kernel

/-- Text of the simulator, with a number among its words. -/
def vvpText : OtherText where
  chars := ['V', 'V', 'P', ':', ' ', 'a', 't', ' ', '1', '2', '7', ' ', '(', '1', 's', ')']
  no_nul := by decide
  not_tag := by decide +kernel

theorem scansExactly_witness :
    ScansExactly 0
      [.other vvpText, .assign 11,
        .state ⟨['c', 'n', 't'], by decide, by decide, by decide⟩ ⟨[.one, .x, .z], by decide⟩,
        .input ⟨[.x, .zero], by decide⟩, .clock 9 1, .assign 5] := by
  refine scansExactly_of_harmless ?_ ⟨9, by simp⟩
  intro t ht
  have hvvp : vvpText.Harmless := by
    unfold OtherText.Harmless
    decide +kernel
  simp only [List.mem_cons, LogLine.other.injEq, reduceCtorEq, List.not_mem_nil, or_false] at ht
  exact ht ▸ hvvp

end Example

/-! ## The session that the calls make -/

/-- The record of a line that has one. -/
def LogLine.record? : LogLine → Option LogRecord
  | .clock _ n => some (.clock n.toNat)
  | .assign id => some (.assign id.toNat)
  | .state stateName v =>
      some (.state (String.ofList stateName.chars) ((number v.chars).getD 0))
  | _ => none

section Session

variable {S : Type} [DecidableEq S] (d : Design S)

/-- What a call does to the session, which the map of states is no part of. -/
def Session.call (x : Session S) : Call → Option (Session S)
  | .createClock n => x.read d 0 (.clock n.toNat)
  | .createConstraint clock id => x.read d clock.toNat (.assign id.toNat)
  | .addState _ _ _ => some x

variable {d} {simClk : BitVec 32}

theorem Session.simClk_of_read {clock : Nat} {x y : Session S} {r : LogRecord}
    (h : x.read d clock r = some y) : y.simClk = x.simClk := by
  obtain ⟨_, -, hclk, -⟩ := pushes_of_read h
  exact hclk

theorem Session.scan_cons {x : Session S} {r : LogRecord} (hr : r ≠ .clock (x.simClk + 1))
    (clock : Nat) (log : List LogRecord) :
    x.scan d clock (r :: log) =
      (x.read d clock r).bind fun x => x.scan d (r.clockAfter clock) log := if_neg hr

/-- The calls of a trace are the scan of the records. -/
theorem foldlM_itemTrace (hclk : simClk.toNat + 1 < 2 ^ 32) {log : List LogLine}
    (hstop : Stops simClk log) (taken : Bool) (clock : BitVec 32) {x : Session S}
    (hx : x.simClk = simClk.toNat) :
    (itemTrace simClk taken clock (log.flatMap LogLine.items)).calls.foldlM (Session.call d) x =
      x.scan d clock.toNat (log.filterMap LogLine.record?) := by
  have hmarker (n : BitVec 32) : n = simClk + 1 ↔ n.toNat = x.simClk + 1 := by
    have hsucc : (simClk + 1).toNat = simClk.toNat + 1 := by
      rw [BitVec.toNat_add]
      exact Nat.mod_eq_of_lt hclk
    rw [hx, ← hsucc, BitVec.toNat_inj]
  induction log generalizing taken clock x with
  | nil =>
      obtain ⟨blanks, hmem⟩ := hstop
      cases hmem
  | cons l log ih =>
      rw [List.flatMap_cons]
      cases hl : l.isStop simClk with
      | true =>
          -- the marker of the next clock is the only line that ends both scans
          rw [itemTrace_stop hl]
          cases l with
          | clock blanks n =>
              have hn := (hmarker n).mp (of_decide_eq_true hl)
              exact (if_pos (congrArg LogRecord.clock hn)).symm
          | input v => cases hl
          | assign id => cases hl
          | state stateName v => cases hl
          | other t => cases hl
      | false =>
          obtain ⟨taken', htrace⟩ := itemTrace_line hl taken clock (log.flatMap LogLine.items)
          -- no call moves the clock of the session
          have hrest := fun clock (y : Session S) (hy : y.simClk = x.simClk) =>
            ih (hstop.tail hl) taken' clock (hy.trans hx) (by rw [hy]; exact hmarker)
          rw [htrace, Trace.cons]
          cases l with
          | clock blanks n =>
              have hn : n.toNat ≠ x.simClk + 1 := fun h => of_decide_eq_false hl ((hmarker n).mpr h)
              have hr : LogRecord.clock n.toNat ≠ .clock (x.simClk + 1) :=
                fun h => hn (LogRecord.clock.inj h)
              rw [List.filterMap_cons_some (by rfl), Session.scan_cons hr]
              exact hrest n _ rfl
          | input v => exact hrest clock x rfl
          | assign id =>
              rw [List.filterMap_cons_some (by rfl), Session.scan_cons (by simp)]
              show ((x.read d clock.toNat (.assign id.toNat)).bind _) = _
              refine Option.bind_congr ?_
              intro y hy
              exact hrest clock y (Session.simClk_of_read hy)
          | state stateName v =>
              rw [List.filterMap_cons_some (by rfl), Session.scan_cons (by simp), LogLine.calls]
              split
              · exact hrest clock x rfl
              · exact hrest clock x rfl
          | other t => exact hrest clock x rfl

/-- **Text and records.** The calls that the scan of the text makes take a session
where the scan of the records takes it. -/
theorem scan_records {log : List LogLine} (h : ∀ t, .other t ∈ log → t.Harmless)
    (hstop : Stops simClk log) (hclk : simClk.toNat + 1 < 2 ^ 32) {x : Session S}
    (hx : x.simClk = simClk.toNat) (tag : Line) (val : BitVec 32) :
    ∃ n, ∀ m ≥ n,
      (scanLog simClk tag val (logText log) m).calls.foldlM (Session.call d) x =
        x.scan d 0 (.clock 0 :: log.filterMap LogLine.record?) := by
  have hfile : Stops simClk (.clock 9 0 :: log) := hstop.cons _
  obtain ⟨n, hn⟩ := scanLog_logTrace h simClk tag val
  refine ⟨n, ?_⟩
  intro m hm
  obtain ⟨-, hscan⟩ := hn m hm
  rw [hscan (itemTrace_pushes hfile false 0).1]
  exact foldlM_itemTrace hclk hfile false 0 hx

end Session

end Conquest
