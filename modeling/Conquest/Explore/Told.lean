import Conquest.Explore.Settled

/-!
# Told — the log tells the run

While all statements read settled signals, Verilog's run of the log is where the
simulation is. An assignment, the record of an arm and the marker of a clock each
carry this on; in between, updates are made and time passes, which prints
nothing and changes no register but as scheduled.
-/

namespace Conquest

open Bv Run

variable {S : Type} [DecidableEq S]

namespace Sim

variable [Encodable S] (hw : Hardware S)

/-! ## Records -/

section Records

variable {hw} {T : Versions S} {x : Sim S} {a : SMTAssign S}

theorem told_append {d : Design S} {log : List LogRecord} {r : LogRecord}
    (h : AllSteps (VerilogState.step d fun n s => T s n) (Told d T) (.init d.decl)
      (.clock 0 :: log))
    (hr : Told d T (ranTo d T log) r) :
    AllSteps (VerilogState.step d fun n s => T s n) (Told d T) (.init d.decl)
      (.clock 0 :: (log ++ [r])) := by
  rw [← List.cons_append, allSteps_append]
  exact ⟨h, hr, trivial⟩

theorem ranTo_assign {d : Design S} (ha : d.getAssign a.id = some a) {isCommit : Bool}
    {lval : SMTLval S} (htarget : a.target = .assign isCommit lval) (log : List LogRecord) :
    ranTo d T (log ++ [.assign a.id]) =
      (ranTo d T log).write isCommit lval.parent
        (a.rval.value d.decl (ranTo d T log).visible) := by
  rw [ranTo_append]
  simp only [VerilogState.step, ha, VerilogState.exec, htarget]

omit [DecidableEq S] [Encodable S] in
/-- No update of the register is scheduled while none is held back. -/
theorem Waits.notMem (h : Waits x) {s : S} (hs : x.notes.held s = false) (v : Value) :
    (s, v) ∉ x.dueNow ++ x.dueNext := by
  intro hmem
  have hheld := h _ hmem
  rw [hs] at hheld
  cases hheld

theorem Follows.assign (h : Follows hw.design T x) (hwaits : Waits x)
    (ha : hw.design.getAssign a.id = some a) {isCommit : Bool} {lval : SMTLval S}
    (htarget : a.target = .assign isCommit lval) (hprint : hw.isPrinted a.id = true)
    (hreads : ReadsSettled hw a.rval x) (hno : a.NoOverlap x.notes.held) (runner : Option Nat)
    (hT : Agrees hw.design T (x.assign hw runner a)) :
    Follows hw.design T (x.assign hw runner a) := by
  obtain ⟨active, heq⟩ := assign_eq htarget hprint runner x
  have hreg : (hw.design.decl lval.parent).isInput = false := by
    simpa [SMTAssign.writesReg, htarget] using hw.design.writesReg_of_getAssign ha
  have hran := ranTo_assign (T := T) ha htarget x.log
  have hv := hreads.verilog_eq
  rw [h.visible, ← hv] at hran
  rw [heq] at hT ⊢
  generalize hw.verilog a.rval x.store = v at hT hran hv ⊢
  constructor
  · -- the value noted for the new version is the one that was read
    refine told_append h.told fun a' ha' => ?_
    obtain rfl := Option.some.inj (ha.symm.trans ha')
    simp only [SMTAssign.Told, htarget]
    rw [h.visible, ← hv]
    refine hT.written _ hreg _ v ?_
    simp [h.assigned _ hreg]
  · rw [hran]
    simp only [VerilogState.write, h.visible]
  · intro s
    rw [hran]
    cases isCommit with
    | true => exact h.pending s
    | false =>
        by_cases hs : s = lval.parent
        · subst hs
          simp [VerilogState.write]
        · simpa [VerilogState.write, hs] using h.pending s
  · intro s hin
    rw [hran]
    by_cases hs : s = lval.parent
    · subst hs
      simp [VerilogState.write, h.assigned _ hin]
    · simpa [VerilogState.write, hs] using h.assigned s hin
  · intro s hin
    have hsettles := h.settles s hin
    rw [hran]
    cases isCommit with
    | false =>
        simp only [VerilogState.write, if_neg Bool.false_ne_true]
        rw [← List.append_assoc, applyDue_append]
        by_cases hs : s = lval.parent
        · subst hs
          simp [applyDue]
        · simpa [applyDue, hs] using hsettles
    | true =>
        simp only [VerilogState.write, if_true]
        by_cases hs : s = lval.parent
        · subst hs
          -- no update is scheduled for the register, so the written value stays
          have hheld : x.notes.held lval.parent = false := by
            simpa [SMTAssign.NoOverlap, htarget] using hno
          have hidle : (ranTo hw.design T x.log).pending lval.parent = none := by
            have hpending := h.pending lval.parent
            rw [hheld] at hpending
            simpa using hpending
          rw [applyDue_of_notMem (hwaits.notMem hheld), hidle]
          simp
        · rw [applyDue_congr (Function.update_of_ne hs _ _), hsettles, Function.update_of_ne hs]

theorem Follows.showArm (h : Follows hw.design T x) (ha : hw.design.getAssign a.id = some a)
    (hshows : ShowsArm hw a x) :
    Follows hw.design T { x with log := x.log ++ [.assign a.id] } := by
  unfold ShowsArm at hshows
  cases htarget : a.target with
  | assign isCommit lval =>
      rw [htarget] at hshows
      exact hshows.elim
  | branch lval =>
      rw [htarget] at hshows
      obtain ⟨hlval, hrval, htakes⟩ := hshows
      have hran : ranTo hw.design T (x.log ++ [.assign a.id]) = ranTo hw.design T x.log := by
        rw [ranTo_append]
        simp only [VerilogState.step, ha, VerilogState.exec, htarget]
      simp only [takes, htarget] at htakes
      rw [hlval.verilog_eq, hrval.verilog_eq] at htakes
      constructor
      · refine told_append h.told fun a' ha' => ?_
        obtain rfl := Option.some.inj (ha.symm.trans ha')
        simp only [SMTAssign.Told, htarget]
        rw [h.visible]
        exact sameValue_eq htakes
      · exact hran ▸ h.visible
      · exact hran ▸ h.pending
      · exact hran ▸ h.assigned
      · exact hran ▸ h.settles

theorem Recorded.assign (h : Recorded hw x) (hwaits : Waits x)
    (ha : hw.design.getAssign a.id = some a) {isCommit : Bool} {lval : SMTLval S}
    (htarget : a.target = .assign isCommit lval) (hprint : hw.isPrinted a.id = true)
    (hreads : ReadsSettled hw a.rval x) (hno : a.NoOverlap x.notes.held)
    (runner : Option Nat) : Recorded hw (x.assign hw runner a) := by
  obtain ⟨active, heq⟩ := assign_eq htarget hprint runner x
  constructor
  · intro T hT
    refine (h.follows T ?_).assign hwaits ha htarget hprint hreads hno runner hT
    rw [heq] at hT
    constructor
    · intro s hin i v hi
      refine hT.written s hin i v ?_
      by_cases hs : s = lval.parent
      · subst hs
        obtain ⟨hlt, -⟩ := List.getElem?_eq_some_iff.mp hi
        simp only [Function.update_self]
        rw [List.getElem?_append_left hlt, hi]
      · simpa [hs] using hi
    · exact hT.marks
  · rw [heq]
    show AllSteps _ _ _ (.clock 0 :: x.log ++ [.assign a.id])
    rw [allSteps_append]
    refine ⟨h.noOverlap, fun a' ha' => ?_, trivial⟩
    obtain rfl := Option.some.inj (ha.symm.trans ha')
    rw [h.held]
    exact hno
  · rw [heq]
    show Run.exec _ _ (.clock 0 :: x.log ++ [.assign a.id]) = _
    rw [exec_append, h.held]
    simp only [Run.exec, List.foldl_cons, List.foldl_nil, waitingAfter, ha,
      SMTAssign.waitingAfter, htarget]
    cases isCommit <;> rfl

theorem Recorded.showArm (h : Recorded hw x) (ha : hw.design.getAssign a.id = some a)
    (hshows : ShowsArm hw a x) : Recorded hw { x with log := x.log ++ [.assign a.id] } := by
  have hwaiting : ∀ p, a.waitingAfter p = p ∧ a.NoOverlap p := by
    intro p
    unfold ShowsArm at hshows
    unfold SMTAssign.waitingAfter SMTAssign.NoOverlap
    cases htarget : a.target with
    | assign isCommit lval =>
        rw [htarget] at hshows
        exact hshows.elim
    | branch lval => exact ⟨rfl, trivial⟩
  constructor
  · exact fun T hT => (h.follows T ⟨hT.written, hT.marks⟩).showArm ha hshows
  · show AllSteps _ _ _ (.clock 0 :: x.log ++ [.assign a.id])
    rw [allSteps_append]
    refine ⟨h.noOverlap, fun a' ha' => ?_, trivial⟩
    obtain rfl := Option.some.inj (ha.symm.trans ha')
    exact (hwaiting _).2
  · show Run.exec _ _ (.clock 0 :: x.log ++ [.assign a.id]) = _
    rw [exec_append, h.held]
    simp only [Run.exec, List.foldl_cons, List.foldl_nil, waitingAfter, ha]
    exact (hwaiting _).1

end Records

/-! ## The code of a process -/

section Code

variable {hw} {x y : Sim S} {a : SMTAssign S}

omit [DecidableEq S] [Encodable S] in
/-- A record that is no marker keeps the pace. -/
theorem Paced.record (h : Paced x) {id : Nat} (hlog : y.log = x.log ++ [.assign id])
    (hmarks : y.notes.marks = x.notes.marks) (hpc : y.pc = x.pc) (hstrobe : y.strobe = x.strobe)
    (htime : y.time = x.time) : Paced y := by
  constructor
  · rw [hlog, allSteps_append]
    exact ⟨h.counts, fun n hn => LogRecord.noConfusion hn, trivial⟩
  · rw [hlog, hmarks, exec_append]
    exact h.clock
  · rw [hpc, hmarks, hstrobe]
    exact h.pc
  · rw [hstrobe, htime]
    exact h.strobe

omit [Encodable S] in
theorem Typed.assign (h : Typed hw x) (ha : hw.design.getAssign a.id = some a) {isCommit : Bool}
    {lval : SMTLval S} (htarget : a.target = .assign isCommit lval)
    (hprint : hw.isPrinted a.id = true) (runner : Option Nat) :
    Typed hw (x.assign hw runner a) := by
  obtain ⟨active, heq⟩ := assign_eq htarget hprint runner x
  have hreg : (hw.design.decl lval.parent).isInput = false := by
    simpa [SMTAssign.writesReg, htarget] using hw.design.writesReg_of_getAssign ha
  rw [heq]
  constructor
  · intro u hu
    cases isCommit with
    | true => exact h.due u hu
    | false =>
        have hu : u ∈ x.dueNow ++ x.dueNext ∨ u = (lval.parent, hw.verilog a.rval x.store) := by
          simpa [or_assoc] using hu
        rcases hu with hu | rfl
        · exact h.due u hu
        · exact hreg
  · intro s hs
    have hne : s ≠ lval.parent := by
      rintro rfl
      rw [hreg] at hs
      cases hs
    cases isCommit with
    | true => simpa [hne] using h.store s hs
    | false => exact h.store s hs
  · exact h.marks
  · intro s
    by_cases hs : s = lval.parent
    · subst hs
      have hzero := h.writtenZero lval.parent
      obtain ⟨hlt, -⟩ := List.getElem?_eq_some_iff.mp hzero
      simp only [Function.update_self]
      rw [List.getElem?_append_left hlt, hzero]
    · simpa [hs] using h.writtenZero s
  · exact h.marksZero

omit [Encodable S] in
theorem Waits.assign (h : Waits x) {isCommit : Bool} {lval : SMTLval S}
    (htarget : a.target = .assign isCommit lval) (hprint : hw.isPrinted a.id = true)
    (runner : Option Nat) : Waits (x.assign hw runner a) := by
  obtain ⟨active, heq⟩ := assign_eq htarget hprint runner x
  rw [heq]
  intro u hu
  cases isCommit with
  | true => exact h u hu
  | false =>
      have hu : u ∈ x.dueNow ++ x.dueNext ∨ u = (lval.parent, hw.verilog a.rval x.store) := by
        simpa [or_assoc] using hu
      by_cases hs : u.1 = lval.parent
      · simp [hs]
      · rcases hu with hu | rfl
        · simpa [hs] using h u hu
        · exact absurd rfl hs

theorem Running.assign (h : Running hw x) {id : Nat} (ha : hw.design.getAssign id = some a)
    (hprint : hw.isPrinted id = true) (hreads : ReadsSettled hw a.rval x)
    (hno : a.NoOverlap x.notes.held) (runner : Option Nat) :
    Running hw (x.assign hw runner a) := by
  obtain rfl := hw.design.getAssign_id ha
  cases htarget : a.target with
  | branch lval =>
      simp only [Sim.assign, htarget]
      exact h
  | assign isCommit lval =>
      have hpaced : Paced (x.assign hw runner a) := by
        obtain ⟨active, heq⟩ := assign_eq htarget hprint runner x
        rw [heq]
        exact h.paced.record rfl rfl rfl rfl rfl
      exact ⟨⟨h.recorded.assign h.waits ha htarget hprint hreads hno runner, hpaced,
        h.typed.assign ha htarget hprint runner⟩, h.waits.assign htarget hprint runner⟩

theorem Running.display (h : Running hw x) {id : Nat}
    (hmeets : CodeMeets hw none (.display id) x) : Running hw (x.print hw id) := by
  unfold print
  split
  · rename_i hprint
    obtain ⟨a, ha, hshows⟩ := hmeets hprint
    obtain rfl := hw.design.getAssign_id ha
    exact ⟨⟨h.recorded.showArm ha hshows, h.paced.record rfl rfl rfl rfl rfl,
      ⟨h.typed.due, h.typed.store, h.typed.marks, h.typed.writtenZero, h.typed.marksZero⟩⟩,
      h.waits⟩
  · exact h

/-- A process that meets the condition keeps what holds while it runs. -/
theorem Running.exec {runner : Option Nat} {c : Code} (h : Running hw x)
    (hmeets : CodeMeets hw runner c x) : Running hw (exec hw runner c x) := by
  induction c generalizing x with
  | skip => exact h
  | assign id =>
      unfold Sim.exec
      cases ha : hw.design.getAssign id with
      | none => exact h
      | some a =>
          obtain ⟨hprint, hreads, hno⟩ := hmeets a ha
          exact h.assign ha hprint hreads hno runner
  | display id => exact h.display hmeets
  | seq c c' ih ih' => exact ih' (ih h hmeets.1) hmeets.2
  | arm id body rest ih ih' =>
      unfold Sim.exec
      cases ha : hw.design.getAssign id with
      | none => exact h
      | some a =>
          have hbranch := hmeets a ha
          dsimp only
          split at hbranch
          · rename_i htakes
            rw [if_pos htakes]
            exact ih h hbranch
          · rename_i htakes
            rw [if_neg htakes]
            exact ih' h hbranch

end Code

/-! ## The passing of time -/

section Time

variable {hw} {x y : Sim S}

/-- A step without records, after which the scheduled updates lead to the same
values. -/
theorem Recorded.congr (h : Recorded hw x) (hlog : y.log = x.log) (hnotes : y.notes = x.notes)
    (hsettles : ∀ s, (hw.design.decl s).isInput = false →
      applyDue (y.dueNow ++ y.dueNext) y.store s = applyDue (x.dueNow ++ x.dueNext) x.store s) :
    Recorded hw y := by
  constructor
  · intro T hT
    obtain ⟨told, visible, pending, assigned, settles⟩ := h.follows T
      ⟨hnotes ▸ hT.written, hnotes ▸ hT.marks⟩
    refine ⟨hlog ▸ told, ?_, ?_, ?_, ?_⟩
    · rw [hlog, hnotes, visible]
    · rw [hlog, hnotes]
      exact pending
    · rw [hlog, hnotes]
      exact assigned
    · intro s hs
      rw [hsettles s hs, hlog, hnotes]
      exact settles s hs
  · exact hlog ▸ h.noOverlap
  · rw [hlog, hnotes]
    exact h.held

omit [Encodable S] in
/-- The updates of a time step: assignments, then the inputs. -/
theorem update_eq (hw : Hardware S) (x : Sim S) :
    ∃ inputs inputDue active,
      (∀ u ∈ inputs, (hw.design.decl u.1).isInput = true ∧
        IsOf (hw.design.decl u.1).bvType u.2) ∧
      x.update hw =
        { x with
          store := applyDue (x.dueNow ++ inputs) x.store
          dueNow := []
          inputDue := inputDue
          active := active } := by
  unfold update
  dsimp only
  refine ⟨_, _, _, ?_, (foldl_write_eq hw _ _).choose_spec⟩
  intro u hu
  split at hu
  · split at hu
    · obtain ⟨s, hs, rfl⟩ := List.mem_map.mp hu
      exact ⟨hw.inPorts_decl s hs, _, rfl⟩
    · cases hu
  · cases hu

/-- The updates of a time step, in a state between two steps. -/
theorem Inv.update (h : Inv hw x) : Inv hw (x.update hw) := by
  obtain ⟨inputs, inputDue, active, hinputs, heq⟩ := update_eq hw x
  rw [heq]
  refine ⟨⟨h.recorded.congr rfl rfl ?_,
    ⟨h.paced.counts, h.paced.clock, h.paced.pc, h.paced.strobe⟩,
    ⟨?_, ?_, h.typed.marks, h.typed.writtenZero, h.typed.marksZero⟩⟩, ?_⟩
  · intro s hs
    have hnone : ∀ v, (s, v) ∉ inputs := by
      intro v hv
      have hin := (hinputs _ hv).1
      rw [hs] at hin
      cases hin
    rw [applyDue_append x.dueNow x.dueNext]
    refine applyDue_congr ?_
    show applyDue (x.dueNow ++ inputs) x.store s = applyDue x.dueNow x.store s
    rw [applyDue_append, applyDue_of_notMem hnone]
  · exact fun u hu => h.typed.due u (List.mem_append_right _ hu)
  · intro s hs
    refine applyDue_ind (h.typed.store s hs) fun v hv => ?_
    rcases List.mem_append.mp hv with hv | hv
    · have hin := h.typed.due _ (List.mem_append_left _ hv)
      rw [hs] at hin
      cases hin
    · exact (hinputs _ hv).2
  · refine .inr fun u hu => ?_
    rcases h.waits with ⟨-, hnext⟩ | hwaits
    · rw [hnext] at hu
      cases hu
    · exact hwaits u (List.mem_append_right _ hu)

omit [Encodable S] in
/-- The inputs that the testbench has read from a row do not concern registers. -/
theorem settle_reg (x : Sim S) {s : S} (hs : (hw.design.decl s).isInput = false) :
    x.settle hw s = applyDue (x.dueNow ++ x.dueNext) x.store s := by
  unfold settle
  cases x.inputDue with
  | none => rfl
  | some due =>
      refine if_neg fun hmem => ?_
      rw [hw.inPorts_decl s hmem] at hs
      cases hs

omit [Encodable S] in
theorem Typed.settle (h : Typed hw x) {s : S} (hs : (hw.design.decl s).isInput = true) :
    IsOf (hw.design.decl s).bvType (x.settle hw s) := by
  have hstore : IsOf (hw.design.decl s).bvType (applyDue (x.dueNow ++ x.dueNext) x.store s) := by
    refine applyDue_ind (h.store s hs) fun v hv => ?_
    have hin := h.due _ hv
    rw [hs] at hin
    cases hin
  unfold Sim.settle
  cases x.inputDue with
  | none => exact hstore
  | some due =>
      dsimp only
      split
      · exact ⟨_, rfl⟩
      · exact hstore

/-- The versions are those of Verilog's next clock. -/
theorem Recorded.mark (h : Recorded hw x) (hpc : x.pc = x.notes.marks.length) :
    Recorded hw (x.mark hw) := by
  constructor
  · intro T hT
    have hfollows : Follows hw.design T x := by
      refine h.follows T ⟨hT.written, fun s hs n σ hn => hT.marks s hs n σ ?_⟩
      obtain ⟨hlt, -⟩ := List.getElem?_eq_some_iff.mp hn
      exact (List.getElem?_append_left hlt).trans hn
    have hran : ranTo hw.design T (x.log ++ [.clock x.pc]) =
        (ranTo hw.design T x.log).tick hw.design.decl fun s => T s x.pc := ranTo_append _ _ _ _
    have hreg : ∀ s, (hw.design.decl s).isInput = false → x.settle hw s =
        ((ranTo hw.design T x.log).pending s).getD ((ranTo hw.design T x.log).visible s) := by
      intro s hs
      rw [settle_reg x hs, hfollows.settles s hs, hfollows.visible]
    constructor
    · exact told_append hfollows.told trivial
    · refine (congrArg VerilogState.visible hran).trans (funext fun s => ?_)
      show _ = x.settle hw s
      cases hs : (hw.design.decl s).isInput with
      | true =>
          have hmark := hT.marks s hs x.pc (x.settle hw) (by simp [Sim.mark, hpc])
          simpa [VerilogState.tick, hs] using hmark
      | false => simpa [VerilogState.tick, hs] using (hreg s hs).symm
    · exact fun s => congrArg (fun vs => (vs.pending s).isSome) hran
    · intro s hs
      exact (congrArg (fun vs => vs.assigned s + 1) hran).trans (hfollows.assigned s hs)
    · intro s hs
      refine Eq.trans ?_ (congrArg (fun vs => (vs.pending s).getD (x.settle hw s)) hran).symm
      exact (settle_reg x hs).symm
  · show AllSteps _ _ _ (.clock 0 :: x.log ++ [.clock x.pc])
    rw [allSteps_append]
    exact ⟨h.noOverlap, trivial, trivial⟩
  · show Run.exec _ _ (.clock 0 :: x.log ++ [.clock x.pc]) = _
    rw [exec_append]
    rfl

omit [Encodable S] in
theorem Paced.mark (h : Paced x) (hstrobe : x.strobe = true) : Paced (x.mark hw) := by
  have hpc := h.pc
  have hclock := h.clock
  rw [hstrobe, if_pos rfl] at hpc
  constructor
  · show AllSteps _ _ _ (x.log ++ [.clock x.pc])
    rw [allSteps_append]
    refine ⟨h.counts, fun n hn => ?_, trivial⟩
    cases hn
    omega
  · show Run.exec _ _ (x.log ++ [.clock x.pc]) + 1 = (x.notes.marks ++ [_]).length
    rw [exec_append, List.length_append, List.length_singleton]
    show x.pc + 1 = _
    omega
  · show x.pc + 1 = (x.notes.marks ++ [_]).length + 0
    rw [List.length_append, List.length_singleton]
    omega
  · exact fun hstrobe => Bool.noConfusion hstrobe

omit [Encodable S] in
theorem Typed.mark (h : Typed hw x) : Typed hw (x.mark hw) := by
  refine ⟨h.due, h.store, ?_, h.writtenZero, ?_⟩
  · intro σ hσ s hs
    rcases List.mem_append.mp hσ with hσ | hσ
    · exact h.marks σ hσ s hs
    · obtain rfl := List.mem_singleton.mp hσ
      exact h.settle hs
  · obtain ⟨hlt, -⟩ := List.getElem?_eq_some_iff.mp h.marksZero
    exact (List.getElem?_append_left hlt).trans h.marksZero

omit [Encodable S] in
/-- A signal that takes a value unless `p` holds. -/
theorem drive_eq (hw : Hardware S) (p : Prop) [Decidable p] (s : S) (v : Value) (y : Sim S) :
    ∃ store active, (if p then y else y.write hw none s v) =
        { y with store := store, active := active } ∧
      (∀ s', store s' = y.store s' ∨ s' = s ∧ store s' = v) ∧ (p → active = y.active) := by
  by_cases hp : p
  · exact ⟨y.store, y.active, if_pos hp, fun _ => .inl rfl, fun _ => rfl⟩
  · obtain ⟨active, heq⟩ := write_eq hw none s v y
    refine ⟨_, active, (if_neg hp).trans heq, fun s' => ?_, fun h => absurd h hp⟩
    by_cases hs : s' = s
    · exact .inr ⟨hs, by rw [hs, Function.update_self]⟩
    · exact .inl (Function.update_of_ne hs _ _)

/-- The clock and the reset stay in the next time step. -/
def Quiet (hw : Hardware S) (t : Nat) : Prop :=
  clockAt (t + 1) = clockAt t ∧ resetAt hw.resetActive (t + 1) = resetAt hw.resetActive t

theorem Sound.mark (h : Sound hw x) (hstrobe : x.strobe = true) : Sound hw (x.mark hw) := by
  have hpc := h.paced.pc
  rw [hstrobe, if_pos rfl] at hpc
  exact ⟨h.recorded.mark (by omega), h.paced.mark hstrobe, h.typed.mark⟩

omit [DecidableEq S] [Encodable S] in
/-- Nothing changes in the time step after a rise. -/
theorem quiet_of_rise {t : Nat} (h : risesAfter t = true) :
    Quiet hw (t + 1) := by
  have htime := risesAfter_iff.mp h
  have hclock : clockAt (t + 1 + 1) = clockAt (t + 1) := by
    unfold clockAt
    grind
  refine ⟨hclock, ?_⟩
  have hiff : (2 ≤ t + 1 + 1 ∧ t + 1 + 1 < 7) ↔ (2 ≤ t + 1 ∧ t + 1 < 7) := by omega
  simp only [resetAt, hiff]

omit [Encodable S] in
theorem tick_eq (hw : Hardware S) (x : Sim S) :
    ∃ store active inputDue,
      (∀ s, (hw.design.decl s).isInput = false → store s = x.store s) ∧
      (∀ s, IsOf (hw.design.decl s).bvType (x.store s) →
        IsOf (hw.design.decl s).bvType (store s)) ∧
      (Quiet hw x.time → active = x.active) ∧
      x.tick hw =
        { x with
          time := x.time + 1
          store := store
          dueNow := x.dueNext
          dueNext := []
          inputDue := inputDue
          active := active
          pc := if risesAfter x.time then x.pc + 1 else x.pc
          strobe := risesAfter x.time || x.strobe } := by
  -- the clock is driven first and the reset in the state after it
  obtain ⟨store, active, hclock, hstore, hactive⟩ := drive_eq hw
    (clockAt (x.time + 1) = clockAt x.time) hw.clock (bit (clockAt (x.time + 1)))
    { x with time := x.time + 1, dueNow := x.dueNext, dueNext := [] }
  obtain ⟨store', active', hreset, hstore', hactive'⟩ := drive_eq hw
    (resetAt hw.resetActive (x.time + 1) = resetAt hw.resetActive x.time) hw.reset
    (bit (resetAt hw.resetActive (x.time + 1)))
    { x with time := x.time + 1, dueNow := x.dueNext, dueNext := [], store := store,
             active := active }
  dsimp only at hclock hstore hactive hreset hstore' hactive'
  obtain ⟨hclockIn, hclockTy⟩ := hw.clock_decl
  obtain ⟨hresetIn, hresetTy⟩ := hw.reset_decl
  refine ⟨store', active', if risesAfter x.time then some (x.time + 1 + 5, x.pc) else x.inputDue,
    ?_, ?_, ?_, ?_⟩
  · intro s hs
    have hne : s ≠ hw.clock ∧ s ≠ hw.reset := by
      constructor <;> rintro rfl <;> simp_all
    rcases hstore' s with h' | ⟨h', -⟩
    · rcases hstore s with h | ⟨h, -⟩
      · exact h'.trans h
      · exact absurd h hne.1
    · exact absurd h' hne.2
  · intro s hs
    rcases hstore' s with h' | ⟨rfl, h'⟩
    · rw [h']
      rcases hstore s with h | ⟨rfl, h⟩
      · exact h.symm ▸ hs
      · rw [h, hclockTy]
        exact ⟨_, rfl⟩
    · rw [h', hresetTy]
      exact ⟨_, rfl⟩
  · exact fun hquiet => (hactive' hquiet.2).trans (hactive hquiet.1)
  · unfold tick
    dsimp only
    rw [hclock, hreset]
    cases risesAfter x.time <;> rfl

theorem Sound.tick (h : Sound hw x) (hstrobe : x.strobe = false) (hdue : x.dueNow = [])
    (hquiet : Waits x ∨ x.active = [] ∧ Quiet hw x.time) : Inv hw (x.tick hw) := by
  obtain ⟨store, active, inputDue, hreg, htyped, hactive, heq⟩ := tick_eq hw x
  have hpc := h.paced.pc
  rw [hstrobe, if_neg Bool.false_ne_true] at hpc
  rw [heq]
  refine ⟨⟨h.recorded.congr rfl rfl ?_, ⟨h.paced.counts, h.paced.clock, ?_, ?_⟩,
    ⟨?_, fun s hs => htyped s (h.typed.store s hs), h.typed.marks, h.typed.writtenZero,
      h.typed.marksZero⟩⟩, ?_⟩
  · intro s hs
    show applyDue (x.dueNext ++ []) store s = applyDue (x.dueNow ++ x.dueNext) x.store s
    rw [hdue, List.append_nil, List.nil_append]
    exact applyDue_congr (hreg s hs)
  · show (if risesAfter x.time then x.pc + 1 else x.pc) + 1 = x.notes.marks.length + _
    rw [hstrobe]
    cases risesAfter x.time with
    | true => exact congrArg (· + 1) hpc
    | false => exact hpc
  · intro hrise
    rw [hstrobe, Bool.or_false] at hrise
    exact ⟨x.time, rfl, hrise⟩
  · intro u hu
    rw [List.append_nil] at hu
    exact h.typed.due u (List.mem_append_right _ hu)
  · rcases hquiet with hwaits | ⟨hidle, hquiet⟩
    · refine .inr fun u hu => hwaits u (List.mem_append_right _ ?_)
      simpa using hu
    · exact .inl ⟨(hactive hquiet).trans hidle, rfl⟩

/-- The end of a time step, and what the next one starts with. -/
theorem Inv.advance (h : Inv hw x) (hidle : x.active = []) : Inv hw (x.advance hw) := by
  unfold Sim.advance
  split
  · exact h.update
  · rename_i hdue
    have hnow : x.dueNow = [] := by
      simpa using (Bool.or_eq_false_iff.mp (Bool.eq_false_iff.mpr hdue)).1
    split
    · rename_i hstrobe
      obtain ⟨t, htime, hrise⟩ := h.paced.strobe hstrobe
      -- The marker forgets what is held back, and no process wakes up before the updates.
      refine (h.mark hstrobe).tick rfl hnow (.inr ⟨hidle, ?_⟩)
      show Quiet hw x.time
      rw [htime]
      exact quiet_of_rise hrise
    · rename_i hstrobe
      refine h.toSound.tick (Bool.eq_false_iff.mpr hstrobe) hnow ?_
      rcases h.waits with ⟨-, hnext⟩ | hwaits
      · refine .inl fun u hu => ?_
        rw [hnow, hnext] at hu
        cases hu
      · exact .inl hwaits

theorem Inv.step {c : Choice} (h : Inv hw x) (hmeets : x.Meets hw c)
    (hy : x.step hw c = some y) : Inv hw y := by
  cases c with
  | run i =>
      obtain ⟨hi, hy⟩ := Option.ite_none_right_eq_some.mp hy
      obtain ⟨p, hp, rfl⟩ := Option.map_eq_some_iff.mp hy
      have hwaits : Waits x := by
        rcases h.waits with ⟨hidle, -⟩ | hwaits
        · rw [hidle] at hi
          cases hi
        · exact hwaits
      have hstart : Running hw { x with active := x.active.erase i } :=
        ⟨⟨h.recorded.congr rfl rfl fun _ _ => rfl,
          ⟨h.paced.counts, h.paced.clock, h.paced.pc, h.paced.strobe⟩,
          ⟨h.typed.due, h.typed.store, h.typed.marks, h.typed.writtenZero, h.typed.marksZero⟩⟩,
          hwaits⟩
      have hend := hstart.exec (hmeets p hp)
      exact ⟨hend.toSound, .inr hend.waits⟩
  | advance =>
      obtain ⟨hidle, hy⟩ := Option.ite_none_right_eq_some.mp hy
      obtain rfl := Option.some.inj hy
      exact h.advance hidle

omit [Encodable S] in
theorem start_store (active : List Nat) (s : S) :
    (start hw active).store s =
      if s = hw.reset then bit (!hw.resetActive)
      else if s = hw.clock then bit false
      else (hw.design.decl s).zeroValue := by
  simp only [start, Function.update_apply]

theorem inv_start (active : List Nat) : Inv hw (start hw active) where
  recorded := by
    constructor
    · intro T hT
      have hzero : (ranTo hw.design T []).visible = fun s => (hw.design.decl s).zeroValue := by
        funext s
        show (if (hw.design.decl s).isInput then T s 0 else (hw.design.decl s).zeroValue) = _
        split
        · rename_i hs
          exact hT.marks s hs 0 _ rfl
        · rfl
      refine ⟨⟨trivial, trivial⟩, hzero, fun s => rfl, fun s _ => rfl, fun s hs => ?_⟩
      show (start hw active).store s = _
      rw [start_store, if_neg, if_neg]
      · rfl
      · rintro rfl
        rw [hw.clock_decl.1] at hs
        cases hs
      · rintro rfl
        rw [hw.reset_decl.1] at hs
        cases hs
    · exact ⟨trivial, trivial⟩
    · rfl
  paced := ⟨trivial, rfl, rfl, fun h => Bool.noConfusion h⟩
  typed := by
    refine ⟨fun u hu => absurd hu List.not_mem_nil, fun s _ => ?_, fun σ hσ s _ => ?_,
      fun s => rfl, rfl⟩
    · rw [start_store]
      split
      · rename_i hreset
        rw [hreset, hw.reset_decl.2]
        exact ⟨_, rfl⟩
      · split
        · rename_i hclock
          rw [hclock, hw.clock_decl.2]
          exact ⟨_, rfl⟩
        · exact ⟨_, rfl⟩
    · obtain rfl := List.mem_singleton.mp hσ
      exact ⟨_, rfl⟩
  waits := .inr fun u hu => absurd hu List.not_mem_nil

/-- **The log tells the run.** Over every run whose steps meet the condition. -/
theorem inv_reach {active : List Nat}
    (h : Reach (Sim.step hw) (Meets hw) (start hw active) x) : Inv hw x :=
  h.inv (inv_start active) fun _ _ _ hinv hmeets hstep => hinv.step hmeets hstep

end Time

end Sim

end Conquest
