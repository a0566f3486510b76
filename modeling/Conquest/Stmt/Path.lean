import Conquest.Lib.Run
import Conquest.Stmt.Executed

/-!
# Path — what the records of a run say about it

The records of a process name the arms that a run has entered. Where every arm's
condition says that just this arm is entered, and every case statement enters
one, the conditions of the recorded arms hold of the runs with these records
only.
-/

namespace Conquest

open Run

variable {A B σ : Type}

/-- The store after an entry has been passed. -/
def Dynamics.pass (d : Dynamics A B σ) (s : σ) : Registered A B → σ
  | .assign isCommit a => d.assign isCommit a s
  | .branch _ => s

/-- The condition of a recorded arm. -/
def Observes (observes : B → σ → Prop) (s : σ) : Registered A B → Prop
  | .assign _ _ => True
  | .branch b => observes b s

namespace IvlStatement

/-- No event control. -/
def Unwaited {k : IvlKind} : IvlStatement A B k → Prop
  | block body => body.Unwaited
  | condit _ _ trueStmt falseStmt => trueStmt.Unwaited ∧ falseStmt.Unwaited
  | case arms => arms.Unwaited
  | caseDefault before _ stmt after => before.Unwaited ∧ stmt.Unwaited ∧ after.Unwaited
  | delay stmt => stmt.Unwaited
  | wait _ => False
  | cons stmt rest => stmt.Unwaited ∧ rest.Unwaited
  | arm _ stmt rest => stmt.Unwaited ∧ rest.Unwaited
  | _ => True

/-- The condition of an arm says that this arm is entered: that its test is the
first one that succeeds, where `earlier` tells if an item before does. A case
statement without a default has an item for every store. -/
def Sharp (d : Dynamics A B σ) (observes : B → σ → Prop) {k : IvlKind} :
    IvlStatement A B k → (σ → Bool) → Prop
  | block body, _ => body.Sharp d observes fun _ => false
  | condit trueArm falseArm trueStmt falseStmt, _ =>
      (∀ s, observes trueArm s → d.holds trueArm s = true) ∧
        (∀ s, observes falseArm s → d.holds trueArm s = false) ∧
        trueStmt.Sharp d observes (fun _ => false) ∧ falseStmt.Sharp d observes fun _ => false
  | case arms, _ =>
      (∀ s, arms.selects d s = true) ∧ arms.Sharp d observes fun _ => false
  | caseDefault before b stmt after, _ =>
      (∀ s, observes b s → before.selects d s = false ∧ after.selects d s = false) ∧
        before.Sharp d observes (fun _ => false) ∧ stmt.Sharp d observes (fun _ => false) ∧
        after.Sharp d observes (before.selects d)
  | delay stmt, _ => stmt.Sharp d observes fun _ => false
  | wait stmt, _ => stmt.Sharp d observes fun _ => false
  | cons stmt rest, _ =>
      stmt.Sharp d observes (fun _ => false) ∧ rest.Sharp d observes fun _ => false
  | arm b stmt rest, earlier =>
      (∀ s, observes b s → d.holds b s = true ∧ earlier s = false) ∧
        stmt.Sharp d observes (fun _ => false) ∧
        rest.Sharp d observes fun s => earlier s || d.holds b s
  | _, _ => True

/-- The store after a run is that after its records. -/
theorem store_run (d : Dynamics A B σ) {k : IvlKind} (t : IvlStatement A B k)
    (hunwaited : t.Unwaited) (s : σ) : (t.run d s).store = exec d.pass s (t.run d s).steps := by
  induction t generalizing s with
  | noop => rfl
  | null => rfl
  | stask => rfl
  | nil => rfl
  | noArm => rfl
  | assign isCommit a => rfl
  | block body ih => exact ih hunwaited s
  | case arms ih => exact ih hunwaited s
  | delay stmt ih => exact ih hunwaited s
  | wait stmt ih => cases hunwaited
  | condit trueArm falseArm trueStmt falseStmt iht ihf =>
      rw [run]
      split
      · exact iht hunwaited.1 s
      · exact ihf hunwaited.2 s
  | caseDefault before b stmt after ihb ihs iha =>
      rw [run]
      split
      · exact ihb hunwaited.1 s
      · split
        · exact iha hunwaited.2.2 s
        · exact ihs hunwaited.2.1 s
  | cons stmt rest ihs ihr =>
      rw [run, Outcome.andThen, exec_append, ← ihs hunwaited.1]
      exact ihr hunwaited.2 _
  | arm b stmt rest ihs ihr =>
      rw [run]
      split
      · exact ihs hunwaited.1 s
      · exact ihr hunwaited.2 s

/-- A run enters arms of the statement. -/
theorem mem_arms_of_run (d : Dynamics A B σ) {k : IvlKind} (t : IvlStatement A B k) {s : σ} {b : B}
    (h : .branch b ∈ (t.run d s).steps) : b ∈ t.arms := by
  induction t generalizing s with
  | noop => cases h
  | null => cases h
  | stask => cases h
  | nil => cases h
  | noArm => cases h
  | assign isCommit a => simp [run] at h
  | block body ih => exact ih h
  | case arms ih => exact ih h
  | delay stmt ih => exact ih h
  | wait stmt ih => exact ih h
  | condit trueArm falseArm trueStmt falseStmt iht ihf =>
      rw [run] at h
      split at h
      · rcases List.mem_cons.mp h with heq | h
        · cases heq
          simp [arms]
        · simp [arms, iht h]
      · rcases List.mem_cons.mp h with heq | h
        · cases heq
          simp [arms]
        · simp [arms, ihf h]
  | caseDefault before b stmt after ihb ihs iha =>
      rw [run] at h
      split at h
      · simp [arms, ihb h]
      · split at h
        · simp [arms, iha h]
        · rcases List.mem_cons.mp h with heq | h
          · cases heq
            simp [arms]
          · simp [arms, ihs h]
  | cons stmt rest ihs ihr =>
      rcases List.mem_append.mp h with h | h
      · simp [arms, ihs h]
      · simp [arms, ihr h]
  | arm b stmt rest ihs ihr =>
      rw [run] at h
      split at h
      · rcases List.mem_cons.mp h with heq | h
        · cases heq
          simp [arms]
        · simp [arms, ihs h]
      · simp [arms, ihr h]

/-- **Records determine the path.** Where the conditions of the recorded arms hold
along the records of a run, another run passes the same records. -/
theorem steps_run_eq {d : Dynamics A B σ} {observes : B → σ → Prop} {k : IvlKind}
    (t : IvlStatement A B k) (hunwaited : t.Unwaited) {earlier : σ → Bool}
    (hsharp : t.Sharp d observes earlier) {s s' : σ}
    (h : AllSteps d.pass (Observes observes) s' (t.run d s).steps) :
    (k ≠ .arms → (t.run d s').steps = (t.run d s).steps) ∧
      (t.selects d s = true →
        earlier s' = false ∧ t.selects d s' = true ∧ (t.run d s').steps = (t.run d s).steps) := by
  induction t generalizing earlier s s' with
  | noop => exact ⟨fun _ => rfl, fun h => absurd h Bool.false_ne_true⟩
  | null => exact ⟨fun _ => rfl, fun h => absurd h Bool.false_ne_true⟩
  | stask => exact ⟨fun _ => rfl, fun h => absurd h Bool.false_ne_true⟩
  | nil => exact ⟨fun _ => rfl, fun h => absurd h Bool.false_ne_true⟩
  | assign isCommit a => exact ⟨fun _ => rfl, fun h => absurd h Bool.false_ne_true⟩
  | noArm => exact ⟨fun _ => rfl, fun h => absurd h Bool.false_ne_true⟩
  | block body ih => exact ⟨fun _ => (ih hunwaited hsharp h).1 nofun, fun h => absurd h Bool.false_ne_true⟩
  | delay stmt ih => exact ⟨fun _ => (ih hunwaited hsharp h).1 nofun, fun h => absurd h Bool.false_ne_true⟩
  | wait stmt ih => cases hunwaited
  | case arms ih =>
      obtain ⟨hselects, hsharp⟩ := hsharp
      exact ⟨fun _ => ((ih hunwaited hsharp h).2 (hselects s)).2.2, fun h => absurd h Bool.false_ne_true⟩
  | condit trueArm falseArm trueStmt falseStmt iht ihf =>
      obtain ⟨htrue, hfalse, hsharpt, hsharpf⟩ := hsharp
      refine ⟨fun _ => ?_, fun h => absurd h Bool.false_ne_true⟩
      by_cases hholds : d.holds trueArm s = true
      · rw [run, if_pos hholds] at h
        rw [run, run, if_pos (htrue s' h.1), if_pos hholds]
        exact congrArg (List.cons _) ((iht hunwaited.1 hsharpt h.2).1 nofun)
      · rw [run, if_neg hholds] at h
        rw [run, run, if_neg (by simp [hfalse s' h.1]), if_neg hholds]
        exact congrArg (List.cons _) ((ihf hunwaited.2 hsharpf h.2).1 nofun)
  | caseDefault before b stmt after ihb ihs iha =>
      obtain ⟨hdefault, hsharpb, hsharps, hsharpa⟩ := hsharp
      refine ⟨fun _ => ?_, fun h => absurd h Bool.false_ne_true⟩
      by_cases hbefore : before.selects d s = true
      · rw [run, if_pos hbefore] at h
        obtain ⟨-, hbefore', hsteps⟩ := (ihb hunwaited.1 hsharpb h).2 hbefore
        rw [run, run, if_pos hbefore', if_pos hbefore, hsteps]
      · by_cases hafter : after.selects d s = true
        · rw [run, if_neg hbefore, if_pos hafter] at h
          obtain ⟨hbefore', hafter', hsteps⟩ := (iha hunwaited.2.2 hsharpa h).2 hafter
          rw [run, run, if_neg (by simp [hbefore']), if_pos hafter', if_neg hbefore, if_pos hafter,
            hsteps]
        · rw [run, if_neg hbefore, if_neg hafter] at h
          obtain ⟨hbefore', hafter'⟩ := hdefault s' h.1
          rw [run, run, if_neg (by simp [hbefore']), if_neg (by simp [hafter']), if_neg hbefore,
            if_neg hafter]
          exact congrArg (List.cons _) ((ihs hunwaited.2.1 hsharps h.2).1 nofun)
  | cons stmt rest ihs ihr =>
      refine ⟨fun _ => ?_, fun h => absurd h Bool.false_ne_true⟩
      obtain ⟨hstmt, hrest⟩ := allSteps_append.mp h
      have hsteps := (ihs hunwaited.1 hsharp.1 hstmt).1 nofun
      -- the rest starts from the stores that the same records lead to
      rw [← hsteps, ← store_run d stmt hunwaited.1] at hrest
      have hsteps' := (ihr hunwaited.2 hsharp.2 hrest).1 nofun
      show (stmt.run d s').steps ++ (rest.run d (stmt.run d s').store).steps = _
      rw [hsteps, hsteps']
      rfl
  | arm b stmt rest ihs ihr =>
      refine ⟨fun hk => absurd rfl hk, fun hselects => ?_⟩
      obtain ⟨hitem, hsharps, hsharpr⟩ := hsharp
      by_cases hholds : d.holds b s = true
      · rw [run, if_pos hholds] at h
        obtain ⟨hholds', hearlier⟩ := hitem s' h.1
        refine ⟨hearlier, by simp [selects, hholds'], ?_⟩
        rw [run, run, if_pos hholds', if_pos hholds]
        exact congrArg (List.cons _) ((ihs hunwaited.1 hsharps h.2).1 nofun)
      · rw [run, if_neg hholds] at h
        have hrest : rest.selects d s = true := by simpa [selects, hholds] using hselects
        obtain ⟨hearlier, hselects', hsteps⟩ := (ihr hunwaited.2 hsharpr h).2 hrest
        obtain ⟨hearlier, hholds'⟩ := Bool.or_eq_false_iff.mp hearlier
        refine ⟨hearlier, by simp [selects, hselects'], ?_⟩
        rw [run, run, if_neg (by simp [hholds']), if_neg hholds, hsteps]

end IvlStatement

end Conquest
