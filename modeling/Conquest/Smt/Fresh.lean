import Conquest.Lib.Vars
import Conquest.Smt.Grow

/-!
# Fresh — records that make a new term

The term of an expression uses terms from the stacks of its signals only. The
constraint of an array write, or of a bit written at an index, also uses a term
made for it, so that running `update_term` again gives another constraint.
-/

namespace Conquest

open Bv

variable {S : Type} {decl : S → SigDecl} {st : SigState S} {p : Nat → Prop}

/-! ## Variables of expressions -/

theorem over_sigTerm (h : ∀ s, ∀ id ∈ (st.core s).termStack, p id) (s : S) (clk : SMTClkType) :
    Over p (sigTerm decl st s clk) := by
  unfold sigTerm SMTSigCore.getTerm
  cases hget : (st.core s).termStack[(st.core s).version clk]? with
  | none => trivial
  | some id => exact h s id (List.mem_of_getElem? hget)

theorem TermFn1.over_call (f : TermFn1) {t : TermT} (h : Over p t) : Over p (f.call t) := by
  cases f with
  | op f => exact (over_mkOp1_iff f).mpr fun _ => h
  | red f => exact (over_mkRed_iff f).mpr fun _ => h

theorem TermFn2.over_call (f : TermFn2) {s t : TermT} (hs : Over p s) (ht : Over p t) :
    Over p (f.call s t) := by
  cases f with
  | op f => exact (over_mkOp2_iff f).mpr fun _ => ⟨hs, ht⟩
  | redcomp => exact over_mkComp_iff.mpr fun _ => ⟨hs, ht⟩
  | atom r => exact (over_mkRel_iff r).mpr fun _ => ⟨hs, ht⟩

theorem SMTUnary.over_evalTerm (u : SMTUnary) {t : TermT} (h : Over p t) :
    Over p (u.evalTerm t) := by
  unfold SMTUnary.evalTerm
  split
  · trivial
  · split
    · exact (over_mkOp1_iff .not).mpr fun _ => TermFn1.over_call _ h
    · exact TermFn1.over_call _ h

theorem SMTBinary.over_evalTerm (b : SMTBinary) {s t : TermT} (hs : Over p s) (ht : Over p t) :
    Over p (b.evalTerm s t) := by
  unfold SMTBinary.evalTerm
  cases b.func with
  | none => trivial
  | some f =>
      have hcall := f.over_call hs ht
      have hbool := over_mkOfBool_iff.mpr fun _ => hcall
      cases b.isBool <;> cases b.isInverted
      · exact hcall
      · exact (over_mkOp1_iff .not).mpr fun _ => hcall
      · exact hbool
      · exact (over_mkOp1_iff .not).mpr fun _ => hbool

theorem SMTLogic.over_evalTerm (l : SMTLogic) {s t : TermT} (hs : Over p s) (ht : Over p t) :
    Over p (l.evalTerm s t) := by
  unfold SMTLogic.evalTerm
  split
  · trivial
  · exact (over_mkOp2_iff _).mpr fun _ => ⟨hs, ht⟩

theorem SMTClass.over_evalTerm (cls : SMTClass) {ts : List TermT} (h : ∀ t ∈ ts, Over p t) :
    Over p (cls.evalTerm ts) := by
  unfold SMTClass.evalTerm
  split
  · split
    · exact (over_mkRep_iff _).mpr fun _ => over_mkConcat h
    · exact over_mkConcat h
  · exact over_mkAnd h
  · rename_i a b ts
    exact over_mkNot_iff.mpr fun _ => over_mkEq_iff.mpr fun _ => ⟨h a (by simp), h b (by simp)⟩
  · trivial
  · rename_i u a ts
    exact u.over_evalTerm (h a (by simp))
  · rename_i b a c ts
    exact b.over_evalTerm (h a (by simp)) (h c (by simp))
  · rename_i l a c ts
    exact l.over_evalTerm (h a (by simp)) (h c (by simp))
  · rename_i c a b ts
    refine over_mkIte_iff.mpr fun _ => ⟨?_, h a (by simp), h b (by simp)⟩
    exact over_mkEq_iff.mpr fun _ => ⟨h c (by simp), trivial⟩
  · trivial

theorem over_parseBvbin (bits : Text.Line) : Over p (parseBvbin bits) := by
  unfold parseBvbin
  split <;> trivial

theorem SMTSignal.over_evalTerm (h : ∀ s, ∀ id ∈ (st.core s).termStack, p id)
    (sig : SMTSignal S) (clk : SMTClkType) : Over p (sig.evalTerm decl st clk) := by
  have hterm : Over p (sigTerm decl st sig.parent clk) := over_sigTerm h sig.parent clk
  unfold SMTSignal.evalTerm bvextract
  split
  · split
    · exact (over_mkExtract_iff _ _).mpr fun _ => hterm
    · trivial
  · exact hterm

/-- The term of an expression is over the terms of the signals. -/
theorem SMTExpr.over_evalTerm (h : ∀ s, ∀ id ∈ (st.core s).termStack, p id) (clk : SMTClkType)
    (e : SMTExpr S) : Over p (e.evalTerm decl st clk) := by
  induction e using SMTExpr.induct with
  | hleaf l =>
      cases l with
      | string str => trivial
      | unspecified => trivial
      | number n => exact over_parseBvbin n.valueBin
      | signal sig => exact sig.over_evalTerm h clk
      | array arr =>
          simp only [SMTExpr.evalTerm, SMTLeaf.evalTerm, SMTArray.evalTerm]
          split
          · exact over_mkApp_iff.mpr fun _ => ⟨over_sigTerm h _ _, over_sigTerm h _ _⟩
          · exact over_mkApp_iff.mpr fun _ => ⟨over_sigTerm h _ _, trivial⟩
  | hnode cls es ih =>
      rw [SMTExpr.evalTerm_node]
      exact cls.over_evalTerm (List.forall_mem_map.mpr ih)

/-! ## Records -/

/-- The record is a write of an array, or of a bit at an index. -/
def SMTAssign.makesTerm (a : SMTAssign S) : Bool :=
  match a.target, a.rval with
  | .assign _ (.array _ _), _ => true
  | .assign _ (.signal sig _), .leaf (.number _) => sig.isIndexTerm
  | _, _ => false

theorem constrain_cases (decl : S → SigDecl) (sig : SMTSignal S) (index : Option (SMTExpr S))
    (rval : SMTExpr S) (st : SigState S) :
    (∃ n, rval = .leaf (.number n) ∧ sig.isIndexTerm = true ∧
        constrain decl sig index rval st = bitWrite decl sig index n st) ∨
      constrain decl sig index rval st = signalWrite decl sig rval st := by
  unfold constrain
  split
  · rename_i n hindex
    exact .inl ⟨n, rfl, hindex, rfl⟩
  · exact .inr rfl

section BitWrite

variable (sig : SMTSignal S) (index : Option (SMTExpr S)) (n : SMTNumber)

theorem over_bitMask (h : st.Below) : Over (· < st.fresh + 1) (bitMask decl sig index st) := by
  have hst : ∀ s, ∀ id ∈ (st.core s).termStack, id < st.fresh + 1 :=
    fun s id hid => Nat.lt_succ_of_lt (h s id hid)
  refine (over_mkOp2_iff .shl).mpr fun _ => ⟨Nat.lt_succ_self _, ?_⟩
  refine (over_mkZeroExtend_iff _).mpr fun _ => ?_
  cases index with
  | none => trivial
  | some e => exact e.over_evalTerm hst .curr

theorem over_bitWrite (h : st.Below) :
    Over (· < st.fresh + 1) (bitWrite decl sig index n st).term := by
  have hst : ∀ s, ∀ id ∈ (st.core s).termStack, id < st.fresh + 1 :=
    fun s id hid => Nat.lt_succ_of_lt (h s id hid)
  have hlval : Over (· < st.fresh + 1) (sig.evalTerm decl st .next) := sig.over_evalTerm hst .next
  have hmask : Over (· < st.fresh + 1) (bitMask decl sig index st) := over_bitMask sig index h
  unfold bitWrite
  dsimp only
  split
  · exact (over_mkOp2_iff .and).mpr fun _ => ⟨hlval, (over_mkOp1_iff .not).mpr fun _ => hmask⟩
  · split
    · exact (over_mkOp2_iff .or).mpr fun _ => ⟨hlval, hmask⟩
    · trivial

/-- The mask of a bit write uses a term made for it. -/
theorem bitWrite_uses_fresh (hsome : (bitWrite decl sig index n st).term.isSome)
    (h : Over p (bitWrite decl sig index n st).term) : p st.fresh := by
  have hmask (hs : (bitMask decl sig index st).isSome) (ho : Over p (bitMask decl sig index st)) :
      p st.fresh := ((over_mkOp2_iff .shl).mp ho hs).1
  unfold bitWrite at hsome h
  dsimp only at hsome h
  split at h
  · rename_i hzero
    rw [if_pos hzero] at hsome
    have hnot := (isSome_of_mkOp2 hsome).2
    exact hmask (isSome_of_mkOp1 hnot)
      ((over_mkOp1_iff .not).mp ((over_mkOp2_iff .and).mp h hsome).2 hnot)
  · rename_i hzero
    rw [if_neg hzero] at hsome
    split at h
    · rename_i hone
      rw [if_pos hone] at hsome
      exact hmask (isSome_of_mkOp2 hsome).2 ((over_mkOp2_iff .or).mp h hsome).2
    · rename_i hone
      rw [if_neg hone] at hsome
      cases hsome

end BitWrite

theorem over_signalWrite (h : st.Below) (sig : SMTSignal S) (rval : SMTExpr S) :
    Over (· < st.fresh) (signalWrite decl sig rval st).term :=
  over_mkEq_iff.mpr fun _ =>
    ⟨sig.over_evalTerm h .next, rval.over_evalTerm h .curr⟩

section Records

variable [DecidableEq S]

/-- The constraint of a record is over the terms that exist after it. -/
theorem SMTAssign.over_updateTerm (h : st.Below) (a : SMTAssign S) :
    Over (· < (a.updateTerm decl st).st.fresh) (a.updateTerm decl st).term := by
  cases htarget : a.target with
  | branch lval =>
      simp only [SMTAssign.updateTerm, htarget]
      exact over_mkEq_iff.mpr fun _ =>
        ⟨lval.over_evalTerm h .curr,
          a.rval.over_evalTerm h .curr⟩
  | assign isCommit lval =>
      cases lval with
      | signal sig index =>
          have hnext := (records_updateNextVersion st sig.parent).below h
          have hconstrain :
              Over (· < (constrain decl sig index a.rval (st.updateNextVersion sig.parent)).st.fresh)
                (constrain decl sig index a.rval (st.updateNextVersion sig.parent)).term := by
            rcases constrain_cases decl sig index a.rval (st.updateNextVersion sig.parent) with
              ⟨n, -, -, heq⟩ | heq
            · rw [heq]
              exact over_bitWrite sig index n hnext
            · rw [heq]
              exact over_signalWrite hnext sig a.rval
          simp only [SMTAssign.updateTerm, htarget]
          cases isCommit <;> exact hconstrain
      | array arr index =>
          have hnext := (records_arrayUpdateTerm st arr.parent).below h
          simp only [SMTAssign.updateTerm, htarget]
          refine over_mkEq_iff.mpr fun _ => ⟨Nat.lt_succ_self _, over_mkUpdate_iff.mpr fun _ => ?_⟩
          exact ⟨over_sigTerm hnext _ _, index.over_evalTerm hnext .curr,
            a.rval.over_evalTerm hnext .curr⟩

/-- A record that makes a term uses it. -/
theorem SMTAssign.uses_fresh {a : SMTAssign S} (hmakes : a.makesTerm = true)
    (hsome : (a.updateTerm decl st).term.isSome) (h : Over p (a.updateTerm decl st).term) :
    ∃ id, st.fresh ≤ id ∧ p id := by
  unfold SMTAssign.makesTerm at hmakes
  split at hmakes
  · rename_i isCommit arr index htarget
    simp only [SMTAssign.updateTerm, htarget] at hsome h
    exact ⟨st.fresh, le_rfl, (over_mkEq_iff.mp h hsome).1⟩
  · rename_i isCommit sig index n htarget hrval
    have hconstrain : constrain decl sig index a.rval (st.updateNextVersion sig.parent) =
        bitWrite decl sig index n (st.updateNextVersion sig.parent) := by
      unfold constrain
      rw [hrval, hmakes]
    have hterm : (a.updateTerm decl st).term =
        (bitWrite decl sig index n (st.updateNextVersion sig.parent)).term := by
      simp only [SMTAssign.updateTerm, htarget, hconstrain]
      cases isCommit <;> rfl
    rw [hterm] at hsome h
    exact ⟨_, (records_updateNextVersion st sig.parent).fresh, bitWrite_uses_fresh sig index n hsome h⟩
  · cases hmakes

end Records

end Conquest
