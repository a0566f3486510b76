import Mathlib.Data.List.Forall2
import Conquest.Netlist.Meaning

/-!
# Emitted — the expressions have the values of the nexuses

By induction on the fuel: what is emitted for the operands denotes their values,
and the class of the node applies the function of the device.
-/

namespace Conquest

open Bv Digits

namespace Netlist

variable {N S : Type} {width : N → Nat} {nl : Netlist N S} {ρ : Valuation} {st : SigState S}
  {vals : Values width}

/-- The term of an expression denotes the value. -/
abbrev HasValue (nl : Netlist N S) (ρ : Valuation) (st : SigState S) (e : SMTExpr S) {w : Nat}
    (x : BitVec w) : Prop := Denotes ρ (e.evalTerm nl.decl st .curr) x

/-- An emitter gives every nexus an expression of its value. -/
def EmitsValues (nl : Netlist N S) (ρ : Valuation) (st : SigState S) (vals : Values width)
    (rec : N → Bool → Option (SMTExpr S)) : Prop :=
  ∀ n allowUd e, rec n allowUd = some e → nl.HasValue ρ st e (vals n)

/-! ## Nodes -/

section Nodes

variable {rec : N → Bool → Option (SMTExpr S)} {e : SMTExpr S}

theorem emitLpmUnary_denotes (hrec : EmitsValues nl ρ st vals rec) {opcode : Char} {l : Lpm N}
    {a : N} (hdata : l.data = [a]) {u : SMTUnary} (hu : SMTUnary.new.setOpcode opcode = some u)
    (h : emitLpmUnary rec opcode l = some e) :
    ∃ t, Denotes ρ t (vals a) ∧ e.evalTerm nl.decl st .curr = u.evalTerm t := by
  simp only [emitLpmUnary, hu, hdata, Option.bind_eq_bind, Option.bind_some,
    List.getElem?_cons_zero, Option.bind_eq_some_iff, Option.some.injEq] at h
  obtain ⟨e', he', rfl⟩ := h
  exact ⟨_, hrec a false e' he', by rw [SMTExpr.evalTerm_node]; rfl⟩

theorem emitLpmBinary_denotes (hrec : EmitsValues nl ρ st vals rec) {opcode : Char} {op : VBinop}
    (hop : emittedOper opcode = some (.plain op)) (hdivision : op.isDivision = false)
    {signed1 signed2 : Bool} {l : Lpm N} {a b : N} (hdata : l.data = [a, b])
    (hwidth : width b = width a) (hagrees : OperAgrees op signed1 signed2 (width a) (width b))
    (h : emitLpmBinary rec (signed1 && signed2) opcode l = some e) :
    nl.HasValue ρ st e (op.eval signed1 signed2 (vals a) (vals b)) := by
  simp only [emitLpmBinary, hdata, Option.bind_eq_bind, Option.bind_some,
    List.getElem?_cons_zero, List.getElem?_cons_succ, Option.bind_eq_some_iff,
    Option.some.injEq] at h
  obtain ⟨e₁, he₁, e₂, he₂, rfl⟩ := h
  have hterm := binary_denotes hop (fun _ => hwidth) hagrees (hrec a false e₁ he₁)
    (hrec b false e₂ he₂) (by simp [EmittedOper.op, hdivision])
  rw [HasValue, SMTExpr.evalTerm_node]
  exact hterm

/-- The operands of a node, one by one. -/
theorem forall₂_of_mapM (hrec : EmitsValues nl ρ st vals rec) {allowUd : Bool} {ds : List N}
    {es : List (SMTExpr S)} (h : ds.mapM (rec · allowUd) = some es) :
    List.Forall₂ (fun d t => Denotes ρ t (vals d)) ds
      (es.map (SMTExpr.evalTerm nl.decl st .curr)) := by
  induction ds generalizing es with
  | nil =>
      obtain rfl : es = [] := by simpa using h.symm
      exact .nil
  | cons d ds ih =>
      simp only [List.mapM_cons, Option.pure_def, Option.bind_eq_bind, Option.bind_eq_some_iff,
        Option.some.injEq] at h
      obtain ⟨e, he, es', hes', rfl⟩ := h
      exact .cons (hrec d allowUd e he) (ih hes')

/-- A nexus that is repeated is concatenated with itself. -/
theorem concatNat_replicate (vals : Values width) (d : N) (n : Nat) :
    concatNat vals (List.replicate n d) = ((vals d).replicate n).toNat := by
  induction n with
  | zero => simp [concatNat]
  | succ n ih =>
      rw [List.replicate_succ, concatNat, ih, BitVec.replicate_succ', BitVec.toNat_cast,
        BitVec.toNat_append, ← Nat.shiftLeft_add_eq_or_of_lt (vals d).isLt, Nat.shiftLeft_eq,
        Nat.mul_comm, Nat.add_comm]

theorem emitLpmConcat_denotes [DecidableEq N] (hrec : EmitsValues nl ρ st vals rec) {l : Lpm N}
    (h : emitLpmConcat rec l = some e) :
    nl.HasValue ρ st e (BitVec.ofNat (concatWidth width l.data) (concatNat vals l.data)) := by
  unfold emitLpmConcat at h
  match hdata : l.data with
  | [] => simp [hdata] at h
  | d :: ds =>
      simp only [hdata] at h
      split at h
      · rename_i hall
        simp only [Option.bind_eq_bind, Option.bind_eq_some_iff, Option.some.injEq] at h
        obtain ⟨e', he', rfl⟩ := h
        have hrepl : d :: ds = List.replicate (ds.length + 1) d := by
          rw [List.eq_replicate_iff]
          refine ⟨rfl, fun x hx => ?_⟩
          rcases List.mem_cons.mp hx with rfl | hx
          · rfl
          · exact (hall.2 x hx).symm
        have hrep : ds.length + 1 ≠ 1 :=
          fun h1 => hall.1 (List.length_eq_zero_iff.mp (Nat.succ.inj h1))
        have hwidth : width d * (ds.length + 1) = concatWidth width (d :: ds) := by
          rw [hrepl, concatWidth, List.map_replicate, List.sum_replicate_nat, Nat.mul_comm]
        have hval : ((vals d).replicate (ds.length + 1)).setWidth (concatWidth width (d :: ds)) =
            BitVec.ofNat _ (concatNat vals (d :: ds)) := by
          apply BitVec.eq_of_toNat_eq
          rw [BitVec.toNat_setWidth, BitVec.toNat_ofNat, hrepl, concatNat_replicate]
        rw [HasValue, SMTExpr.evalTerm_node, ← hval]
        simp only [SMTClass.evalTerm, List.length_cons, if_pos hrep, List.map_cons,
          List.map_nil, mkConcat, List.foldl_nil]
        exact ((hrec d false e' he').rep (Nat.succ_pos ds.length)).setWidth hwidth
      · simp only [Option.bind_eq_bind, Option.bind_eq_some_iff, Option.some.injEq] at h
        obtain ⟨es, hes, rfl⟩ := h
        have hall := List.forall₂_reverse_iff.mpr (forall₂_of_mapM hrec hes)
        rw [List.reverse_reverse] at hall
        have hterm := denotes_mkConcat hall (by simp)
        rw [List.reverse_reverse] at hterm
        rw [HasValue, SMTExpr.evalTerm_node]
        exact hterm

/-- A device with two operands, whose emitted operator has the device's value. -/
theorem exists_eval_of_binary (hrec : EmitsValues nl ρ st vals rec) (opcode : Char)
    (signed1 signed2 : Bool) {op : VBinop} (hop : emittedOper opcode = some (.plain op))
    (hdivision : op.isDivision = false) {l : Lpm N} {a b : N} (hdata : l.data = [a, b])
    (hwidth : width b = width a) (hagrees : OperAgrees op signed1 signed2 (width a) (width b))
    (hq : op.width (width a) = width l.q)
    (heval : l.eval vals (width l.q) =
      some ((op.eval signed1 signed2 (vals a) (vals b)).setWidth (width l.q)))
    (h : emitLpmBinary rec (signed1 && signed2) opcode l = some e) :
    ∃ x, l.eval vals (width l.q) = some x ∧ nl.HasValue ρ st e x :=
  ⟨_, heval, (emitLpmBinary_denotes hrec hop hdivision hdata hwidth hagrees h).setWidth hq⟩

/-- A reduction. -/
theorem exists_eval_of_unary (hrec : EmitsValues nl ρ st vals rec) (opcode : Char) (f : Red)
    (inverted : Bool) {l : Lpm N} {a : N} (hdata : l.data = [a])
    (hu : ∃ name, SMTUnary.new.setOpcode opcode = some ⟨name, some (.red f), inverted⟩)
    (hq : 1 = width l.q)
    (heval : l.eval vals (width l.q) =
      some ((invertIf inverted (f.apply (vals a))).setWidth (width l.q)))
    (h : emitLpmUnary rec opcode l = some e) :
    ∃ x, l.eval vals (width l.q) = some x ∧ nl.HasValue ρ st e x := by
  obtain ⟨name, hu⟩ := hu
  obtain ⟨t, ht, heq⟩ := emitLpmUnary_denotes hrec hdata hu h
  have hterm : nl.HasValue ρ st e (invertIf inverted (f.apply (vals a))) := by
    rw [HasValue, heq]
    cases inverted
    · exact ht.red f
    · exact (ht.red f).op1 .not
  exact ⟨_, heval, hterm.setWidth hq⟩

theorem setWidth_eq_one_iff {w : Nat} (hw : w = 1) (x : BitVec w) :
    x.setWidth 1 = 1#1 ↔ x ≠ 0#w := by
  subst hw
  revert x
  decide

theorem exists_eval_of_mux [DecidableEq N] (hrec : EmitsValues nl ρ st vals rec) {fuel : Nat}
    {l : Lpm N} {a b c : N} (htype : l.type = .mux) (hdata : l.data = [a, b])
    (hsel : l.sel = some c) (ha : width a = width l.q) (hb : width b = width l.q)
    (hc : width c = 1) (h : nl.emitLpmAsCa rec fuel l = some e) :
    ∃ x, l.eval vals (width l.q) = some x ∧ nl.HasValue ρ st e x := by
  simp only [emitLpmAsCa, htype, hdata, hsel, Option.bind_eq_bind, Option.bind_some,
    List.getElem?_cons_zero, List.getElem?_cons_succ, Option.bind_eq_some_iff,
    Option.some.injEq] at h
  obtain ⟨e₁, he₁, e₂, he₂, e₃, he₃, rfl⟩ := h
  have hterm := ((hrec c false e₁ he₁).setWidth hc).ite_eq (denotes_const ρ 1#1)
    ((hrec b false e₂ he₂).setWidth hb) ((hrec a false e₃ he₃).setWidth ha)
  have heval : l.eval vals (width l.q) =
      some (if vals c = 0#_ then (vals a).setWidth _ else (vals b).setWidth _) := by
    simp [Lpm.eval, htype, hdata, hsel]
  refine ⟨_, heval, ?_⟩
  rw [HasValue, SMTExpr.evalTerm_node]
  by_cases hzero : vals c = 0#_
  · rw [if_neg (by simpa [setWidth_eq_one_iff hc] using hzero)] at hterm
    rw [if_pos hzero]
    exact hterm
  · rw [if_pos ((setWidth_eq_one_iff hc _).mpr hzero)] at hterm
    rw [if_neg hzero]
    exact hterm

theorem exists_eval_of_rep [DecidableEq N] (hrec : EmitsValues nl ρ st vals rec) {fuel : Nat}
    {l : Lpm N} {a : N} (htype : l.type = .rep) (hdata : l.data = [a]) (hsize : 0 < l.size)
    (hq : width a * l.size = width l.q) (h : nl.emitLpmAsCa rec fuel l = some e) :
    ∃ x, l.eval vals (width l.q) = some x ∧ nl.HasValue ρ st e x := by
  simp only [emitLpmAsCa, htype, hdata, Option.bind_eq_bind, Option.bind_some,
    List.getElem?_cons_zero, Option.bind_eq_some_iff, Option.some.injEq] at h
  obtain ⟨e', he', rfl⟩ := h
  have hterm := hrec a false e' he'
  have heval : l.eval vals (width l.q) = some (((vals a).replicate l.size).setWidth _) := by
    simp [Lpm.eval, htype, hdata]
  refine ⟨_, heval, ?_⟩
  rw [HasValue, SMTExpr.evalTerm_node]
  simp only [SMTClass.evalTerm, List.map_cons, List.map_nil, mkConcat, List.foldl_nil]
  split
  · exact (hterm.rep hsize).setWidth hq
  · rename_i hone
    have hone : l.size = 1 := by simpa using hone
    have hval : (vals a).setWidth (width l.q) = ((vals a).replicate l.size).setWidth _ := by
      apply BitVec.eq_of_toNat_eq
      rw [hone, BitVec.toNat_setWidth, BitVec.toNat_setWidth, BitVec.replicate_succ]
      simp
    rw [← hval]
    exact hterm.setWidth (by rw [← hq, hone, Nat.mul_one])

/-- A device other than a part select gives its function of the operands' values. -/
theorem emitLpmAsCa_denotes [DecidableEq N] (hrec : EmitsValues nl ρ st vals rec) {fuel : Nat}
    {l : Lpm N} (htyped : l.WellTyped width) (hpv : l.type ≠ .partPv) (hvp : l.type ≠ .partVp)
    (h : nl.emitLpmAsCa rec fuel l = some e) :
    ∃ x, l.eval vals (width l.q) = some x ∧ nl.HasValue ρ st e x := by
  obtain ⟨type, w, isSigned, size, base, q, data, sel⟩ := l
  unfold Lpm.WellTyped at htyped
  split at htyped <;> subst_vars
  case h_1 a b =>
    exact exists_eval_of_binary hrec '+' false false rfl rfl rfl (htyped.2.trans htyped.1.symm)
      trivial htyped.1 rfl h
  case h_2 a b =>
    exact exists_eval_of_binary hrec '-' false false rfl rfl rfl (htyped.2.trans htyped.1.symm)
      trivial htyped.1 rfl h
  case h_3 a b =>
    exact exists_eval_of_binary hrec '*' false false rfl rfl rfl (htyped.2.trans htyped.1.symm)
      trivial htyped.1 rfl h
  case h_4 a b =>
    have hwidth : width b = width a := htyped.2.trans htyped.1.symm
    exact exists_eval_of_binary hrec 'l' false false rfl rfl rfl hwidth hwidth htyped.1 rfl h
  case h_5 a b =>
    have hwidth : width b = width a := htyped.2.trans htyped.1.symm
    cases isSigned
    · exact exists_eval_of_binary hrec 'r' false false rfl rfl rfl hwidth hwidth htyped.1 rfl h
    · exact exists_eval_of_binary hrec 'R' true false rfl rfl rfl hwidth ⟨rfl, hwidth⟩ htyped.1
        rfl h
  case h_6 a b =>
    exact exists_eval_of_binary hrec 'e' false false rfl rfl rfl htyped.1 trivial htyped.2.symm
      rfl h
  case h_7 a b =>
    exact exists_eval_of_binary hrec 'n' false false rfl rfl rfl htyped.1 trivial htyped.2.symm
      rfl h
  case h_8 a b =>
    rw [emitLpmAsCa, ← Bool.and_self isSigned] at h
    exact exists_eval_of_binary hrec 'G' isSigned isSigned rfl rfl rfl htyped.1 trivial
      htyped.2.symm rfl h
  case h_9 a b =>
    rw [emitLpmAsCa, ← Bool.and_self isSigned] at h
    exact exists_eval_of_binary hrec '>' isSigned isSigned rfl rfl rfl htyped.1 trivial
      htyped.2.symm rfl h
  case h_10 d ds => exact ⟨_, rfl, htyped ▸ emitLpmConcat_denotes hrec h⟩
  case h_11 d ds => exact ⟨_, rfl, htyped ▸ emitLpmConcat_denotes hrec h⟩
  case h_12 a b c => exact exists_eval_of_mux hrec rfl rfl rfl htyped.1 htyped.2.1 htyped.2.2 h
  case h_13 a => exact absurd rfl hvp
  case h_14 a => exact absurd rfl hpv
  case h_15 a =>
    exact exists_eval_of_unary hrec '&' .and false rfl ⟨_, rfl⟩ htyped.symm rfl h
  case h_16 a =>
    exact exists_eval_of_unary hrec 'A' .and true rfl ⟨_, rfl⟩ htyped.symm rfl h
  case h_17 a =>
    exact exists_eval_of_unary hrec '|' .or false rfl ⟨_, rfl⟩ htyped.symm rfl h
  case h_18 a =>
    exact exists_eval_of_unary hrec 'N' .or true rfl ⟨_, rfl⟩ htyped.symm rfl h
  case h_19 a => exact exists_eval_of_rep hrec rfl rfl htyped.1 htyped.2 h
  case h_20 => exact htyped.elim

theorem emitGate_denotes (hrec : EmitsValues nl ρ st vals rec) (f' : Op2) {opcode : Char}
    {inverted : Bool} {g : NetLogic N} {o a b : N} (hpins : g.pins = [o, a, b])
    (ha : width a = width o) (hb : width b = width o) {cls : SMTLogic} {f : Op2}
    (hcls : SMTLogic.ofOpcode opcode inverted = some cls) (hfunc : cls.func = some f)
    (hf : ∀ x y : BitVec (width o), f.apply x y = invertIf inverted (f'.apply x y))
    (h : emitGate rec opcode inverted g = some e) :
    nl.HasValue ρ st e
      (invertIf inverted (f'.apply ((vals a).setWidth (width o)) ((vals b).setWidth _))) := by
  simp only [emitGate, hcls, hpins, Option.bind_eq_bind, Option.bind_some, List.length_cons,
    List.drop_one, List.tail_cons, List.mapM_cons, List.mapM_nil, Option.pure_def] at h
  rw [if_neg (by simp)] at h
  simp only [Option.bind_eq_some_iff, Option.some.injEq] at h
  obtain ⟨_, ⟨e₁, he₁, _, ⟨e₂, he₂, rfl⟩, rfl⟩, rfl⟩ := h
  have hterm := ((hrec a false e₁ he₁).setWidth ha).op2 f ((hrec b false e₂ he₂).setWidth hb)
  rw [← hf, HasValue, SMTExpr.evalTerm_node]
  simpa [SMTClass.evalTerm, SMTLogic.evalTerm, hfunc] using hterm

/-- The bits of a constant. -/
theorem denotes_number (nl : Netlist N S) (ρ : Valuation) (st : SigState S) {bits : List Digit}
    (hne : bits ≠ []) {w : Nat} (hw : bits.length = w) :
    nl.HasValue ρ st (.leaf (.number (SMTNumber.new bits))) ((fill bits).setWidth w) := by
  rw [HasValue, SMTExpr.evalTerm, SMTLeaf.evalTerm, parseBvbin_new hne]
  exact (denotes_const ρ (fill bits)).setWidth hw

theorem fill_replicate_zero (n : Nat) : Digits.toNat (List.replicate n .zero) = 0 := by
  induction n with
  | zero => rfl
  | succ n ih => simpa [List.replicate_succ, Digits.toNat, Digit.fill, Digit.bit?] using ih

theorem fill_replicate_one (n : Nat) : Digits.toNat (List.replicate n .one) = 2 ^ n - 1 := by
  induction n with
  | zero => rfl
  | succ n ih =>
      have hcons : Digits.toNat (List.replicate (n + 1) .one) =
          2 * Digits.toNat (List.replicate n .one) + 1 := rfl
      have hpos := Nat.two_pow_pos n
      rw [hcons, ih, pow_succ]
      omega

/-- A gate gives its function of the inputs' values. -/
theorem emitLogicAsCa_denotes (hrec : EmitsValues nl ρ st vals rec) {g : NetLogic N}
    (htyped : g.WellTyped width) (h : emitLogicAsCa rec g = some e) :
    ∃ o ins, g.pins = o :: ins ∧ ∃ x, g.type.eval (width o)
      (ins.map fun n => (vals n).setWidth _) = some x ∧ nl.HasValue ρ st e x := by
  obtain ⟨type, w, isCassign, pins⟩ := g
  unfold NetLogic.WellTyped at htyped
  split at htyped <;> subst_vars
  case h_1 o a | h_2 o a | h_3 o a =>
    exact ⟨o, [a], rfl, _, rfl, (hrec a false e h).setWidth htyped⟩
  case h_4 o a =>
    simp only [emitLogicAsCa, List.length_cons, List.length_nil, if_true, SMTUnary.setOpcode,
      Option.bind_eq_bind, Option.bind_some, List.getElem?_cons_succ, List.getElem?_cons_zero,
      Option.bind_eq_some_iff, Option.some.injEq] at h
    obtain ⟨e', he', rfl⟩ := h
    refine ⟨o, [a], rfl, _, rfl, ?_⟩
    rw [HasValue, SMTExpr.evalTerm_node]
    exact ((hrec a false e' he').setWidth htyped).op1 .not
  case h_5 o a b =>
    exact ⟨o, [a, b], rfl, _, rfl,
      emitGate_denotes hrec .and rfl htyped.1 htyped.2 rfl rfl (fun _ _ => rfl) h⟩
  case h_6 o a b =>
    exact ⟨o, [a, b], rfl, _, rfl,
      emitGate_denotes hrec .and rfl htyped.1 htyped.2 rfl rfl (fun _ _ => rfl) h⟩
  case h_7 o a b =>
    exact ⟨o, [a, b], rfl, _, rfl,
      emitGate_denotes hrec .or rfl htyped.1 htyped.2 rfl rfl (fun _ _ => rfl) h⟩
  case h_8 o a b =>
    exact ⟨o, [a, b], rfl, _, rfl,
      emitGate_denotes hrec .or rfl htyped.1 htyped.2 rfl rfl (fun _ _ => rfl) h⟩
  case h_9 o a b =>
    exact ⟨o, [a, b], rfl, _, rfl,
      emitGate_denotes hrec .xor rfl htyped.1 htyped.2 rfl rfl (fun _ _ => rfl) h⟩
  case h_10 o a b =>
    exact ⟨o, [a, b], rfl, _, rfl,
      emitGate_denotes hrec .xor rfl htyped.1 htyped.2 rfl rfl (fun _ _ => rfl) h⟩
  case h_11 o =>
    obtain rfl := Option.some.inj h
    have hne : List.replicate w Digit.zero ≠ [] := by simpa using htyped.2.ne'
    have hterm := denotes_number nl ρ st hne (List.length_replicate.trans htyped.1)
    refine ⟨o, [], rfl, _, rfl, ?_⟩
    have hval : (fill (List.replicate w .zero)).setWidth (width o) = 0 := by
      simp [fill, fill_replicate_zero]
    rwa [hval] at hterm
  case h_12 o =>
    obtain rfl := Option.some.inj h
    have hne : List.replicate w Digit.one ≠ [] := by simpa using htyped.2.ne'
    have hterm := denotes_number nl ρ st hne (List.length_replicate.trans htyped.1)
    refine ⟨o, [], rfl, _, rfl, ?_⟩
    have hval : (fill (List.replicate w .one)).setWidth (width o) = BitVec.allOnes (width o) := by
      apply BitVec.eq_of_toNat_eq
      have hw : w = width o := htyped.1
      have hlt : 2 ^ width o - 1 < 2 ^ width o := Nat.sub_lt (Nat.two_pow_pos _) Nat.one_pos
      simp [fill, fill_replicate_one, hw, Nat.mod_eq_of_lt hlt]
    rwa [hval] at hterm
  case h_13 => exact htyped.elim

end Nodes

end Netlist

end Conquest
