import Conquest.Lib.Settle
import Conquest.Netlist.Nexus

/-!
# Meaning — the values of a netlist

Every nexus has a width and carries a value of it; a device or a gate gives the
nexus of its output the value of its function. The term of the expression that
is emitted for a nexus denotes the value that the nexus carries, in any state in
which the devices behind the nexus do what they are for.
-/

namespace Conquest

open Bv Digits

variable {N S : Type} {width : N → Nat}

/-- A value for every nexus. -/
abbrev Values (width : N → Nat) := (n : N) → BitVec (width n)

/-! ## Functions -/

/-- The operators with two operands. -/
def Lpm.binop? (l : Lpm N) : Option VBinop :=
  match l.type with
  | .add => some (.arith .add)
  | .sub => some (.arith .sub)
  | .mult => some (.arith .mul)
  | .cmpEq => some (.rel .eq)
  | .cmpNe => some (.rel .ne)
  | .cmpGe => some (.rel .ge)
  | .cmpGt => some (.rel .gt)
  | .shiftl => some (.shift .shl)
  | .shiftr => some (.shift (if l.isSigned then .sshr else .shr))
  | _ => none

/-- The reductions, and whether they are inverted. -/
def Lpm.reduction? (l : Lpm N) : Option (Red × Bool) :=
  match l.type with
  | .reAnd => some (.and, false)
  | .reNand => some (.and, true)
  | .reOr => some (.or, false)
  | .reNor => some (.or, true)
  | _ => none

/-- The concatenation of values, the first one lowest. -/
def concatNat (vals : Values width) : List N → Nat
  | [] => 0
  | d :: ds => (vals d).toNat + 2 ^ width d * concatNat vals ds

def concatWidth (width : N → Nat) (ds : List N) : Nat := (ds.map width).sum

def invertIf {w : Nat} (inverted : Bool) (x : BitVec w) : BitVec w :=
  if inverted then ~~~x else x

/-- What a device gives its output, of `w` bits. -/
def Lpm.eval (vals : Values width) (l : Lpm N) (w : Nat) : Option (BitVec w) :=
  match l.type, l.data, l.sel with
  | .concat, ds, _ | .concatz, ds, _ => some (BitVec.ofNat w (concatNat vals ds))
  | .mux, [a, b], some c =>
      some (if vals c = 0#_ then (vals a).setWidth w else (vals b).setWidth w)
  | .partVp, [a], none => some ((vals a).extractLsb' l.base w)
  | .rep, [a], _ => some (((vals a).replicate l.size).setWidth w)
  | _, [a, b], _ =>
      l.binop?.map fun op => (op.eval l.isSigned l.isSigned (vals a) (vals b)).setWidth w
  | _, [a], _ =>
      l.reduction?.map fun (f, inverted) => (invertIf inverted (f.apply (vals a))).setWidth w
  | _, _, _ => none

/-- A device does what it is for. A `partPv` gives some bits of its output. -/
def Lpm.Holds (vals : Values width) (l : Lpm N) : Prop :=
  match l.type, l.data with
  | .partPv, [a] => (vals l.q).extractLsb' l.base l.width = (vals a).setWidth l.width
  | _, _ => l.eval vals (width l.q) = some (vals l.q)

theorem Lpm.holds_iff {vals : Values width} {l : Lpm N} (h : l.type ≠ .partPv) :
    l.Holds vals ↔ l.eval vals (width l.q) = some (vals l.q) := by
  unfold Lpm.Holds
  split
  · contradiction
  · exact Iff.rfl

/-- The operators of gates, and whether they are inverted. -/
def LogicType.gate? : LogicType → Option (Op2 × Bool)
  | .and => some (.and, false)
  | .nand => some (.and, true)
  | .or => some (.or, false)
  | .nor => some (.or, true)
  | .xor => some (.xor, false)
  | .xnor => some (.xor, true)
  | _ => none

/-- What a gate gives its output, of `w` bits, from the values of its inputs. -/
def LogicType.eval (t : LogicType) (w : Nat) (xs : List (BitVec w)) : Option (BitVec w) :=
  match t, xs with
  | .buf, [x] | .buft, [x] | .bufz, [x] => some x
  | .not, [x] => some (~~~x)
  | .pulldown, [] => some 0
  | .pullup, [] => some (BitVec.allOnes w)
  | t, x :: y :: xs =>
      t.gate?.map fun (f, inverted) => invertIf inverted ((y :: xs).foldl f.apply x)
  | _, _ => none

/-- A gate does what it is for. -/
def NetLogic.Holds (vals : Values width) (g : NetLogic N) : Prop :=
  match g.pins with
  | [] => False
  | o :: ins => g.type.eval (width o) (ins.map fun n => (vals n).setWidth _) = some (vals o)

/-- What an object that drives a nexus does. -/
def NexusObject.Drives (vals : Values width) (n : N) : NexusObject N S → Prop
  | .lpm l => l.Holds vals
  | .con c => vals n = (fill c.bits).setWidth _
  | .log g => g.Holds vals
  | .sig _ => True

namespace Netlist

variable (nl : Netlist N S)

/-- All drivers of the nexus do what they are for. -/
def Obeys (vals : Values width) (n : N) : Prop :=
  ∀ p ∈ nl.ptrs n, p.isHiZ = false → p.object.Drives vals n

/-- The signal is declared and on the nexus. -/
def IsNamed (n : N) (s : S) : Prop :=
  nl.isLocal s = false ∧ ∃ p ∈ nl.ptrs n, p.object = .sig s

/-- The nexus has a declared signal. -/
def Named (n : N) : Prop := ∃ s, nl.IsNamed n s

/-! ## Well-formed netlists -/

end Netlist

/-- The operands and the output of a device fit, and it is one that has a
term. -/
def Lpm.WellTyped (width : N → Nat) (l : Lpm N) : Prop :=
  match l.type, l.data, l.sel with
  | .add, [a, b], none | .sub, [a, b], none | .mult, [a, b], none
  | .shiftl, [a, b], none | .shiftr, [a, b], none => width a = width l.q ∧ width b = width l.q
  | .cmpEq, [a, b], none | .cmpNe, [a, b], none | .cmpGe, [a, b], none
  | .cmpGt, [a, b], none => width b = width a ∧ width l.q = 1
  | .concat, d :: ds, none | .concatz, d :: ds, none => concatWidth width (d :: ds) = width l.q
  | .mux, [a, b], some c => width a = width l.q ∧ width b = width l.q ∧ width c = 1
  | .partVp, [a], none => l.width = width l.q ∧ 0 < l.width ∧ l.base + l.width ≤ width a
  | .partPv, [a], none => l.width = width a ∧ 0 < l.width ∧ l.base + l.width ≤ width l.q
  | .reAnd, [_], none | .reNand, [_], none | .reOr, [_], none | .reNor, [_], none =>
      width l.q = 1
  | .rep, [a], none => 0 < l.size ∧ width a * l.size = width l.q
  | _, _, _ => False

/-- A gate of one or two inputs as wide as its output. -/
def NetLogic.WellTyped (width : N → Nat) (g : NetLogic N) : Prop :=
  match g.type, g.pins with
  | .buf, [o, a] | .buft, [o, a] | .bufz, [o, a] | .not, [o, a] => width a = width o
  | .and, [o, a, b] | .nand, [o, a, b] | .or, [o, a, b] | .nor, [o, a, b] | .xor, [o, a, b]
  | .xnor, [o, a, b] => width a = width o ∧ width b = width o
  | .pulldown, [o] | .pullup, [o] => g.width = width o ∧ 0 < g.width
  | _, _ => False

theorem Lpm.WellTyped.partVp {l : Lpm N} (h : l.WellTyped width) (htype : l.type = .partVp) :
    ∃ a, l.data = [a] ∧ l.sel = none ∧ l.width = width l.q ∧ 0 < l.width ∧
      l.base + l.width ≤ width a := by
  unfold Lpm.WellTyped at h
  split at h
  case h_13 a _ hdata hsel => exact ⟨a, hdata, hsel, h⟩
  all_goals simp_all

theorem Lpm.Holds.partVp {vals : Values width} {l : Lpm N} (h : l.Holds vals)
    (htype : l.type = .partVp) {a : N} (hdata : l.data = [a]) (hsel : l.sel = none) :
    vals l.q = (vals a).extractLsb' l.base (width l.q) := by
  rw [Lpm.holds_iff (by simp [htype])] at h
  simpa [Lpm.eval, htype, hdata, hsel] using h.symm

theorem NetLogic.WellTyped.bufz {g : NetLogic N} (h : g.WellTyped width) (htype : g.type = .bufz) :
    ∃ o a, g.pins = [o, a] ∧ width a = width o := by
  unfold NetLogic.WellTyped at h
  split at h <;> simp_all

theorem NetLogic.Holds.bufz {vals : Values width} {g : NetLogic N} (h : g.Holds vals)
    (htype : g.type = .bufz) {o a : N} (hpins : g.pins = [o, a]) :
    vals o = (vals a).setWidth (width o) := by
  unfold NetLogic.Holds at h
  simp only [hpins, htype, LogicType.eval, List.map_cons, List.map_nil, Option.some.injEq] at h
  exact h.symm

theorem Lpm.WellTyped.partPv {l : Lpm N} (h : l.WellTyped width) (htype : l.type = .partPv) :
    ∃ a, l.data = [a] ∧ l.sel = none ∧ l.width = width a ∧ 0 < l.width ∧
      l.base + l.width ≤ width l.q := by
  unfold Lpm.WellTyped at h
  split at h
  case h_14 a _ hdata hsel => exact ⟨a, hdata, hsel, h⟩
  all_goals simp_all

namespace Netlist

variable (nl : Netlist N S)

/-- The signal stands for all of the nexus: it is a scalar, declared from the
highest bit down to bit zero. -/
structure Spans (width : N → Nat) (n : N) (s : S) : Prop where
  isArray : (nl.decl s).isArray = false
  width : (nl.decl s).width = width n
  lsb : (nl.range s).lsb = 0
  msb : 0 ≤ (nl.range s).msb

/-- What the compiler sees to, and the devices that have terms. -/
structure WellFormed (width : N → Nat) : Prop where
  /-- Signals are on the nexuses that they have. -/
  nex : ∀ n, ∀ p ∈ nl.ptrs n, ∀ s, p.object = .sig s → nl.nex s p.pin = n
  /-- The signals of the compiler are no ports and do not drive. -/
  isLocal : ∀ n, ∀ p ∈ nl.ptrs n, ∀ s, p.object = .sig s → nl.isLocal s = true →
    p.isHiZ = true ∧ nl.port s ≠ .input
  spans : ∀ n s, nl.IsNamed n s → nl.Spans width n s
  /-- What drives a nexus is there with its output. -/
  lpm : ∀ n, ∀ p ∈ nl.ptrs n, p.isHiZ = false → ∀ l, p.object = .lpm l → l ∈ nl.lpms ∧ l.q = n
  log : ∀ n, ∀ p ∈ nl.ptrs n, p.isHiZ = false → ∀ g, p.object = .log g →
    g ∈ nl.logics ∧ g.pins[0]? = some n
  lpm_drives : ∀ l ∈ nl.lpms, ∃ p ∈ nl.ptrs l.q, p.isHiZ = false ∧ p.object = .lpm l
  log_drives : ∀ g ∈ nl.logics, ∀ n, g.pins[0]? = some n →
    ∃ p ∈ nl.ptrs n, p.isHiZ = false ∧ p.object = .log g
  /-- Constants drive; they are logic and as wide as their nexus. -/
  con : ∀ n, ∀ p ∈ nl.ptrs n, ∀ c, p.object = .con c →
    p.isHiZ = false ∧ c.isLogic = true ∧ c.bits ≠ [] ∧ c.bits.length = width n
  lpmTyped : ∀ l ∈ nl.lpms, l.WellTyped width
  logTyped : ∀ g ∈ nl.logics, g.WellTyped width
  /-- Some bits are given to declared nexuses only. -/
  partPv : ∀ l ∈ nl.lpms, l.type = .partPv → nl.isLocalNexus l.q = false

/-- A select of what is no select of a signal takes all of it. -/
def SelectsWhole (width : N → Nat) : Prop :=
  ∀ l ∈ nl.lpms, l.type = .partVp → ∀ a, l.data = [a] → ∀ fuel base,
    nl.nexusIsSignal fuel a l.base = some (none, base) → width a = width l.q

/-- A nexus without a declared signal has one driver. -/
def Driven : Prop := ∀ n, ¬ nl.Named n → ∃ p, (nl.ptrs n).filter (fun p => !p.isHiZ) = [p]

/-- The current versions of the declared signals carry the values. -/
def Carries (vals : Values width) (ρ : Valuation) (st : SigState S) : Prop :=
  ∀ n s, nl.IsNamed n s → Denotes ρ (sigTerm nl.decl st s .curr) (vals n)

end Netlist

/-! ## Terms of devices -/

section Terms

variable {ρ : Valuation} {vals : Values width}

theorem mkConcat_append {ts : List TermT} (h : ts ≠ []) (t : TermT) :
    mkConcat (ts ++ [t]) = mkConcat2 (mkConcat ts) t := by
  cases ts with
  | nil => exact absurd rfl h
  | cons u us => simp [mkConcat, List.foldl_append]

theorem append_eq_ofNat {w v : Nat} (x : BitVec w) (n : Nat) :
    (BitVec.ofNat v n ++ x).setWidth (w + v) = BitVec.ofNat (w + v) (x.toNat + 2 ^ w * n) := by
  have hx := x.isLt
  have key (m : Nat) : (x.toNat + 2 ^ w * m) % 2 ^ (w + v) = x.toNat + 2 ^ w * (m % 2 ^ v) := by
    rw [pow_add, Nat.mod_mul, Nat.add_mul_mod_self_left, Nat.mod_eq_of_lt hx,
      Nat.add_mul_div_left _ _ (Nat.two_pow_pos w), Nat.div_eq_of_lt hx, Nat.zero_add]
  apply BitVec.eq_of_toNat_eq
  rw [BitVec.toNat_setWidth, BitVec.toNat_append, BitVec.toNat_ofNat, BitVec.toNat_ofNat,
    ← Nat.shiftLeft_add_eq_or_of_lt hx, Nat.shiftLeft_eq, Nat.add_comm _ x.toNat,
    Nat.mul_comm _ (2 ^ w), key, key, Nat.mod_mod]

/-- The first of the values is the last of the terms. -/
theorem denotes_mkConcat {ds : List N} {ts : List TermT}
    (h : List.Forall₂ (fun d t => Denotes ρ t (vals d)) ds ts) (hne : ds ≠ []) :
    Denotes ρ (mkConcat ts.reverse) (BitVec.ofNat (concatWidth width ds) (concatNat vals ds)) := by
  induction h with
  | nil => exact absurd rfl hne
  | @cons d t ds ts hd hds ih =>
      rw [List.reverse_cons]
      cases hds with
      | nil =>
          show Denotes ρ t (BitVec.ofNat (width d) ((vals d).toNat + _ * 0))
          simpa using hd
      | cons hd' hds' =>
          rw [mkConcat_append (by simp)]
          have hboth := ((ih (by simp)).concat2 hd).setWidth (Nat.add_comm _ _)
          rw [append_eq_ofNat] at hboth
          exact hboth

end Terms

end Conquest
