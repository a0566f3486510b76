import Conquest.Smt.Number
import Conquest.Smt.Select

/-!
# Nexus — expressions from the netlist

Icarus gives the continuous assignments of a flat design as a netlist: devices
and gates whose pins are connected by nexuses. A nexus without a declared signal
has one driver, and stands for the driver's expression in whatever reads it.
The emitters are recursive through the nexuses and are run here on fuel; they
have no result where `error` or an assertion ends the program, or where the
recursion does not end.
-/

namespace Conquest

open Digits

/-! ## The netlist -/

inductive SignalPort where
  | input | output | inout | internal
  deriving DecidableEq, Repr

/-- `ivl_net_const_t`; the digits start with the lowest. -/
structure NetConst where
  /-- The type is `IVL_VT_LOGIC` or `IVL_VT_BOOL`. -/
  isLogic : Bool
  bits : List Digit
  deriving DecidableEq, Repr

inductive LogicType where
  | buf | buft | bufz | not | and | nand | or | nor | xor | xnor | pulldown | pullup | other
  deriving DecidableEq, Repr

/-- `ivl_net_logic_t`: pin 0 is the output. -/
structure NetLogic (N : Type) where
  type : LogicType
  width : Nat
  isCassign : Bool
  pins : List N
  deriving DecidableEq, Repr

inductive LpmType where
  | abs | add | array | castInt | castInt2 | castReal | cmpEeq | cmpEq | cmpEqx | cmpEqz | cmpGe
  | cmpGt | cmpNe | cmpNee | concat | concatz | divide | ff | mod | mult | mux | partPv | partVp
  | pow | reAnd | reNand | reNor | reOr | reXor | reXnor | rep | sfunc | shiftl | shiftr
  | signExt | sub | substitute | ufunc | other
  deriving DecidableEq, Repr

/-- `ivl_lpm_t`. -/
structure Lpm (N : Type) where
  type : LpmType
  width : Nat
  isSigned : Bool
  /-- The number of repetitions of a `rep`. -/
  size : Nat
  /-- The offset of a part select. -/
  base : Nat
  q : N
  data : List N
  /-- The selector of a multiplexer, or the variable offset of a part select. -/
  sel : Option N
  deriving DecidableEq, Repr

inductive NexusObject (N S : Type) where
  | lpm (l : Lpm N)
  | con (c : NetConst)
  | log (g : NetLogic N)
  | sig (s : S)
  deriving DecidableEq, Repr

/-- `ivl_nexus_ptr_t`: a pin on a nexus, with its drive strengths; they are
`false` for `IVL_DR_HiZ`. -/
structure NexusPtr (N S : Type) where
  drive0 : Bool
  drive1 : Bool
  pin : Nat
  object : NexusObject N S
  deriving DecidableEq, Repr

def NexusPtr.isHiZ {N S : Type} (p : NexusPtr N S) : Bool := !p.drive1 && !p.drive0

/-- A design of one scope: the nexuses are `N`, the signals `S`. -/
structure Netlist (N S : Type) where
  decl : S → SigDecl
  range : (s : S) → SigRange (decl s).width
  /-- `ivl_signal_local`: made by the compiler. -/
  isLocal : S → Bool
  /-- `IVL_SIT_REG`. -/
  isReg : S → Bool
  port : S → SignalPort
  /-- `ivl_signal_nex`, of a word of the signal. -/
  nex : S → Nat → N
  ptrs : N → List (NexusPtr N S)
  sigs : List S
  lpms : List (Lpm N)
  logics : List (NetLogic N)

namespace Netlist

variable {N S : Type} (nl : Netlist N S)

/-! ## Names -/

/-- `is_local_nexus`: no declared signal receives from the nexus. -/
def isLocalNexus (n : N) : Bool :=
  (nl.ptrs n).all fun p =>
    match p.object with
    | .sig s => !p.isHiZ || nl.isLocal s
    | _ => true

/-- The variables of `find_signal_in_nexus` and `find_driving_signal`. -/
structure NameSearch (S : Type) where
  useSig : Option S
  isDriver : Bool
  isArray : Bool

/-- A pin in the loop of `find_signal_in_nexus`: a receiver replaces the driver
that was found first. -/
def searchName (x : NameSearch S) (p : NexusPtr N S) : Option (NameSearch S) :=
  match p.object with
  | .sig s =>
      if nl.isLocal s then if p.isHiZ then some x else none
      else
        match x.useSig with
        | some _ =>
            if x.isDriver && p.isHiZ then
              some ⟨some s, false, x.isArray || (nl.decl s).isArray⟩
            else some x
        | none => some ⟨some s, !p.isHiZ, (nl.decl s).isArray⟩
  | _ => some x

/-- `find_signal_in_nexus`. An array has no name. -/
def findSignalInNexus (n : N) : Option (Option (SMTSignal S)) := do
  let found ← (nl.ptrs n).foldlM nl.searchName ⟨none, false, false⟩
  match found.useSig with
  | none => some none
  | some s => if found.isArray then none else some (some (SMTSignal.new (nl.range s) s))

/-- `find_driving_signal`: the first declared signal that drives the nexus or is
an output. -/
def findDrivingSignal (n : N) : Option (Option (SMTSignal S)) :=
  let found := (nl.ptrs n).findSome? fun p =>
    match p.object with
    | .sig s => if nl.isLocal s || (p.isHiZ && nl.port s != .output) then none else some s
    | _ => none
  match found with
  | none => some none
  | some s => if (nl.decl s).isArray then none else some (some (SMTSignal.new (nl.range s) s))

/-- `emit_name_of_nexus`. A nexus without a name ends in the `error` of
`find_const_nexus`. -/
def emitNameOfNexus (n : N) (allowUd : Bool) : Option (SMTSignal S) := do
  match ← nl.findSignalInNexus n with
  | some sig => some sig
  | none => if allowUd then ← nl.findDrivingSignal n else none

/-! ## Selects -/

/-- A pin in the loop of `find_local_signal`, which asserts that it finds one at
most. -/
def searchLocal (sig : Option S) (p : NexusPtr N S) : Option (Option S) :=
  match p.object with
  | .sig s =>
      if nl.isLocal s && nl.port s != .input then some sig
      else if sig.isSome then none else some (some s)
  | _ => some sig

/-- `find_local_signal`. -/
def findLocalSignal (n : N) : Option (Option S) := (nl.ptrs n).foldlM nl.searchLocal none

/-- The variables of `nexus_is_signal`; of the drivers it asserts that there is
one of a kind. -/
structure Sources (S : Type) where
  hasLpm : Bool
  hasConst : Bool
  hasLogic : Bool
  sig : Option S
  base : Int

/-- A driver in the loop of `nexus_is_signal`; selects and `BUFZ` gates are looked
through by `rec`. -/
def scanSource (rec : N → Int → Option (Option S × Int)) (x : Sources S) (p : NexusPtr N S) :
    Option (Sources S) :=
  if p.isHiZ then some x
  else
    match p.object with
    | .lpm l =>
        if x.hasLpm then none
        else if l.type = .partVp then do
          match ← rec (← l.data[0]?) x.base with
          | (some s, base) =>
              if x.sig.isSome then none else some { x with sig := some s, base := base + l.base }
          | (none, base) => some { x with hasLpm := true, base := base }
        else some { x with hasLpm := true }
    | .con _ => if x.hasConst then none else some { x with hasConst := true }
    | .log g =>
        if x.hasLogic then none
        else if g.type = .bufz then
          if g.pins.length = 2 then do
            match ← rec (← g.pins[1]?) x.base with
            | (some s, base) =>
                if x.sig.isSome then none else some { x with sig := some s, base := base }
            | (none, base) => some { x with base := base }
          else none
        else some { x with hasLogic := true }
    | .sig s => if x.sig.isSome then none else some { x with sig := some s }

/-- `nexus_is_signal`: the signal of which the nexus is a select, and `base` with
the offsets on the way added. -/
def nexusIsSignal : Nat → N → Int → Option (Option S × Int)
  | 0, _, _ => none
  | fuel + 1, n, base => do
      match ← nl.findLocalSignal n with
      | some s => some (some s, base)
      | none =>
          let x ← (nl.ptrs n).foldlM (scanSource (nexusIsSignal fuel))
            ⟨false, false, false, none, base⟩
          some (x.sig, x.base)

/-! ## Expressions -/

/-- The variables of `emit_nexus_as_ca`. -/
structure Drivers (N S : Type) where
  mustBeSig : Bool
  lpm : Option (Lpm N)
  netConst : Option NetConst
  nlogic : Option (NetLogic N)
  sig : Option (S × Nat)

/-- A pin in the loop of `emit_nexus_as_ca`. The only pin of a nexus counts even
if it does not drive it. -/
def scanDriver (count : Nat) (x : Drivers N S) (p : NexusPtr N S) : Option (Drivers N S) :=
  if p.isHiZ && count ≠ 1 then some x
  else
    let x := if p.isHiZ then { x with mustBeSig := true } else x
    match p.object with
    | .lpm l => if x.lpm.isSome then none else some { x with lpm := some l }
    | .con c => if x.netConst.isSome then none else some { x with netConst := some c }
    | .log g => if x.nlogic.isSome then none else some { x with nlogic := some g }
    | .sig s => if x.sig.isSome then none else some { x with sig := some (s, p.pin) }

/-- `emit_const_nexus`. -/
def emitConstNexus (c : NetConst) : Option (SMTExpr S) :=
  if c.isLogic then some (.leaf (.number (SMTNumber.new c.bits))) else none

/-- `emit_pull_const`. -/
def emitPullConst (value : Digit) (width : Nat) : SMTExpr S :=
  .leaf (.number (SMTNumber.new (List.replicate width value)))

section Rec

variable (rec : N → Bool → Option (SMTExpr S))

/-- The case of a gate with an operator in `emit_logic_as_ca`. -/
def emitGate (opcode : Char) (isInverted : Bool) (g : NetLogic N) : Option (SMTExpr S) := do
  let cls ← SMTLogic.ofOpcode opcode isInverted
  if g.pins.length < 2 then none
  else some (.node (.logic cls) (← (g.pins.drop 1).mapM (rec · false)))

/-- `emit_logic_as_ca`. -/
def emitLogicAsCa (g : NetLogic N) : Option (SMTExpr S) :=
  match g.type with
  | .buf | .buft | .bufz => if g.pins.length = 2 then do rec (← g.pins[1]?) false else none
  | .not =>
      if g.pins.length = 2 then do
        let u ← SMTUnary.new.setOpcode '~'
        some (.node (.unary u) [← rec (← g.pins[1]?) false])
      else none
  | .and => emitGate rec '&' false g
  | .nand => emitGate rec '&' true g
  | .nor => emitGate rec '|' true g
  | .or => emitGate rec '|' false g
  | .xnor => emitGate rec '^' true g
  | .xor => emitGate rec '^' false g
  | .pulldown => some (emitPullConst .zero g.width)
  | .pullup => some (emitPullConst .one g.width)
  | .other => emitGate rec 'i' false g

/-- `emit_lpm_concat`: one nexus many times is a repetition. -/
def emitLpmConcat [DecidableEq N] (l : Lpm N) : Option (SMTExpr S) :=
  match l.data with
  | [] => none
  | d :: ds =>
      if ds ≠ [] ∧ ∀ e ∈ ds, d = e then do
        some (.node (.concat l.data.length) [← rec d false])
      else do some (.node (.concat 1) (← l.data.reverse.mapM (rec · true)))

/-- The case of an operator with one operand in `emit_lpm_as_ca`. -/
def emitLpmUnary (opcode : Char) (l : Lpm N) : Option (SMTExpr S) := do
  let u ← SMTUnary.new.setOpcode opcode
  some (.node (.unary u) [← rec (← l.data[0]?) false])

/-- The case of an operator with two operands in `emit_lpm_as_ca`. -/
def emitLpmBinary (isSigned : Bool) (opcode : Char) (l : Lpm N) : Option (SMTExpr S) := do
  let e ← rec (← l.data[0]?) false
  let e' ← rec (← l.data[1]?) false
  some (.node (.binary ({ SMTBinary.new with isSigned := isSigned }.setOpcode opcode)) [e, e'])

/-- `emit_lpm_part_select`, with the fuel for `nexus_is_signal`. What is not a
select of a signal is emitted as it is. -/
def emitLpmPartSelectAsCa (fuel : Nat) (l : Lpm N) : Option (SMTExpr S) := do
  match ← nl.nexusIsSignal fuel (← l.data[0]?) l.base with
  | (none, base) => if base ≠ 0 then none else rec (← l.data[0]?) false
  | (some s, base) =>
      if (nl.decl s).isArray then none
      else
        match l.sel with
        | none => do
            let sig ← emitLpmPartSelect (nl.range s) s base l.width
            some (.leaf (.signal sig))
        | some _ =>
            if l.width = 1 then none
            else some (.leaf (.signal (SMTSignal.new (nl.range s) s)))

/-- `emit_lpm_as_ca`. -/
def emitLpmAsCa [DecidableEq N] (fuel : Nat) (l : Lpm N) : Option (SMTExpr S) :=
  match l.type with
  | .add => emitLpmBinary rec false '+' l
  | .cmpEeq => none
  | .cmpEq => emitLpmBinary rec false 'e' l
  | .cmpGe => emitLpmBinary rec l.isSigned 'G' l
  | .cmpGt => emitLpmBinary rec l.isSigned '>' l
  | .cmpNe => emitLpmBinary rec false 'n' l
  | .cmpNee => none
  | .concat | .concatz => emitLpmConcat rec l
  | .divide => none
  | .mult => emitLpmBinary rec false '*' l
  | .mux => do
      let c ← rec (← l.sel) false
      let e ← rec (← l.data[1]?) false
      let e' ← rec (← l.data[0]?) false
      some (.node .ternary [c, e, e'])
  | .partPv => do rec (← l.data[0]?) true
  | .partVp => nl.emitLpmPartSelectAsCa rec fuel l
  | .pow => emitLpmBinary rec false 'p' l
  | .reAnd => emitLpmUnary rec '&' l
  | .reNand => emitLpmUnary rec 'A' l
  | .reNor => emitLpmUnary rec 'N' l
  | .reOr => emitLpmUnary rec '|' l
  | .reXor => emitLpmUnary rec '^' l
  | .reXnor => emitLpmUnary rec 'X' l
  | .rep => do some (.node (.concat l.size) [← rec (← l.data[0]?) false])
  | .shiftl => emitLpmBinary rec false 'l' l
  | .shiftr => emitLpmBinary rec false (if l.isSigned then 'R' else 'r') l
  | .sub => emitLpmBinary rec false '-' l
  | _ => some (.leaf .unspecified)

end Rec

/-- `emit_nexus_as_ca`. A nexus with nothing but one pin of a signal that does
not drive it stands for the nexus of that signal. -/
def emitNexusAsCa [DecidableEq N] : Nat → N → Bool → Option (SMTExpr S)
  | 0, _, _ => none
  | fuel + 1, n, allowUd =>
      if nl.isLocalNexus n then do
        let x ← (nl.ptrs n).foldlM (scanDriver (nl.ptrs n).length) ⟨false, none, none, none, none⟩
        match x.lpm, x.netConst, x.nlogic, x.sig with
        | some l, none, none, none =>
            if x.mustBeSig then none else nl.emitLpmAsCa (emitNexusAsCa fuel) fuel l
        | none, some c, none, none => if x.mustBeSig then none else emitConstNexus c
        | none, none, some g, none =>
            if x.mustBeSig then none else emitLogicAsCa (emitNexusAsCa fuel) g
        | none, none, none, some (s, word) =>
            if x.mustBeSig then emitNexusAsCa fuel (nl.nex s word) false
            else (nl.emitNameOfNexus n false).map fun sig => .leaf (.signal sig)
        | none, none, none, none => some (.leaf .unspecified)
        | _, _, _, _ => none
      else (nl.emitNameOfNexus n allowUd).map fun sig => .leaf (.signal sig)

/-! ## Continuous assignments -/

/-- A continuous assignment: the signal and the expression. -/
abbrev ContAssign (S : Type) := SMTSignal S × SMTExpr S

/-- `get_lpm_output`: the output, unless it is local or the type unknown. -/
def getLpmOutput (l : Lpm N) : Option N :=
  if l.type = .other then none else if nl.isLocalNexus l.q then none else some l.q

/-- `get_output_from_nexus`: the first declared signal that does not drive. -/
def getOutputFromNexus (n : N) : Option (Option S) :=
  (nl.ptrs n).foldlM (fun useSig p =>
    match p.object with
    | .sig s =>
        if nl.isLocal s then if p.isHiZ then some useSig else none
        else if p.drive1 && p.drive0 then some useSig
        else some (useSig <|> some s)
    | _ => some useSig) none

/-- The range written in `emit_lpm_part_pv`. -/
def partPvSignal (s : S) (base : Int) (width : Nat) : SMTSignal S :=
  let range := nl.range s
  let sig := SMTSignal.new range s
  if width = 1 then
    let base := if range.msb ≥ range.lsb then base + range.lsb else range.lsb - base
    { sig with msb := base, lsb := base }
  else if range.msb ≥ range.lsb then
    { sig with msb := base + range.lsb + width - 1, lsb := base + range.lsb }
  else { sig with msb := range.lsb - base - width + 1, lsb := range.lsb - base }

/-- `emit_lpm_part_pv`. -/
def emitLpmPartPv (l : Lpm N) : Option (SMTSignal S) := do
  let s ← ← nl.getOutputFromNexus l.q
  if l.sel.isSome || (nl.decl s).isArray then none
  else some (nl.partPvSignal s l.base l.width)

variable [DecidableEq N] (fuel : Nat)

/-- `emit_lpm`: the assignment to an output that has a name. -/
def emitLpm (l : Lpm N) : Option (Option (ContAssign S)) :=
  match nl.getLpmOutput l with
  | none => some none
  | some output =>
      if l.type = .ff then none
      else do
        let lval ← (if l.type = .partPv then nl.emitLpmPartPv l
          else nl.emitNameOfNexus output false)
        let rval ← nl.emitLpmAsCa (nl.emitNexusAsCa fuel) fuel l
        some (some (lval, rval))

/-- `emit_logic`, with `emit_bufz`: gates that are no assignments end in `error`. -/
def emitLogic (g : NetLogic N) : Option (Option (ContAssign S)) := do
  let output ← g.pins[0]?
  if nl.isLocalNexus output then some none
  else if g.isCassign then
    if g.pins.length = (if g.type = .not then 2 else 3) then do
      let lval ← nl.emitNameOfNexus output false
      let rval ← emitLogicAsCa (nl.emitNexusAsCa fuel) g
      some (some (lval, rval))
    else none
  else if g.type = .bufz ∧ g.pins.length = 2 then do
    let lval ← nl.emitNameOfNexus output false
    let rval ← nl.emitNexusAsCa fuel (← g.pins[1]?) false
    some (some (lval, rval))
  else none

/-- The constants on the nexus of a signal. -/
def netConsts (s : S) : List NetConst :=
  (nl.ptrs (nl.nex s 0)).filterMap fun p =>
    match p.object with
    | .con c => some c
    | _ => none

/-- `save_net_constants` over the declared nets, in `emit_scope_variables`: a net
comes once for each of its constants. -/
def netConstList : List S :=
  nl.sigs.flatMap fun s =>
    if nl.isLocal s || nl.isReg s || nl.port s == .input then []
    else List.replicate (nl.netConsts s).length s

/-- `emit_signal_net_const_as_ca`, with the number of constants of each nexus that
were emitted before. -/
def emitSignalNetConstAsCa (emitted : N → Nat) (s : S) : Option ((N → Nat) × ContAssign S) := do
  let n := nl.nex s 0
  let rval ← emitConstNexus (← (nl.netConsts s)[emitted n]?)
  some (Function.update emitted n (emitted n + 1), SMTSignal.new (nl.range s) s, rval)

/-- `emit_and_free_net_const_list`. -/
def emitNetConstList : (N → Nat) → List S → Option (List (ContAssign S))
  | _, [] => some []
  | emitted, s :: ss => do
      let (emitted, a) ← nl.emitSignalNetConstAsCa emitted s
      some (a :: (← emitNetConstList emitted ss))

/-- The continuous assignments of `emit_root`: constants, devices, gates. -/
def emitRoot : Option (List (ContAssign S)) := do
  let consts ← nl.emitNetConstList (fun _ => 0) nl.netConstList
  let lpms ← nl.lpms.mapM (nl.emitLpm fuel)
  let logics ← nl.logics.mapM (nl.emitLogic fuel)
  some (consts ++ lpms.reduceOption ++ logics.reduceOption)

end Netlist

end Conquest
