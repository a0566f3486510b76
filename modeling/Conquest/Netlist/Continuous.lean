import Mathlib.Data.Fintype.Basic
import Mathlib.Data.List.ReduceOption
import Conquest.Netlist.Preserved

/-!
# Continuous — the continuous assignments are the netlist

The values of the undeclared nexuses follow from those of the declared signals,
as the netlist has no cycles through undeclared nexuses. The continuous
assignments that are emitted for constants, devices and gates hold of the
signals exactly if these are part of a state of the netlist in which all devices
do what they are for.
-/

namespace Conquest

open Bv Digits Run Settle

variable {N S : Type} {width : N → Nat}

/-! ## Operands -/

/-- The nexuses that an object reads. -/
def NexusObject.operands : NexusObject N S → List N
  | .lpm l => l.data ++ l.sel.toList
  | .log g => g.pins.drop 1
  | _ => []

section Congr

variable {vals vals' : Values width}

theorem concatNat_congr {ds : List N} (h : ∀ m ∈ ds, vals m = vals' m) :
    concatNat vals ds = concatNat vals' ds := by
  induction ds with
  | nil => rfl
  | cons d ds ih =>
      rw [concatNat, concatNat, h d List.mem_cons_self,
        ih fun m hm => h m (List.mem_cons_of_mem _ hm)]

/-- The value of a device depends on its operands. -/
theorem Lpm.eval_congr {l : Lpm N} (h : ∀ m ∈ l.data ++ l.sel.toList, vals m = vals' m) (w : Nat) :
    l.eval vals w = l.eval vals' w := by
  have hdata : ∀ m ∈ l.data, vals m = vals' m := fun m hm => h m (List.mem_append_left _ hm)
  have hconcat := concatNat_congr hdata
  unfold Lpm.eval
  split <;> simp_all

/-- What an object gives a nexus of `w` bits. -/
def NexusObject.value (vals : Values width) (w : Nat) : NexusObject N S → Option (BitVec w)
  | .lpm l => l.eval vals w
  | .con c => some ((fill c.bits).setWidth w)
  | .log g => g.type.eval w ((g.pins.drop 1).map fun n => (vals n).setWidth w)
  | .sig _ => none

theorem NexusObject.value_congr {o : NexusObject N S} (h : ∀ m ∈ o.operands, vals m = vals' m)
    (w : Nat) : o.value vals w = o.value vals' w := by
  cases o with
  | lpm l => exact l.eval_congr h w
  | con c => rfl
  | log g =>
      simp only [NexusObject.value]
      congr 1
      exact List.map_congr_left fun n hn => by rw [h n hn]
  | sig s => rfl

end Congr

/-- A device that has a term has a value. -/
theorem Lpm.WellTyped.eval_isSome {l : Lpm N} (h : l.WellTyped width) (vals : Values width)
    (hpv : l.type ≠ .partPv) (w : Nat) : (l.eval vals w).isSome := by
  obtain ⟨type, v, isSigned, size, base, q, data, sel⟩ := l
  unfold Lpm.WellTyped at h
  split at h <;> subst_vars <;> first | rfl | contradiction

theorem NetLogic.WellTyped.eval_isSome {g : NetLogic N} (h : g.WellTyped width) {w : Nat}
    (f : N → BitVec w) : (g.type.eval w ((g.pins.drop 1).map f)).isSome := by
  obtain ⟨type, v, isCassign, pins⟩ := g
  unfold NetLogic.WellTyped at h
  split at h <;> subst_vars <;> first | rfl | contradiction

namespace Netlist

variable {nl : Netlist N S} {ρ : Valuation} {st : SigState S}

/-! ## States of the netlist -/

/-- The driver of an undeclared nexus reads the other one. -/
def Feeds (nl : Netlist N S) (m n : N) : Prop :=
  ¬ nl.Named n ∧ ∃ p ∈ nl.ptrs n, p.isHiZ = false ∧ m ∈ p.object.operands

open Classical in
/-- A declared nexus has the value that is given, another one that of its driver. -/
noncomputable def drive (nl : Netlist N S) (given : Values width) (vals : Values width) :
    Values width := fun n =>
  if nl.Named n then given n
  else
    match (nl.ptrs n).filter fun p => !p.isHiZ with
    | p :: _ => (p.object.value vals (width n)).getD 0
    | [] => 0

theorem local_drive (given : Values width) : Local nl.Feeds (nl.drive given) := by
  intro vals vals' n h
  unfold drive
  split
  · rfl
  rename_i hn
  split
  · rename_i p ps hp
    have hmem : p ∈ (nl.ptrs n).filter fun p => !p.isHiZ := by simp [hp]
    rw [List.mem_filter] at hmem
    have hdrive : p.isHiZ = false := by simpa using hmem.2
    rw [p.object.value_congr fun m hm => h m ⟨hn, p, hmem.1, hdrive, hm⟩]
  · rfl

theorem named_of_not_local {n : N} (h : nl.isLocalNexus n = false) : nl.Named n := by
  simp only [isLocalNexus, List.all_eq_false] at h
  obtain ⟨p, hp, h⟩ := h
  split at h
  · rename_i s hobject
    have hs : p.isHiZ = true ∧ nl.isLocal s = false := by simpa using h
    exact ⟨s, hs.2, p, hp, hobject⟩
  · exact absurd rfl h

/-- What drives an undeclared nexus does what it is for if the nexus has its
value. -/
theorem drives_iff_value (hwf : nl.WellFormed width) {vals : Values width} {n : N}
    (hn : ¬ nl.Named n) {p : NexusPtr N S} (hp : p ∈ nl.ptrs n) (hdrive : p.isHiZ = false) :
    p.object.Drives vals n ↔ vals n = (p.object.value vals (width n)).getD 0 := by
  cases hobject : p.object with
  | lpm l =>
      obtain ⟨hl, rfl⟩ := hwf.lpm n p hp hdrive l hobject
      have hpv : l.type ≠ .partPv := fun hpv =>
        hn (named_of_not_local (hwf.partPv l hl hpv))
      obtain ⟨x, hx⟩ := Option.isSome_iff_exists.mp
        ((hwf.lpmTyped l hl).eval_isSome vals hpv (width l.q))
      simp only [NexusObject.Drives, NexusObject.value, Lpm.holds_iff hpv, hx, Option.getD_some,
        Option.some.injEq]
      exact eq_comm
  | con c => exact Iff.rfl
  | log g =>
      obtain ⟨hg, hpin⟩ := hwf.log n p hp hdrive g hobject
      have htyped := (hwf.logTyped g hg).eval_isSome fun m => (vals m).setWidth (width n)
      obtain ⟨x, hx⟩ := Option.isSome_iff_exists.mp htyped
      cases hpins : g.pins with
      | nil => simp [hpins] at hpin
      | cons o ins =>
          obtain rfl : o = n := by simpa [hpins] using hpin
          simp only [NexusObject.Drives, NetLogic.Holds, NexusObject.value, hpins] at hx ⊢
          rw [List.drop_one, List.tail_cons] at hx ⊢
          rw [hx, Option.getD_some, Option.some.injEq]
          exact eq_comm
  | sig s =>
      cases hlocal : nl.isLocal s
      · exact absurd ⟨s, hlocal, p, hp, hobject⟩ hn
      · rw [(hwf.isLocal n p hp s hobject hlocal).1] at hdrive
        cases hdrive

/-- An undeclared nexus has the value of its driver exactly if this does what it
is for. -/
theorem eq_drive_iff_obeys (hwf : nl.WellFormed width) (hdriven : nl.Driven)
    (given vals : Values width) {n : N} (hn : ¬ nl.Named n) :
    vals n = nl.drive given vals n ↔ nl.Obeys vals n := by
  obtain ⟨p, honly⟩ := hdriven n hn
  obtain ⟨hp, hdrive⟩ := mem_of_filter_eq honly
  have hall : nl.Obeys vals n ↔ p.object.Drives vals n := by
    constructor
    · exact fun h => h p hp hdrive
    · intro h q hq hqdrive
      have hmem : q ∈ (nl.ptrs n).filter fun p => !p.isHiZ := by simp [hq, hqdrive]
      obtain rfl : q = p := by simpa [honly] using hmem
      exact h
  rw [hall, drives_iff_value hwf hn hp hdrive, drive, if_neg hn, honly]

/-- The values of the declared nexuses decide those of all others. -/
theorem existsUnique_obeys (hwf : nl.WellFormed width) (hdriven : nl.Driven)
    (hacyclic : WellFounded nl.Feeds) (given : Values width) :
    ∃! vals : Values width, (∀ n, nl.Named n → vals n = given n) ∧
      ∀ n, ¬ nl.Named n → nl.Obeys vals n := by
  have hiff (vals : Values width) : Settled (nl.drive given) vals ↔
      (∀ n, nl.Named n → vals n = given n) ∧ ∀ n, ¬ nl.Named n → nl.Obeys vals n := by
    constructor
    · intro h
      refine ⟨fun n hn => ?_, fun n hn => (eq_drive_iff_obeys hwf hdriven given vals hn).mp (h n)⟩
      rw [h n, drive, if_pos hn]
    · rintro ⟨hnamed, hobeys⟩ n
      by_cases hn : nl.Named n
      · rw [hnamed n hn, drive, if_pos hn]
      · exact (eq_drive_iff_obeys hwf hdriven given vals hn).mpr (hobeys n hn)
  simpa only [hiff] using existsUnique_settled hacyclic (local_drive given)

/-! ## Equations -/

/-- `get_current_term` of an assignment. -/
def currentTerm (nl : Netlist N S) (st : SigState S) (a : ContAssign S) : TermT :=
  mkEq ((SMTExpr.leaf (.signal a.1)).evalTerm nl.decl st .curr) (a.2.evalTerm nl.decl st .curr)

theorem getOutputFromNexus_isNamed {n : N} {s : S} (h : nl.getOutputFromNexus n = some (some s)) :
    nl.IsNamed n s := by
  have hinv : ∀ s', some s = some s' → nl.IsNamed n s' := by
    apply foldlM_inv (fun x : Option S => ∀ s', x = some s' → nl.IsNamed n s') h
    · simp
    · intro t p hp v ht hv s' hs'
      cases t <;> grind [IsNamed]
  exact hinv s rfl

/-- The left-hand side of a part select stands for its bits. -/
theorem partPvSignal_hasValue {vals : Values width} {n : N} {s : S}
    (hspans : nl.Spans width n s)
    (hcarries : Denotes ρ (sigTerm nl.decl st s .curr) (vals n)) {base w : Nat} (hw : 0 < w)
    (hin : base + w ≤ width n) :
    nl.HasValue ρ st (.leaf (.signal (nl.partPvSignal s base w)))
      ((vals n).extractLsb' base w) := by
  have hlsb := hspans.lsb
  have hrange : (nl.range s).msb ≥ (nl.range s).lsb := by
    rw [hlsb]
    exact hspans.msb
  have hemitted : Emitted s (nl.range s) base w (nl.partPvSignal s base w) := by
    simp only [partPvSignal, if_pos hrange]
    split
    · rename_i hone
      subst hone
      exact ⟨rfl, rfl, by simp, .inr rfl⟩
    · exact ⟨rfl, rfl, by simp only []; omega, .inr rfl⟩
  rw [HasValue, SMTExpr.evalTerm, SMTLeaf.evalTerm, hemitted.evalTerm, hlsb, Int.add_zero]
  split
  · rename_i hall
    have hbase : base = 0 := by
      rw [hall, hspans.width] at hin
      omega
    subst hbase
    exact denotes_whole hcarries (hall.trans hspans.width)
  · exact denotes_bvextract hcarries hw ⟨by omega, by omega⟩

variable [DecidableEq N]

/-- What `emit_lpm` does: nothing, or an assignment to the output. -/
theorem emitLpm_cases {fuel : Nat} {l : Lpm N} {r : Option (ContAssign S)}
    (h : nl.emitLpm fuel l = some r) :
    (nl.getLpmOutput l = none ∧ r = none) ∨ ∃ lval rval, r = some (lval, rval) ∧
      (if l.type = .partPv then nl.emitLpmPartPv l else nl.emitNameOfNexus l.q false) =
        some lval ∧
      nl.emitLpmAsCa (nl.emitNexusAsCa fuel) fuel l = some rval := by
  unfold emitLpm at h
  split at h
  case h_1 hnone =>
    cases h
    exact .inl ⟨hnone, rfl⟩
  case h_2 output houtput =>
    obtain rfl : output = l.q := by
      unfold getLpmOutput at houtput
      grind
    split at h
    · cases h
    · obtain ⟨lval, hlval, h⟩ := Option.bind_eq_some_iff.mp h
      obtain ⟨rval, hrval, h⟩ := Option.bind_eq_some_iff.mp h
      cases h
      exact .inr ⟨lval, rval, rfl, hlval, hrval⟩

/-- What `emit_logic` does: nothing, or an assignment to the output. -/
theorem emitLogic_cases {fuel : Nat} {g : NetLogic N} {r : Option (ContAssign S)}
    (h : nl.emitLogic fuel g = some r) : ∃ o, g.pins[0]? = some o ∧
      ((nl.isLocalNexus o = true ∧ r = none) ∨ ∃ lval rval, r = some (lval, rval) ∧
        nl.emitNameOfNexus o false = some lval ∧
        emitLogicAsCa (nl.emitNexusAsCa fuel) g = some rval) := by
  simp only [emitLogic, Option.bind_eq_bind, Option.bind_eq_some_iff] at h
  obtain ⟨o, ho, h⟩ := h
  refine ⟨o, ho, ?_⟩
  split at h
  · rename_i hlocal
    cases h
    exact .inl ⟨hlocal, rfl⟩
  split at h
  · by_cases hcount : g.pins.length = if g.type = .not then 2 else 3
    · rw [if_pos hcount] at h
      obtain ⟨lval, hlval, h⟩ := Option.bind_eq_some_iff.mp h
      obtain ⟨rval, hrval, h⟩ := Option.bind_eq_some_iff.mp h
      cases h
      exact .inr ⟨lval, rval, rfl, hlval, hrval⟩
    · rw [if_neg hcount] at h
      cases h
  · split at h
    · rename_i hbufz
      obtain ⟨lval, hlval, h⟩ := Option.bind_eq_some_iff.mp h
      obtain ⟨d, hd, h⟩ := Option.bind_eq_some_iff.mp h
      obtain ⟨rval, hrval, h⟩ := Option.bind_eq_some_iff.mp h
      cases h
      refine .inr ⟨lval, rval, rfl, hlval, ?_⟩
      rw [emitLogicAsCa, hbufz.1, if_pos hbufz.2, hd]
      exact hrval
    · cases h

section Equations

variable {vals : Values width} (hwf : nl.WellFormed width) (hwhole : nl.SelectsWhole width)
  (hdriven : nl.Driven) (hcarries : nl.Carries vals ρ st)
  (hobeys : ∀ n, ¬ nl.Named n → nl.Obeys vals n) {fuel : Nat} {a : ContAssign S}

include hwf hwhole hdriven hcarries hobeys

/-- The assignment of a device holds exactly if the device does what it is for. -/
theorem emitLpm_holds_iff {l : Lpm N} (hl : l ∈ nl.lpms)
    (h : nl.emitLpm fuel l = some (some a)) :
    Holds ρ (nl.currentTerm st a) ↔ l.Holds vals := by
  have hrec := emitNexusAsCa_denotes hwf hwhole hdriven hcarries hobeys fuel
  have htyped := hwf.lpmTyped l hl
  obtain ⟨-, h⟩ | ⟨lval, rval, heq, hlval, hrval⟩ := emitLpm_cases h
  · cases h
  obtain rfl := Option.some.inj heq
  by_cases hpv : l.type = .partPv
  · obtain ⟨d, hdata, hsel, hwidth, hpos, hin⟩ := htyped.partPv hpv
    simp only [hpv, if_true, emitLpmPartPv, hsel, Option.isSome_none, Bool.false_or,
      Option.bind_eq_bind, Option.bind_eq_some_iff] at hlval
    obtain ⟨_, hfound, s, rfl, hlval⟩ := hlval
    have hnamed := getOutputFromNexus_isNamed hfound
    have hspans := hwf.spans _ s hnamed
    simp only [hspans.isArray, Bool.false_eq_true, if_false, Option.some.injEq] at hlval
    subst hlval
    simp only [emitLpmAsCa, hpv, hdata, List.getElem?_cons_zero, Option.bind_eq_bind,
      Option.bind_some] at hrval
    have hleft := partPvSignal_hasValue hspans (hcarries _ s hnamed) hpos hin
    have hright := (hrec d true rval hrval).setWidth hwidth.symm
    rw [currentTerm, hleft.holds_mkEq_iff_eq hright]
    simp [Lpm.Holds, hpv, hdata]
  · rw [if_neg hpv] at hlval
    have hleft := emitNameOfNexus_hasValue hwf hcarries hlval
    rw [Lpm.holds_iff hpv]
    by_cases hvp : l.type = .partVp
    · obtain ⟨d, hdata, hsel, -⟩ := htyped.partVp hvp
      have heval : l.eval vals (width l.q) = some ((vals d).extractLsb' l.base (width l.q)) := by
        simp [Lpm.eval, hvp, hdata, hsel]
      simp only [emitLpmAsCa, hvp] at hrval
      have hright :=
        emitLpmPartSelectAsCa_denotes hwf hwhole hcarries hobeys hrec hl hvp hdata hrval
      rw [currentTerm, hleft.holds_mkEq_iff_eq hright, heval, Option.some.injEq, eq_comm]
    · obtain ⟨x, heval, hright⟩ := emitLpmAsCa_denotes hrec htyped hpv hvp hrval
      rw [currentTerm, hleft.holds_mkEq_iff_eq hright, heval, Option.some.injEq, eq_comm]

/-- The assignment of a gate holds exactly if the gate does what it is for. -/
theorem emitLogic_holds_iff {g : NetLogic N} (hg : g ∈ nl.logics)
    (h : nl.emitLogic fuel g = some (some a)) :
    Holds ρ (nl.currentTerm st a) ↔ g.Holds vals := by
  have hrec := emitNexusAsCa_denotes hwf hwhole hdriven hcarries hobeys fuel
  obtain ⟨o, ho, ⟨-, h⟩ | ⟨lval, rval, heq, hlval, hrval⟩⟩ := emitLogic_cases h
  · cases h
  obtain rfl := Option.some.inj heq
  have hleft := emitNameOfNexus_hasValue hwf hcarries hlval
  obtain ⟨o', ins, hpins, x, hx, hright⟩ := emitLogicAsCa_denotes hrec (hwf.logTyped g hg) hrval
  obtain rfl : o' = o := by simpa [hpins] using ho
  rw [currentTerm, hleft.holds_mkEq_iff_eq hright]
  simp only [NetLogic.Holds, hpins, hx, Option.some.injEq]
  exact eq_comm

end Equations

/-! ## Constants -/

section Constants

/-- A declared net that is no input. -/
def IsNet (nl : Netlist N S) (s : S) : Prop :=
  (nl.isLocal s || nl.isReg s || nl.port s == .input) = false

omit [DecidableEq N] in
theorem mem_netConsts {s : S} {c : NetConst} :
    c ∈ nl.netConsts s ↔ ∃ p ∈ nl.ptrs (nl.nex s 0), p.object = .con c := by
  simp only [netConsts, List.mem_filterMap]
  constructor
  · rintro ⟨p, hp, h⟩
    exact ⟨p, hp, by grind⟩
  · rintro ⟨p, hp, h⟩
    exact ⟨p, hp, by simp [h]⟩

omit [DecidableEq N] in
theorem mem_netConstList {s : S} (h : s ∈ nl.netConstList) : s ∈ nl.sigs ∧ nl.IsNet s := by
  simp only [netConstList, List.mem_flatMap] at h
  obtain ⟨t, ht, h⟩ := h
  split at h
  · cases h
  · rename_i hnet
    obtain rfl := List.eq_of_mem_replicate h
    exact ⟨ht, by simpa [IsNet] using hnet⟩

/-- A net is saved once for each of its constants. -/
theorem length_le_count {s : S} (hs : s ∈ nl.sigs) (hnet : nl.IsNet s) :
    (nl.netConsts s).length ≤ nl.netConstList.countP fun t => nl.nex t 0 = nl.nex s 0 := by
  have hsub : List.Sublist (List.replicate (nl.netConsts s).length s) nl.netConstList := by
    rw [netConstList, List.flatMap_def]
    apply List.sublist_flatten_of_mem
    rw [List.mem_map]
    exact ⟨s, hs, by rw [if_neg (by simpa [IsNet] using hnet)]⟩
  have hcount : (List.replicate (nl.netConsts s).length s).countP
      (fun t => nl.nex t 0 = nl.nex s 0) ≤ _ := hsub.countP_le
  simpa [List.countP_replicate] using hcount

/-- Every emitted constant is on the nexus of a saved net. -/
theorem emitNetConstList_sound {emitted : N → Nat} {ss : List S} {as : List (ContAssign S)}
    (h : nl.emitNetConstList emitted ss = some as) : ∀ a ∈ as, ∃ s ∈ ss, ∃ c ∈ nl.netConsts s,
      a.1 = SMTSignal.new (nl.range s) s ∧ emitConstNexus c = some a.2 := by
  induction ss generalizing emitted as with
  | nil =>
      cases h
      simp
  | cons s ss ih =>
      simp only [emitNetConstList, emitSignalNetConstAsCa, Option.bind_eq_bind,
        Option.bind_eq_some_iff, Option.some.injEq] at h
      obtain ⟨_, ⟨c, hc, rval, hrval, rfl⟩, as', has', rfl⟩ := h
      intro a ha
      rcases List.mem_cons.mp ha with rfl | ha
      · exact ⟨s, List.mem_cons_self, c, List.mem_of_getElem? hc, rfl, hrval⟩
      · obtain ⟨t, ht, hrest⟩ := ih has' a ha
        exact ⟨t, List.mem_cons_of_mem _ ht, hrest⟩

/-- The constants of a nexus are emitted one after the other. -/
theorem emitNetConstList_complete {emitted : N → Nat} {ss : List S} {as : List (ContAssign S)}
    (h : nl.emitNetConstList emitted ss = some as) {s : S} {k : Nat} {c : NetConst}
    (hc : (nl.netConsts s)[k]? = some c) (hlow : emitted (nl.nex s 0) ≤ k)
    (hhigh : k < emitted (nl.nex s 0) + ss.countP fun t => nl.nex t 0 = nl.nex s 0) :
    ∃ a ∈ as, ∃ t ∈ ss, nl.nex t 0 = nl.nex s 0 ∧ a.1 = SMTSignal.new (nl.range t) t ∧
      emitConstNexus c = some a.2 := by
  induction ss generalizing emitted as with
  | nil =>
      rw [List.countP_nil] at hhigh
      omega
  | cons t ss ih =>
      simp only [emitNetConstList, emitSignalNetConstAsCa, Option.bind_eq_bind,
        Option.bind_eq_some_iff, Option.some.injEq] at h
      obtain ⟨_, ⟨c', hc', rval, hrval, rfl⟩, as', has', rfl⟩ := h
      -- what the rest emits
      have hrest (hlow' : Function.update emitted (nl.nex t 0) (emitted (nl.nex t 0) + 1)
            (nl.nex s 0) ≤ k)
          (hhigh' : k < Function.update emitted (nl.nex t 0) (emitted (nl.nex t 0) + 1)
            (nl.nex s 0) + ss.countP fun t => nl.nex t 0 = nl.nex s 0) :
          ∃ a ∈ (SMTSignal.new (nl.range t) t, rval) :: as', ∃ u ∈ t :: ss,
            nl.nex u 0 = nl.nex s 0 ∧ a.1 = SMTSignal.new (nl.range u) u ∧
              emitConstNexus c = some a.2 := by
        obtain ⟨a, ha, u, hu, hprops⟩ := ih has' hlow' hhigh'
        exact ⟨a, List.mem_cons_of_mem _ ha, u, List.mem_cons_of_mem _ hu, hprops⟩
      rw [List.countP_cons] at hhigh
      by_cases hts : nl.nex t 0 = nl.nex s 0
      · rw [if_pos (by simpa using hts)] at hhigh
        by_cases hk : k = emitted (nl.nex s 0)
        · -- this is its turn
          have hconsts : nl.netConsts t = nl.netConsts s := by rw [netConsts, netConsts, hts]
          rw [hconsts, hts, ← hk, hc] at hc'
          cases hc'
          exact ⟨_, List.mem_cons_self, t, List.mem_cons_self, hts, rfl, hrval⟩
        · rw [hts] at hrest
          exact hrest (by rw [Function.update_self]; omega) (by rw [Function.update_self]; omega)
      · rw [if_neg (by simpa using hts)] at hhigh
        exact hrest (by rwa [Function.update_of_ne (Ne.symm hts)])
          (by rwa [Function.update_of_ne (Ne.symm hts)])

omit [DecidableEq N] in
/-- The assignment of a constant holds exactly if its net has the value. -/
theorem constant_holds_iff {vals : Values width} (hwf : nl.WellFormed width)
    (hcarries : nl.Carries vals ρ st) {s : S} (hs : nl.IsNamed (nl.nex s 0) s) {c : NetConst}
    (hc : c ∈ nl.netConsts s) {rval : SMTExpr S} (hrval : emitConstNexus c = some rval) :
    Holds ρ (nl.currentTerm st (SMTSignal.new (nl.range s) s, rval)) ↔
      vals (nl.nex s 0) = (fill c.bits).setWidth _ := by
  obtain ⟨p, hp, hobject⟩ := mem_netConsts.mp hc
  obtain ⟨-, hlogic, hne, hlength⟩ := hwf.con _ p hp c hobject
  rw [emitConstNexus, if_pos hlogic] at hrval
  cases hrval
  exact (signal_hasValue (hwf.spans _ s hs) (hcarries _ s hs)).holds_mkEq_iff_eq
    (denotes_number nl ρ st hne hlength)

end Constants

/-! ## The module -/

/-- A well-formed netlist in which part selects of no signal are whole. Its
undeclared nexuses have one driver each and no cycles, and its declared nexuses are
not driven behind the back of a register. -/
structure Plain (nl : Netlist N S) (width : N → Nat) : Prop extends nl.WellFormed width where
  whole : nl.SelectsWhole width
  driven : nl.Driven
  acyclic : WellFounded nl.Feeds
  lpmReceived : ∀ l ∈ nl.lpms, nl.Named l.q → nl.isLocalNexus l.q = false
  logReceived : ∀ g ∈ nl.logics, ∀ n, g.pins[0]? = some n → nl.Named n → nl.isLocalNexus n = false
  net : ∀ s ∈ nl.sigs, nl.IsNet s → nl.IsNamed (nl.nex s 0) s
  constant : ∀ n, ∀ p ∈ nl.ptrs n, ∀ c, p.object = .con c → nl.Named n →
    ∃ s ∈ nl.sigs, nl.IsNet s ∧ nl.nex s 0 = n

/-- All drivers of all nexuses do what they are for. -/
def Consistent (nl : Netlist N S) (vals : Values width) : Prop := ∀ n, nl.Obeys vals n

/-- The declared signals of a nexus have one value, of its width. -/
def HasValues (nl : Netlist N S) (width : N → Nat) (ρ : Valuation) (st : SigState S) : Prop :=
  ∀ n, nl.Named n → ∃ x : BitVec (width n), ∀ s, nl.IsNamed n s →
    Denotes ρ (sigTerm nl.decl st s .curr) x

/-- The results of a traversal, and what they are results of. -/
theorem mem_of_mapM {α β : Type} {f : α → Option β} {xs : List α} {ys : List β}
    (h : xs.mapM f = some ys) :
    (∀ x ∈ xs, ∃ y ∈ ys, f x = some y) ∧ ∀ y ∈ ys, ∃ x ∈ xs, f x = some y := by
  induction xs generalizing ys with
  | nil =>
      obtain rfl : ys = [] := by simpa using h.symm
      simp
  | cons x xs ih =>
      simp only [List.mapM_cons, Option.pure_def, Option.bind_eq_bind, Option.bind_eq_some_iff,
        Option.some.injEq] at h
      obtain ⟨y, hy, ys', hys', rfl⟩ := h
      obtain ⟨hxs, hys⟩ := ih hys'
      constructor
      · intro x' hx'
        rcases List.mem_cons.mp hx' with rfl | hx'
        · exact ⟨y, List.mem_cons_self, hy⟩
        · obtain ⟨y', hy', h'⟩ := hxs x' hx'
          exact ⟨y', List.mem_cons_of_mem _ hy', h'⟩
      · intro y' hy'
        rcases List.mem_cons.mp hy' with rfl | hy'
        · exact ⟨x, List.mem_cons_self, hy⟩
        · obtain ⟨x', hx', h'⟩ := hys y' hy'
          exact ⟨x', List.mem_cons_of_mem _ hx', h'⟩

section Root

variable {fuel : Nat} {assigns : List (ContAssign S)}

/-- Where the assignments come from. -/
theorem mem_emitRoot (h : nl.emitRoot fuel = some assigns) {a : ContAssign S} (ha : a ∈ assigns) :
    (∃ s ∈ nl.netConstList, ∃ c ∈ nl.netConsts s,
        a.1 = SMTSignal.new (nl.range s) s ∧ emitConstNexus c = some a.2) ∨
      (∃ l ∈ nl.lpms, nl.emitLpm fuel l = some (some a)) ∨
      ∃ g ∈ nl.logics, nl.emitLogic fuel g = some (some a) := by
  simp only [emitRoot, Option.bind_eq_bind, Option.bind_eq_some_iff, Option.some.injEq] at h
  obtain ⟨consts, hconsts, lpms, hlpms, logics, hlogics, rfl⟩ := h
  rcases List.mem_append.mp ha with ha | ha
  · rcases List.mem_append.mp ha with ha | ha
    · exact .inl (emitNetConstList_sound hconsts a ha)
    · exact .inr (.inl ((mem_of_mapM hlpms).2 _ (List.reduceOption_mem_iff.mp ha)))
  · exact .inr (.inr ((mem_of_mapM hlogics).2 _ (List.reduceOption_mem_iff.mp ha)))

/-- Every device whose output is declared has its assignment. -/
theorem exists_emitLpm (hplain : nl.Plain width) (h : nl.emitRoot fuel = some assigns) {l : Lpm N}
    (hl : l ∈ nl.lpms) (hnamed : nl.Named l.q) :
    ∃ a ∈ assigns, nl.emitLpm fuel l = some (some a) := by
  simp only [emitRoot, Option.bind_eq_bind, Option.bind_eq_some_iff, Option.some.injEq] at h
  obtain ⟨consts, hconsts, lpms, hlpms, logics, hlogics, rfl⟩ := h
  obtain ⟨r, hr, hemit⟩ := (mem_of_mapM hlpms).1 l hl
  have htype : l.type ≠ .other := by
    intro htype
    have htyped := hplain.lpmTyped l hl
    simp [Lpm.WellTyped, htype] at htyped
  have hout : nl.getLpmOutput l = some l.q := by
    rw [getLpmOutput, if_neg htype, hplain.lpmReceived l hl hnamed]
    rfl
  obtain ⟨hnone, -⟩ | ⟨lval, rval, rfl, -⟩ := emitLpm_cases hemit
  · rw [hout] at hnone
    cases hnone
  · exact ⟨(lval, rval), by simp [List.reduceOption_mem_iff, hr], hemit⟩

theorem exists_emitLogic (hplain : nl.Plain width) (h : nl.emitRoot fuel = some assigns)
    {g : NetLogic N} (hg : g ∈ nl.logics) {n : N} (hpin : g.pins[0]? = some n)
    (hnamed : nl.Named n) : ∃ a ∈ assigns, nl.emitLogic fuel g = some (some a) := by
  simp only [emitRoot, Option.bind_eq_bind, Option.bind_eq_some_iff, Option.some.injEq] at h
  obtain ⟨consts, hconsts, lpms, hlpms, logics, hlogics, rfl⟩ := h
  obtain ⟨r, hr, hemit⟩ := (mem_of_mapM hlogics).1 g hg
  have hlocal := hplain.logReceived g hg n hpin hnamed
  obtain ⟨o, ho, ⟨htrue, -⟩ | ⟨lval, rval, rfl, -⟩⟩ := emitLogic_cases hemit
  · rw [hpin, Option.some.injEq] at ho
    rw [← ho, hlocal] at htrue
    cases htrue
  · exact ⟨(lval, rval), by simp [List.reduceOption_mem_iff, hr], hemit⟩

/-- Every constant of a declared nexus has its assignment. -/
theorem exists_emitConst (hplain : nl.Plain width) (h : nl.emitRoot fuel = some assigns) {n : N}
    {p : NexusPtr N S} (hp : p ∈ nl.ptrs n) {c : NetConst} (hobject : p.object = .con c)
    (hnamed : nl.Named n) : ∃ a ∈ assigns, ∃ s ∈ nl.netConstList, nl.nex s 0 = n ∧
      a.1 = SMTSignal.new (nl.range s) s ∧ emitConstNexus c = some a.2 := by
  simp only [emitRoot, Option.bind_eq_bind, Option.bind_eq_some_iff, Option.some.injEq] at h
  obtain ⟨consts, hconsts, lpms, hlpms, logics, hlogics, rfl⟩ := h
  obtain ⟨s, hs, hnet, rfl⟩ := hplain.constant n p hp c hobject hnamed
  obtain ⟨k, hk⟩ := List.mem_iff_getElem?.mp (mem_netConsts.mpr ⟨p, hp, hobject⟩)
  have hlt := (List.getElem?_eq_some_iff.mp hk).1
  have hcount := length_le_count hs hnet
  obtain ⟨a, ha, t, ht, hrest⟩ :=
    emitNetConstList_complete hconsts hk (Nat.zero_le k) (by omega)
  exact ⟨a, by simp [ha], t, ht, hrest⟩

end Root

/-! ## An inverted sum -/

/-- The nexuses of `assign y = ~(a + b)`; that of the sum is undeclared. -/
inductive SumNet where
  | a | b | y | sum
  deriving DecidableEq

instance : Fintype SumNet where
  elems := {.a, .b, .y, .sum}
  complete n := by cases n <;> decide

def sumDevice : Lpm SumNet where
  type := .add
  width := 4
  isSigned := false
  size := 2
  base := 0
  q := .sum
  data := [.a, .b]
  sel := none

def notGate : NetLogic SumNet where
  type := .not
  width := 4
  isCassign := true
  pins := [.y, .sum]

/-- Every nexus has a signal, which for the sum is one of the compiler. -/
def sumNetlist : Netlist SumNet SumNet where
  decl := fun s => ⟨4, s == .a || s == .b, 1⟩
  range := fun _ => ⟨3, 0, rfl⟩
  isLocal := fun s => s == .sum
  isReg := fun _ => false
  port
    | .a | .b => .input
    | .y => .output
    | .sum => .internal
  nex := fun s _ => s
  ptrs
    | .y => [⟨true, true, 0, .log notGate⟩, ⟨false, false, 0, .sig .y⟩]
    | .sum =>
        [⟨true, true, 0, .lpm sumDevice⟩, ⟨false, false, 1, .log notGate⟩,
          ⟨false, false, 0, .sig .sum⟩]
    | n => [⟨false, false, 0, .sig n⟩, ⟨false, false, 1, .lpm sumDevice⟩]
  sigs := [.a, .b, .y, .sum]
  lpms := [sumDevice]
  logics := [notGate]

/-- The pins of the netlist. -/
theorem mem_sumNetlist {n : SumNet} {p : NexusPtr SumNet SumNet} (h : p ∈ sumNetlist.ptrs n) :
    p.object = .sig n ∨ (p.isHiZ = true ∧ (p.object = .lpm sumDevice ∨ p.object = .log notGate)) ∨
      (p.object = .lpm sumDevice ∧ n = .sum) ∨ (p.object = .log notGate ∧ n = .y) := by
  revert n p
  decide

theorem sumNetlist_isNamed {n s : SumNet} : sumNetlist.IsNamed n s ↔ s = n ∧ n ≠ .sum := by
  constructor
  · rintro ⟨hlocal, p, hp, hobject⟩
    obtain rfl : s = n := by simpa [hobject] using mem_sumNetlist hp
    refine ⟨rfl, ?_⟩
    rintro rfl
    cases hlocal
  · rintro ⟨rfl, h⟩
    refine ⟨?_, ⟨false, false, 0, .sig s⟩, ?_, rfl⟩ <;> revert s <;> decide

theorem sumNetlist_named {n : SumNet} : sumNetlist.Named n ↔ n ≠ .sum := by
  simp [Named, sumNetlist_isNamed]

theorem sumNetlist_plain : sumNetlist.Plain fun _ => 4 where
  nex := by
    intro n p hp s hobject
    have hmem := mem_sumNetlist hp
    simp_all [sumNetlist]
  isLocal := by
    intro n p hp s hobject
    revert n p s
    decide
  spans := fun n s _ => ⟨rfl, rfl, rfl, (by decide : (0 : Int) ≤ 3)⟩
  lpm := by
    intro n p hp hdrive l hobject
    have hmem := mem_sumNetlist hp
    simp_all [sumNetlist, sumDevice]
  log := by
    intro n p hp hdrive g hobject
    have hmem := mem_sumNetlist hp
    simp_all [sumNetlist, notGate]
  lpm_drives := by decide
  log_drives := by
    intro g hg n hn
    obtain rfl : g = notGate := by simpa [sumNetlist] using hg
    obtain rfl : .y = n := by simpa [notGate] using hn
    decide
  con := by
    intro n p hp c hobject
    have hmem := mem_sumNetlist hp
    simp_all
  lpmTyped := by
    intro l hl
    obtain rfl : l = sumDevice := by simpa [sumNetlist] using hl
    exact ⟨rfl, rfl⟩
  logTyped := by
    intro g hg
    obtain rfl : g = notGate := by simpa [sumNetlist] using hg
    exact (rfl : 4 = 4)
  partPv := by decide
  whole := by
    intro l hl htype
    obtain rfl : l = sumDevice := by simpa [sumNetlist] using hl
    cases htype
  driven := by
    intro n hn
    obtain rfl : n = .sum := by simpa [sumNetlist_named] using hn
    exact ⟨_, rfl⟩
  acyclic := by
    apply Subrelation.wf (r := fun m n : SumNet => m ≠ .sum ∧ n = .sum) ?_ ⟨fun n => ?_⟩
    rotate_left
    · refine ⟨n, fun m hm => ⟨m, fun k hk => absurd hk.2 hm.1⟩⟩
    rintro m n ⟨hn, p, hp, hdrive, hm⟩
    obtain rfl : n = .sum := by simpa [sumNetlist_named] using hn
    have hmem := mem_sumNetlist hp
    have hoperands : m ∈ [.a, .b] := by
      obtain h | h | h | h := hmem <;> simp_all [NexusObject.operands, sumDevice]
    obtain rfl | rfl : m = .a ∨ m = .b := by simpa using hoperands
    · exact ⟨by simp, rfl⟩
    · exact ⟨by simp, rfl⟩
  lpmReceived := by
    intro l hl hnamed
    obtain rfl : l = sumDevice := by simpa [sumNetlist] using hl
    exact absurd rfl (sumNetlist_named.mp hnamed)
  logReceived := by
    intro g hg n hn _
    obtain rfl : g = notGate := by simpa [sumNetlist] using hg
    obtain rfl : .y = n := by simpa [notGate] using hn
    rfl
  net := by
    intro s _ hnet
    rw [sumNetlist_isNamed]
    refine ⟨rfl, ?_⟩
    rintro rfl
    cases hnet
  constant := by
    intro n p hp c hobject
    have hmem := mem_sumNetlist hp
    simp_all

/-- Every signal has its own version. -/
def sumState : SigState SumNet where
  core := fun s =>
    { termStack := [match s with | .a => 0 | .b => 1 | .y => 2 | .sum => 3]
      currVersion := 0
      nextVersion := 0
      versionAtClock := fun _ => 0 }
  fresh := 4

/-- `y = (~ (a + b))`. -/
def sumAssigns : List (ContAssign SumNet) :=
  [(⟨.y, 3, 0, false⟩, .node (.unary ⟨"bv-not", some (.op .not), false⟩)
    [.node (.binary (emitExprBinary '+' false false))
      [.leaf (.signal ⟨.a, 3, 0, false⟩), .leaf (.signal ⟨.b, 3, 0, false⟩)]])]

end Netlist

end Conquest
