import Conquest.Lib.Run
import Conquest.Netlist.Emitted

/-!
# Preserved — nexuses keep their values

A nexus with a declared signal is emitted as the signal; any other one stands
for its driver. If the drivers of the undeclared nexuses do what they are for,
and the signals have the values of their nexuses, then so does every emitted
expression.
-/

namespace Conquest

open Bv Digits Run

namespace Netlist

variable {N S : Type} {width : N → Nat} {nl : Netlist N S} {ρ : Valuation} {st : SigState S}
  {vals : Values width} {n : N}

/-! ## Names -/

section Names

variable {sig : SMTSignal S}

/-- The signal of the name is declared and on the nexus. -/
theorem findSignalInNexus_isNamed (h : nl.findSignalInNexus n = some (some sig)) :
    ∃ s, nl.IsNamed n s ∧ sig = SMTSignal.new (nl.range s) s := by
  simp only [findSignalInNexus, Option.bind_eq_bind, Option.bind_eq_some_iff] at h
  obtain ⟨x, hx, h⟩ := h
  have hnamed : ∀ s, x.useSig = some s → nl.IsNamed n s := by
    apply foldlM_inv (fun x : NameSearch S => ∀ s, x.useSig = some s → nl.IsNamed n s) hx
    · simp
    · intro t p hp v ht hv s hs
      grind [IsNamed, searchName]
  match hs : x.useSig with
  | none => simp [hs] at h
  | some s =>
      simp only [hs] at h
      split at h
      · cases h
      · exact ⟨s, hnamed s hs, by simpa using h.symm⟩

/-- A nexus with a declared signal has a name, or emission ends. -/
theorem findSignalInNexus_none (h : nl.findSignalInNexus n = some none) : ¬ nl.Named n := by
  rintro ⟨s, hlocal, p, hp, hobject⟩
  simp only [findSignalInNexus, Option.bind_eq_bind, Option.bind_eq_some_iff] at h
  obtain ⟨x, hx, h⟩ := h
  have hsome : x.useSig.isSome := by
    apply foldlM_of_mem (fun x : NameSearch S => x.useSig.isSome) hx hp
    · intro t v hv
      grind [searchName]
    · intro t p v ht hv
      grind [searchName]
  match hs : x.useSig with
  | none => simp [hs] at hsome
  | some s =>
      simp only [hs] at h
      split at h <;> cases h

/-- What `find_driving_signal` finds is a declared signal. -/
theorem findDrivingSignal_named (h : nl.findDrivingSignal n = some (some sig)) : nl.Named n := by
  simp only [findDrivingSignal] at h
  split at h
  · cases h
  · rename_i s hfound
    obtain ⟨p, hp, hs⟩ := List.exists_of_findSome?_eq_some hfound
    refine ⟨s, ?_, p, hp, ?_⟩ <;> grind

/-- Every name is that of a declared signal on the nexus. -/
theorem emitNameOfNexus_isNamed {allowUd : Bool} (h : nl.emitNameOfNexus n allowUd = some sig) :
    ∃ s, nl.IsNamed n s ∧ sig = SMTSignal.new (nl.range s) s := by
  simp only [emitNameOfNexus, Option.bind_eq_bind, Option.bind_eq_some_iff] at h
  obtain ⟨found, hfound, h⟩ := h
  match found with
  | some sig' =>
      obtain rfl : sig' = sig := by simpa using h
      exact findSignalInNexus_isNamed hfound
  | none =>
      -- a flat design has no signals to drive the nexus from elsewhere
      have hnone := findSignalInNexus_none hfound
      cases allowUd
      · cases h
      · obtain ⟨d, hd, h⟩ := Option.bind_eq_some_iff.mp h
        subst h
        exact absurd (findDrivingSignal_named hd) hnone

/-- A declared signal that spans its nexus has the value of it. -/
theorem signal_hasValue {s : S} (hspans : nl.Spans width n s)
    (hcarries : Denotes ρ (sigTerm nl.decl st s .curr) (vals n)) :
    nl.HasValue ρ st (.leaf (.signal (SMTSignal.new (nl.range s) s))) (vals n) := by
  have hwhole : (SMTSignal.new (nl.range s) s).isWhole nl.decl := by
    have hwidth := (nl.range s).width_eq
    have hlsb := hspans.lsb
    have hmsb := hspans.msb
    simp only [SMTSignal.isWhole, SMTSignal.new]
    omega
  rw [HasValue, SMTExpr.evalTerm, SMTLeaf.evalTerm, SMTSignal.evalTerm,
    if_neg fun h => h.1 hwhole]
  exact hcarries

theorem emitNameOfNexus_hasValue (hwf : nl.WellFormed width) (hcarries : nl.Carries vals ρ st)
    {allowUd : Bool} (h : nl.emitNameOfNexus n allowUd = some sig) :
    nl.HasValue ρ st (.leaf (.signal sig)) (vals n) := by
  obtain ⟨s, hs, rfl⟩ := emitNameOfNexus_isNamed h
  exact signal_hasValue (hwf.spans n s hs) (hcarries n s hs)

end Names

/-! ## Selects -/

section Selects

theorem findLocalSignal_isNamed (hwf : nl.WellFormed width) {s : S}
    (h : nl.findLocalSignal n = some (some s)) : nl.IsNamed n s := by
  have hinv : ∀ s', some s = some s' → nl.IsNamed n s' := by
    apply foldlM_inv (fun x : Option S => ∀ s', x = some s' → nl.IsNamed n s') h
    · simp
    · intro t p hp v ht hv s' hs'
      have hinput := hwf.isLocal n p hp
      grind [IsNamed, searchLocal]
  exact hinv s rfl

theorem findLocalSignal_none (h : nl.findLocalSignal n = some none) : ¬ nl.Named n := by
  rintro ⟨s, hlocal, p, hp, hobject⟩
  have hsome : (none : Option S).isSome := by
    apply foldlM_of_mem (fun x : Option S => x.isSome) h hp
    · intro t v hv
      grind [searchLocal]
    · intro t p v ht hv
      grind [searchLocal]
  cases hsome

/-- What `nexus_is_signal` finds: bits of a declared signal, with the offset added
to the base. -/
def Selected (nl : Netlist N S) (vals : Values width) (n : N) (base : Int) :
    Option S × Int → Prop
  | (none, base') => base' = base
  | (some s, base') => ∃ m, ∃ offset : Nat, nl.IsNamed m s ∧ base' = base + offset ∧
      offset + width n ≤ width m ∧ vals n = (vals m).extractLsb' offset (width n)

theorem Selected.partVp {a : N} {s : S} {base base' : Int} {lo : Nat}
    (h : nl.Selected vals a base (some s, base')) (hin : lo + width n ≤ width a)
    (hval : vals n = (vals a).extractLsb' lo (width n)) :
    nl.Selected vals n base (some s, base' + lo) := by
  obtain ⟨m, offset, hm, hbase, hle, ha⟩ := h
  refine ⟨m, offset + lo, hm, by omega, by omega, ?_⟩
  rw [hval, ha]
  apply BitVec.eq_of_getLsbD_eq
  intro i hi
  have hlo : lo + i < width a := by omega
  simp [hi, hlo, Nat.add_assoc]

theorem Selected.bufz {a : N} {s : S} {base base' : Int}
    (h : nl.Selected vals a base (some s, base')) (hwidth : width a = width n)
    (hval : vals n = (vals a).setWidth (width n)) :
    nl.Selected vals n base (some s, base') := by
  have hall : vals n = (vals a).extractLsb' 0 (width n) := by
    rw [hval]
    apply BitVec.eq_of_getLsbD_eq
    intro i hi
    simp [hi]
  simpa using h.partVp (by omega) hall

/-- A driver of a nexus without a name leaves what is found right. -/
theorem scanSource_selected (hwf : nl.WellFormed width) (hobeys : nl.Obeys vals n)
    (hunnamed : ¬ nl.Named n) {rec : N → Int → Option (Option S × Int)}
    (hrec : ∀ m base r, rec m base = some r → nl.Selected vals m base r) {base : Int}
    {p : NexusPtr N S} (hp : p ∈ nl.ptrs n) {x y : Sources S}
    (hx : nl.Selected vals n base (x.sig, x.base)) (h : scanSource rec x p = some y) :
    nl.Selected vals n base (y.sig, y.base) := by
  unfold scanSource at h
  split at h
  · cases h
    exact hx
  rename_i hdrive
  have hdrive : p.isHiZ = false := by simpa using hdrive
  have hdrives := hobeys p hp hdrive
  split at h
  case h_1 l hobject =>
    rw [hobject] at hdrives
    obtain ⟨hl, hq⟩ := hwf.lpm n p hp hdrive l hobject
    subst hq
    split at h
    · cases h
    split at h
    · rename_i hvp
      obtain ⟨a, hdata, hsel, hwidth, -, hin⟩ := (hwf.lpmTyped l hl).partVp hvp
      have hval := hdrives.partVp hvp hdata hsel
      simp only [hdata, List.getElem?_cons_zero, Option.bind_eq_bind, Option.bind_some,
        Option.bind_eq_some_iff] at h
      obtain ⟨⟨found, base'⟩, hfound, h⟩ := h
      have hselected := hrec a x.base _ hfound
      cases found with
      | none =>
          cases h
          obtain rfl : base' = x.base := hselected
          exact hx
      | some s =>
          -- it is the first signal that is found
          cases hsig : x.sig
          · rw [hsig] at h hx
            cases h
            have hbase : x.base = base := hx
            rw [← hbase]
            exact hselected.partVp (by omega) hval
          · simp [hsig] at h
    · cases h
      exact hx
  case h_2 c hobject =>
    split at h
    · cases h
    · cases h
      exact hx
  case h_3 g hobject =>
    rw [hobject] at hdrives
    obtain ⟨hg, hpin⟩ := hwf.log n p hp hdrive g hobject
    split at h
    · cases h
    split at h
    · rename_i htype
      obtain ⟨o, a, hpins, hwidth⟩ := (hwf.logTyped g hg).bufz htype
      obtain rfl : o = n := by simpa [hpins] using hpin
      have hval := hdrives.bufz htype hpins
      simp only [hpins, List.length_cons, List.length_nil, if_true, List.getElem?_cons_succ,
        List.getElem?_cons_zero, Option.bind_eq_bind, Option.bind_some,
        Option.bind_eq_some_iff] at h
      obtain ⟨⟨found, base'⟩, hfound, h⟩ := h
      have hselected := hrec a x.base _ hfound
      cases found with
      | none =>
          cases h
          obtain rfl : base' = x.base := hselected
          exact hx
      | some s =>
          cases hsig : x.sig
          · rw [hsig] at h hx
            cases h
            have hbase : x.base = base := hx
            rw [← hbase]
            exact hselected.bufz hwidth hval
          · simp [hsig] at h
    · cases h
      exact hx
  case h_4 s hobject =>
    -- a signal that drives is declared
    cases hlocal : nl.isLocal s
    · exact absurd ⟨s, hlocal, p, hp, hobject⟩ hunnamed
    · rw [(hwf.isLocal n p hp s hobject hlocal).1] at hdrive
      cases hdrive

/-- What `nexus_is_signal` finds is what the nexus carries. -/
theorem nexusIsSignal_selected (hwf : nl.WellFormed width)
    (hobeys : ∀ n, ¬ nl.Named n → nl.Obeys vals n) (fuel : Nat) (n : N) (base : Int)
    (r : Option S × Int) (h : nl.nexusIsSignal fuel n base = some r) :
    nl.Selected vals n base r := by
  induction fuel generalizing n base r with
  | zero => cases h
  | succ fuel ih =>
      simp only [nexusIsSignal, Option.bind_eq_bind, Option.bind_eq_some_iff] at h
      obtain ⟨found, hfound, h⟩ := h
      cases found with
      | some s =>
          cases h
          have hval : vals n = (vals n).extractLsb' 0 (width n) := by
            apply BitVec.eq_of_getLsbD_eq
            intro i hi
            simp [hi]
          exact ⟨n, 0, findLocalSignal_isNamed hwf hfound, by simp, by simp, hval⟩
      | none =>
          have hunnamed := findLocalSignal_none hfound
          obtain ⟨x, hx, h⟩ := Option.bind_eq_some_iff.mp h
          cases h
          apply foldlM_inv (fun x : Sources S => nl.Selected vals n base (x.sig, x.base)) hx
          · rfl
          · intro t p hp v ht hv
            exact scanSource_selected hwf (hobeys n hunnamed) hunnamed ih hp ht hv

/-- A part select of a signal gives the bits of its operand. -/
theorem emitLpmPartSelectAsCa_denotes (hwf : nl.WellFormed width)
    (hwhole : nl.SelectsWhole width) (hcarries : nl.Carries vals ρ st)
    (hobeys : ∀ n, ¬ nl.Named n → nl.Obeys vals n) {rec : N → Bool → Option (SMTExpr S)}
    (hrec : EmitsValues nl ρ st vals rec) {fuel : Nat} {l : Lpm N} (hl : l ∈ nl.lpms)
    (htype : l.type = .partVp) {a : N} (hdata : l.data = [a]) {e : SMTExpr S}
    (h : nl.emitLpmPartSelectAsCa rec fuel l = some e) :
    nl.HasValue ρ st e ((vals a).extractLsb' l.base (width l.q)) := by
  obtain ⟨a', hdata', hsel, hwidth, hpos, hin⟩ := (hwf.lpmTyped l hl).partVp htype
  obtain rfl : a' = a := by simpa [hdata] using hdata'.symm
  simp only [emitLpmPartSelectAsCa, hdata, List.getElem?_cons_zero, Option.bind_eq_bind,
    Option.bind_some, Option.bind_eq_some_iff, hsel] at h
  obtain ⟨⟨found, base⟩, hfound, h⟩ := h
  have hselected := nexusIsSignal_selected hwf hobeys fuel a' l.base _ hfound
  cases found with
  | none =>
      have hbase : base = l.base := hselected
      have hq := hwhole l hl htype a' hdata fuel base hfound
      simp only [] at h
      split at h
      · cases h
      · rename_i hzero
        have hzero : l.base = 0 := by omega
        have hval : (vals a').extractLsb' l.base (width l.q) = (vals a').setWidth (width l.q) := by
          apply BitVec.eq_of_getLsbD_eq
          intro i hi
          simp [hzero, hi]
        rw [hval]
        exact (hrec a' false e h).setWidth hq
  | some s =>
      obtain ⟨m, offset, hm, hbase, hle, ha⟩ := hselected
      have hspans := hwf.spans m s hm
      simp only [hspans.isArray, Bool.false_eq_true, if_false] at h
      obtain ⟨sig, hsig, heq⟩ := Option.bind_eq_some_iff.mp h
      obtain rfl := Option.some.inj heq
      let sel : Select S := .lpm base l.width
      have hcanonical : sel.Canonical nl.decl s (nl.range s) := .inl hspans.lsb
      have hwidth' : 0 < sel.width := hpos
      have hrange : (nl.range s).lsb ≤ (nl.range s).msb := by
        rw [hspans.lsb]
        exact hspans.msb
      have hcorrect : Select.Correct nl.decl st s .curr sel sig :=
        hcanonical.correct hrange hwidth' hsig
      have hvector : InVector (nl.decl s).width base l.width := by
        rw [hspans.width]
        constructor <;> omega
      have hterm := hcorrect ρ ((vals m).setWidth _) base
        ((hcarries m s hm).setWidth hspans.width.symm) (.inl rfl) hvector
      have hval : (((vals m).setWidth (nl.decl s).width).extractLsb' base.toNat l.width).setWidth
          (width l.q) = (vals a').extractLsb' l.base (width l.q) := by
        rw [ha]
        apply BitVec.eq_of_getLsbD_eq
        intro i hi
        have hoffset : base.toNat = offset + l.base := by omega
        have hfit : l.base + i < width a' := by omega
        have hm : offset + (l.base + i) < width m := by omega
        simp [hi, hfit, hoffset, hwidth, hspans.width, hm, Nat.add_assoc]
      rw [← hval]
      exact hterm.setWidth hwidth

end Selects

/-! ## Nexuses -/

section Nexuses

theorem mem_of_filter_eq {p : NexusPtr N S}
    (h : (nl.ptrs n).filter (fun p => !p.isHiZ) = [p]) : p ∈ nl.ptrs n ∧ p.isHiZ = false := by
  have hp : p ∈ (nl.ptrs n).filter fun p => !p.isHiZ := by simp [h]
  simpa using hp

/-- What the loop of `emit_nexus_as_ca` notes is on the nexus, and drives it
unless it must be a signal. -/
structure Found (nl : Netlist N S) (n : N) (x : Drivers N S) : Prop where
  lpm : ∀ l, x.lpm = some l → ∃ p ∈ nl.ptrs n, p.object = .lpm l ∧ (p.isHiZ → x.mustBeSig)
  con : ∀ c, x.netConst = some c → ∃ p ∈ nl.ptrs n, p.object = .con c ∧ (p.isHiZ → x.mustBeSig)
  log : ∀ g, x.nlogic = some g → ∃ p ∈ nl.ptrs n, p.object = .log g ∧ (p.isHiZ → x.mustBeSig)
  sig : ∀ s word, x.sig = some (s, word) →
    ∃ p ∈ nl.ptrs n, p.object = .sig s ∧ p.pin = word ∧ (p.isHiZ → x.mustBeSig)

theorem scanDriver_found {count : Nat} {x y : Drivers N S} {p : NexusPtr N S}
    (hp : p ∈ nl.ptrs n) (hx : nl.Found n x) (h : scanDriver count x p = some y) :
    nl.Found n y := by
  obtain ⟨hlpm, hcon, hlog, hsig⟩ := hx
  constructor <;> grind [scanDriver]

/-- A pin that drives is noted. -/
theorem scanDriver_drives {count : Nat} {x y : Drivers N S} {p : NexusPtr N S}
    (hp : p.isHiZ = false) (h : scanDriver count x p = some y) :
    match p.object with
    | .lpm l => y.lpm = some l
    | .con c => y.netConst = some c
    | .log g => y.nlogic = some g
    | .sig s => y.sig = some (s, p.pin) := by
  grind [scanDriver]

theorem scanDriver_keeps {count : Nat} {x y : Drivers N S} {p : NexusPtr N S}
    (h : scanDriver count x p = some y) :
    (∀ l, x.lpm = some l → y.lpm = some l) ∧ (∀ c, x.netConst = some c → y.netConst = some c) ∧
      (∀ g, x.nlogic = some g → y.nlogic = some g) ∧ ∀ r, x.sig = some r → y.sig = some r := by
  grind [scanDriver]

section Scan

variable {x : Drivers N S} (hx : (nl.ptrs n).foldlM (scanDriver (nl.ptrs n).length)
  ⟨false, none, none, none, none⟩ = some x)

include hx

theorem found_of_scan : nl.Found n x := by
  apply foldlM_inv (fun x : Drivers N S => nl.Found n x) hx
  · constructor <;> simp
  · intro t p hp v ht hv
    exact scanDriver_found hp ht hv

theorem scan_drives {p : NexusPtr N S} (hp : p ∈ nl.ptrs n) (hdrive : p.isHiZ = false) :
    match p.object with
    | .lpm l => x.lpm = some l
    | .con c => x.netConst = some c
    | .log g => x.nlogic = some g
    | .sig s => x.sig = some (s, p.pin) := by
  apply foldlM_of_mem (fun x : Drivers N S =>
    match p.object with
    | .lpm l => x.lpm = some l
    | .con c => x.netConst = some c
    | .log g => x.nlogic = some g
    | .sig s => x.sig = some (s, p.pin)) hx hp
  · intro t v hv
    exact scanDriver_drives hdrive hv
  · intro t q v ht hv
    have hkeeps := scanDriver_keeps hv
    grind

/-- Without a signal among the drivers, a local nexus has no name. -/
theorem not_named_of_scan (hlocal : nl.isLocalNexus n = true) (hsig : x.sig = none) :
    ¬ nl.Named n := by
  rintro ⟨s, hs, p, hp, hobject⟩
  simp only [isLocalNexus, List.all_eq_true] at hlocal
  have hp' := hlocal p hp
  have hdrive : p.isHiZ = false := by simpa [hobject, hs] using hp'
  have hscan := scan_drives hx hp hdrive
  simp [hobject, hsig] at hscan

end Scan

variable [DecidableEq N]

/-- **The netlist is preserved.** In every state in which the drivers of the
undeclared nexuses do what they are for and the declared signals carry the
values of their nexuses, an emitted expression denotes the value of the nexus. -/
theorem emitNexusAsCa_denotes (hwf : nl.WellFormed width) (hwhole : nl.SelectsWhole width)
    (hdriven : nl.Driven) (hcarries : nl.Carries vals ρ st)
    (hobeys : ∀ n, ¬ nl.Named n → nl.Obeys vals n) (fuel : Nat) :
    EmitsValues nl ρ st vals (nl.emitNexusAsCa fuel) := by
  induction fuel with
  | zero =>
      intro n allowUd e h
      cases h
  | succ fuel ih =>
      intro n allowUd e h
      unfold emitNexusAsCa at h
      split at h
      case isFalse =>
        obtain ⟨sig, hsig, rfl⟩ := Option.map_eq_some_iff.mp h
        exact emitNameOfNexus_hasValue hwf hcarries hsig
      case isTrue hlocal =>
        obtain ⟨x, hx, hemit⟩ := Option.bind_eq_some_iff.mp h
        have hfound := found_of_scan hx
        split at hemit
        case h_1 l hlpm hcon hlog hsig =>
          split at hemit
          · cases hemit
          rename_i hmust
          obtain ⟨p, hp, hobject, hdrive⟩ := hfound.lpm l hlpm
          have hdrive : p.isHiZ = false := by grind
          obtain ⟨hl, rfl⟩ := hwf.lpm n p hp hdrive l hobject
          have hholds := hobeys l.q (not_named_of_scan hx hlocal hsig) p hp hdrive
          rw [hobject] at hholds
          have hpv : l.type ≠ .partPv := by
            intro hpv
            rw [hwf.partPv l hl hpv] at hlocal
            cases hlocal
          by_cases hvp : l.type = .partVp
          · obtain ⟨a, hdata, hsel, -⟩ := (hwf.lpmTyped l hl).partVp hvp
            rw [hholds.partVp hvp hdata hsel]
            simp only [emitLpmAsCa, hvp] at hemit
            exact emitLpmPartSelectAsCa_denotes hwf hwhole hcarries hobeys ih hl hvp hdata hemit
          · obtain ⟨v, hv, hterm⟩ := emitLpmAsCa_denotes ih (hwf.lpmTyped l hl) hpv hvp hemit
            rw [(Lpm.holds_iff hpv).mp hholds] at hv
            cases hv
            exact hterm
        case h_2 c hlpm hcon hlog hsig =>
          split at hemit
          · cases hemit
          obtain ⟨p, hp, hobject, -⟩ := hfound.con c hcon
          obtain ⟨hdrive, hlogic, hne, hlength⟩ := hwf.con n p hp c hobject
          have hholds := hobeys n (not_named_of_scan hx hlocal hsig) p hp hdrive
          rw [hobject] at hholds
          rw [emitConstNexus, if_pos hlogic] at hemit
          cases hemit
          rw [show vals n = _ from hholds]
          exact denotes_number nl ρ st hne hlength
        case h_3 g hlpm hcon hlog hsig =>
          split at hemit
          · cases hemit
          rename_i hmust
          obtain ⟨p, hp, hobject, hdrive⟩ := hfound.log g hlog
          have hdrive : p.isHiZ = false := by grind
          obtain ⟨hg, hpin⟩ := hwf.log n p hp hdrive g hobject
          have hholds := hobeys n (not_named_of_scan hx hlocal hsig) p hp hdrive
          rw [hobject] at hholds
          obtain ⟨o, ins, hpins, v, hv, hterm⟩ := emitLogicAsCa_denotes ih (hwf.logTyped g hg) hemit
          obtain rfl : o = n := by simpa [hpins] using hpin
          simp only [NexusObject.Drives, NetLogic.Holds, hpins, hv, Option.some.injEq] at hholds
          rw [← hholds]
          exact hterm
        case h_4 s word hlpm hcon hlog hsig =>
          split at hemit
          · -- the nexus of the signal is this one
            obtain ⟨p, hp, hobject, rfl, -⟩ := hfound.sig s word hsig
            have hnex := hwf.nex n p hp s hobject
            rw [hnex] at hemit
            exact ih n false e hemit
          · obtain ⟨sig, hname, rfl⟩ := Option.map_eq_some_iff.mp hemit
            exact emitNameOfNexus_hasValue hwf hcarries hname
        case h_5 hlpm hcon hlog hsig =>
          obtain ⟨p, honly⟩ := hdriven n (not_named_of_scan hx hlocal hsig)
          obtain ⟨hp, hdrive⟩ := mem_of_filter_eq honly
          have hscan := scan_drives hx hp hdrive
          cases hobject : p.object <;> simp [hobject, hlpm, hcon, hlog, hsig] at hscan
        case h_6 => cases hemit

end Nexuses

end Netlist

end Conquest
