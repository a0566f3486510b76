import Conquest.Netlist.Continuous

/-!
# Termination — when emission ends

The emission of an undeclared nexus goes on to what its driver reads, and that of
a nexus that is nothing but a signal of the compiler to the nexus of the signal.
It ends, with a result that does not depend on the fuel, exactly for the nexuses
from which this cannot go on for ever.
-/

namespace Conquest

open Run

variable {N S : Type} {width : N → Nat}

namespace Netlist

variable {nl : Netlist N S} {n : N}

/-- Emission goes from `n` to `m`. -/
def Follows (nl : Netlist N S) (m n : N) : Prop :=
  nl.Feeds m n ∨ ∃ p s, nl.ptrs n = [p] ∧ p.isHiZ = true ∧ p.object = .sig s ∧
    nl.isLocal s = true ∧ m = nl.nex s p.pin

/-- The pin is one of a declared signal. -/
def isDeclared (nl : Netlist N S) (p : NexusPtr N S) : Bool :=
  match p.object with
  | .sig s => !nl.isLocal s
  | _ => false

/-- A well-formed netlist in which part selects of no signal are whole. A nexus
that no declared signal receives from has at most one driver, and no nexus has two
declared signals. A pin that is alone on its nexus and receives is one of a
signal. -/
structure Regular (nl : Netlist N S) (width : N → Nat) : Prop extends nl.WellFormed width where
  whole : nl.SelectsWhole width
  single : ∀ n, nl.isLocalNexus n = true → ((nl.ptrs n).filter fun p => !p.isHiZ).length ≤ 1
  alone : ∀ n, (nl.ptrs n).countP nl.isDeclared ≤ 1
  lone : ∀ n p, nl.ptrs n = [p] → p.isHiZ = true → ∃ s, p.object = .sig s

/-! ## Names -/

theorem isLocalNexus_of_not_named (h : ¬ nl.Named n) : nl.isLocalNexus n = true := by
  cases hlocal : nl.isLocalNexus n
  · exact absurd (named_of_not_local hlocal) h
  · rfl

/-- A declared nexus has a name. -/
theorem exists_emitNameOfNexus (hwf : nl.WellFormed width) (h : nl.Named n) :
    ∃ sig, ∀ allowUd, nl.emitNameOfNexus n allowUd = some sig := by
  obtain ⟨x, hx, hinv⟩ : ∃ x, (nl.ptrs n).foldlM nl.searchName ⟨none, false, false⟩ = some x ∧
      x.isArray = false := by
    apply exists_foldlM (fun x : NameSearch S => x.isArray = false) rfl
    intro t p hp ht
    have hlocal := hwf.isLocal n p hp
    have hspans := fun s hs hobject => (hwf.spans n s ⟨hs, p, hp, hobject⟩).isArray
    grind [searchName]
  have hfind : ∃ sig, nl.findSignalInNexus n = some (some sig) := by
    cases hsig : x.useSig with
    | none =>
        have hnone : nl.findSignalInNexus n = some none := by
          simp [findSignalInNexus, hx, hsig]
        exact absurd h (findSignalInNexus_none hnone)
    | some s =>
        exact ⟨SMTSignal.new (nl.range s) s, by simp [findSignalInNexus, hx, hsig, hinv]⟩
  obtain ⟨sig, hsig⟩ := hfind
  exact ⟨sig, fun allowUd => by simp [emitNameOfNexus, hsig]⟩

/-- At most one declared signal is found. -/
theorem exists_findLocalSignal (hreg : nl.Regular width) (n : N) :
    ∃ found, nl.findLocalSignal n = some found := by
  have hcount (ps : List (NexusPtr N S)) (hps : ∀ p ∈ ps, p ∈ nl.ptrs n) (sig : Option S)
      (hle : ps.countP nl.isDeclared + (if sig.isSome then 1 else 0) ≤ 1) :
      ∃ found, ps.foldlM nl.searchLocal sig = some found := by
    induction ps generalizing sig with
    | nil => exact ⟨sig, rfl⟩
    | cons p ps ih =>
        have hlocal := hreg.isLocal n p (hps p List.mem_cons_self)
        rw [List.countP_cons] at hle
        have hstep : ∃ sig', nl.searchLocal sig p = some sig' ∧
            ps.countP nl.isDeclared + (if sig'.isSome then 1 else 0) ≤ 1 := by
          cases hobject : p.object with
          | sig s =>
              cases hs : nl.isLocal s
              · grind [searchLocal, isDeclared]
              · grind [searchLocal, isDeclared]
          | lpm l => exact ⟨sig, by simp [searchLocal, hobject], by omega⟩
          | con c => exact ⟨sig, by simp [searchLocal, hobject], by omega⟩
          | log g => exact ⟨sig, by simp [searchLocal, hobject], by omega⟩
        obtain ⟨sig', hsig', hle'⟩ := hstep
        obtain ⟨found, hfound⟩ := ih (fun q hq => hps q (List.mem_cons_of_mem _ hq)) sig' hle'
        exact ⟨found, Option.bind_eq_some_iff.mpr ⟨sig', hsig', hfound⟩⟩
  exact hcount _ (fun _ hp => hp) none (by simpa using hreg.alone n)

/-! ## The driver -/

/-- The pins that do not drive are skipped. -/
theorem foldlM_of_driver {σ : Type} {step : σ → NexusPtr N S → Option σ} {ps : List (NexusPtr N S)}
    (hskip : ∀ x, ∀ p ∈ ps, p.isHiZ = true → step x p = some x) (x : σ) :
    ps.foldlM step x = (ps.filter fun p => !p.isHiZ).foldlM step x := by
  induction ps generalizing x with
  | nil => rfl
  | cons p ps ih =>
      have hrest := ih fun x q hq => hskip x q (List.mem_cons_of_mem _ hq)
      cases hp : p.isHiZ
      · rw [List.filter_cons_of_pos (by simp [hp])]
        simp only [List.foldlM_cons, hrest]
      · rw [List.filter_cons_of_neg (by simp [hp]), List.foldlM_cons,
          hskip x p List.mem_cons_self hp]
        exact hrest x

/-- The driver of an undeclared nexus is no signal. -/
theorem object_ne_sig (hwf : nl.WellFormed width) (h : ¬ nl.Named n) {p : NexusPtr N S}
    (hp : p ∈ nl.ptrs n) (hdrive : p.isHiZ = false) (s : S) : p.object ≠ .sig s := by
  intro hobject
  cases hlocal : nl.isLocal s
  · exact h ⟨s, hlocal, p, hp, hobject⟩
  · rw [(hwf.isLocal n p hp s hobject hlocal).1] at hdrive
    cases hdrive

/-- None, or one. -/
theorem drivers_cases (hreg : nl.Regular width) (h : nl.isLocalNexus n = true) :
    (nl.ptrs n).filter (fun p => !p.isHiZ) = [] ∨
      ∃ p, (nl.ptrs n).filter (fun p => !p.isHiZ) = [p] := by
  have hle := hreg.single n h
  match hps : (nl.ptrs n).filter fun p => !p.isHiZ with
  | [] => exact .inl hps
  | [p] => exact .inr ⟨p, hps⟩
  | p :: q :: ps => simp [hps] at hle

/-! ## Selects -/

theorem foldlM_scanSource (rec : N → Int → Option (Option S × Int)) (ps : List (NexusPtr N S))
    (x : Sources S) :
    ps.foldlM (scanSource rec) x = (ps.filter fun p => !p.isHiZ).foldlM (scanSource rec) x :=
  foldlM_of_driver (fun x p _ hp => by simp [scanSource, hp]) x

/-- The loop of `nexus_is_signal` passes a driver if it ends for what this reads. -/
theorem scanSource_terminates (hreg : nl.Regular width) (hunnamed : ¬ nl.Named n)
    {p : NexusPtr N S} (hp : p ∈ nl.ptrs n) (hdrive : p.isHiZ = false)
    (ih : ∀ m, nl.Follows m n → ∀ base, ∃ r, ∃ least, ∀ fuel, least ≤ fuel →
      nl.nexusIsSignal fuel m base = some r) (base : Int) :
    ∃ x, ∃ least, ∀ fuel, least ≤ fuel →
      scanSource (nl.nexusIsSignal fuel) ⟨false, false, false, none, base⟩ p = some x := by
  cases hobject : p.object with
  | lpm l =>
      by_cases htype : l.type = .partVp
      · obtain ⟨hl, hq⟩ := hreg.lpm n p hp hdrive l hobject
        obtain ⟨a, hdata, -⟩ := (hreg.lpmTyped l hl).partVp htype
        have hreads : a ∈ p.object.operands := by simp [hobject, NexusObject.operands, hdata]
        obtain ⟨⟨found, base'⟩, least, hr⟩ := ih a (.inl ⟨hunnamed, p, hp, hdrive, hreads⟩) base
        cases found with
        | none =>
            exact ⟨⟨true, false, false, none, base'⟩, least, fun fuel hfuel => by
              simp [scanSource, hdrive, hobject, htype, hdata, hr fuel hfuel]⟩
        | some s =>
            exact ⟨⟨false, false, false, some s, base' + l.base⟩, least, fun fuel hfuel => by
              simp [scanSource, hdrive, hobject, htype, hdata, hr fuel hfuel]⟩
      · exact ⟨⟨true, false, false, none, base⟩, 0, fun fuel _ => by
          simp [scanSource, hdrive, hobject, htype]⟩
  | con c =>
      exact ⟨⟨false, true, false, none, base⟩, 0, fun fuel _ => by
        simp [scanSource, hdrive, hobject]⟩
  | log g =>
      by_cases htype : g.type = .bufz
      · obtain ⟨hg, hpin⟩ := hreg.log n p hp hdrive g hobject
        obtain ⟨o, a, hpins, -⟩ := (hreg.logTyped g hg).bufz htype
        have hreads : a ∈ p.object.operands := by simp [hobject, NexusObject.operands, hpins]
        obtain ⟨⟨found, base'⟩, least, hr⟩ := ih a (.inl ⟨hunnamed, p, hp, hdrive, hreads⟩) base
        cases found with
        | none =>
            exact ⟨⟨false, false, false, none, base'⟩, least, fun fuel hfuel => by
              simp [scanSource, hdrive, hobject, htype, hpins, hr fuel hfuel]⟩
        | some s =>
            exact ⟨⟨false, false, false, some s, base'⟩, least, fun fuel hfuel => by
              simp [scanSource, hdrive, hobject, htype, hpins, hr fuel hfuel]⟩
      · exact ⟨⟨false, false, true, none, base⟩, 0, fun fuel _ => by
          simp [scanSource, hdrive, hobject, htype]⟩
  | sig s => exact absurd hobject (object_ne_sig hreg.toWellFormed hunnamed hp hdrive s)

/-- `nexus_is_signal` ends where emission does. -/
theorem nexusIsSignal_terminates (hreg : nl.Regular width) (h : Acc nl.Follows n) (base : Int) :
    ∃ r, ∃ least, ∀ fuel, least ≤ fuel → nl.nexusIsSignal fuel n base = some r := by
  induction h generalizing base with
  | intro n _ ih =>
      obtain ⟨found, hfound⟩ := exists_findLocalSignal hreg n
      cases found with
      | some s =>
          refine ⟨(some s, base), 1, fun fuel hfuel => ?_⟩
          obtain ⟨fuel, rfl⟩ := Nat.exists_eq_add_of_le' hfuel
          simp [nexusIsSignal, hfound]
      | none =>
          have hunnamed := findLocalSignal_none hfound
          have hstep : ∃ x, ∃ least, ∀ fuel, least ≤ fuel →
              (nl.ptrs n).foldlM (scanSource (nl.nexusIsSignal fuel))
                ⟨false, false, false, none, base⟩ = some x := by
            obtain hnone | ⟨p, honly⟩ := drivers_cases hreg (isLocalNexus_of_not_named hunnamed)
            · exact ⟨_, 0, fun fuel _ => by rw [foldlM_scanSource, hnone]; rfl⟩
            · obtain ⟨hp, hdrive⟩ := mem_of_filter_eq honly
              obtain ⟨x, least, hx⟩ := scanSource_terminates hreg hunnamed hp hdrive ih base
              refine ⟨x, least, fun fuel hfuel => ?_⟩
              rw [foldlM_scanSource, honly]
              simp [hx fuel hfuel]
          obtain ⟨x, least, hx⟩ := hstep
          refine ⟨(x.sig, x.base), least + 1, fun fuel hfuel => ?_⟩
          obtain ⟨fuel, rfl⟩ := Nat.exists_eq_add_of_le' (Nat.le_of_add_left_le hfuel)
          have hle : least ≤ fuel := by omega
          simp [nexusIsSignal, hfound, hx fuel hle]

/-- A declared signal is found, or nothing is added to the base. -/
def FoundFrom (nl : Netlist N S) (base : Int) (r : Option S × Int) : Prop :=
  (r.1 = none → r.2 = base) ∧ ∀ s, r.1 = some s → ∃ m, nl.IsNamed m s

theorem scanSource_foundFrom {rec : N → Int → Option (Option S × Int)}
    (hrec : ∀ m base r, rec m base = some r → nl.FoundFrom base r) {base : Int}
    {p : NexusPtr N S} (hsig : p.isHiZ = false → ∀ s, p.object ≠ .sig s) {x y : Sources S}
    (hx : nl.FoundFrom base (x.sig, x.base)) (h : scanSource rec x p = some y) :
    nl.FoundFrom base (y.sig, y.base) := by
  simp only [FoundFrom] at hrec hx ⊢
  unfold scanSource at h
  split at h
  · grind
  rename_i hdrive
  have hdrive : p.isHiZ = false := by simpa using hdrive
  split at h
  case h_1 l hobject =>
    split at h
    · cases h
    split at h
    · obtain ⟨d, -, h⟩ := Option.bind_eq_some_iff.mp h
      obtain ⟨r, hr, h⟩ := Option.bind_eq_some_iff.mp h
      have hfound := hrec d x.base r hr
      grind
    · grind
  case h_2 c hobject => grind
  case h_3 g hobject =>
    split at h
    · cases h
    split at h
    · split at h
      · obtain ⟨d, -, h⟩ := Option.bind_eq_some_iff.mp h
        obtain ⟨r, hr, h⟩ := Option.bind_eq_some_iff.mp h
        have hfound := hrec d x.base r hr
        grind
      · cases h
    · grind
  case h_4 s hobject => exact absurd hobject (hsig hdrive s)

theorem nexusIsSignal_foundFrom (hwf : nl.WellFormed width) (fuel : Nat) (n : N) (base : Int)
    (r : Option S × Int) (h : nl.nexusIsSignal fuel n base = some r) : nl.FoundFrom base r := by
  induction fuel generalizing n base r with
  | zero => cases h
  | succ fuel ih =>
      simp only [nexusIsSignal, Option.bind_eq_bind, Option.bind_eq_some_iff] at h
      obtain ⟨found, hfound, h⟩ := h
      cases found with
      | some s =>
          cases h
          exact ⟨by simp, fun t ht => ⟨n, by cases ht; exact findLocalSignal_isNamed hwf hfound⟩⟩
      | none =>
          have hunnamed := findLocalSignal_none hfound
          obtain ⟨x, hx, h⟩ := Option.bind_eq_some_iff.mp h
          cases h
          apply foldlM_inv (fun x : Sources S => nl.FoundFrom base (x.sig, x.base)) hx
          · exact ⟨fun _ => rfl, by simp⟩
          · intro t p hp v ht hv
            exact scanSource_foundFrom ih (object_ne_sig hwf hunnamed hp) ht hv

/-! ## Devices -/

section Devices

variable [DecidableEq N] (f : N → SMTExpr S)

omit [DecidableEq N] in
theorem mapM_of_forall (rec : N → Bool → Option (SMTExpr S)) (allowUd : Bool) (ds : List N)
    (h : ∀ m ∈ ds, rec m allowUd = some (f m)) : ds.mapM (rec · allowUd) = some (ds.map f) := by
  induction ds with
  | nil => rfl
  | cons d ds ih =>
      simp only [List.mapM_cons, h d List.mem_cons_self, ih fun m hm =>
        h m (List.mem_cons_of_mem _ hm), Option.pure_def, Option.bind_eq_bind, Option.bind_some,
        List.map_cons]

theorem exists_emitLpmConcat {l : Lpm N} (hne : l.data ≠ []) : ∃ e, ∀ rec,
    (∀ m ∈ l.data, ∀ allowUd, rec m allowUd = some (f m)) → emitLpmConcat rec l = some e := by
  match hdata : l.data with
  | [] => exact absurd hdata hne
  | d :: ds =>
      by_cases hall : ds ≠ [] ∧ ∀ e ∈ ds, d = e
      · refine ⟨.node (.concat (d :: ds).length) [f d], fun rec hrec => ?_⟩
        simp only [emitLpmConcat, hdata, if_pos hall, hrec d List.mem_cons_self]
        rfl
      · refine ⟨.node (.concat 1) ((d :: ds).reverse.map f), fun rec hrec => ?_⟩
        have hmap := mapM_of_forall f rec true (d :: ds).reverse
          fun m hm => hrec m (List.mem_reverse.mp hm) true
        simp only [emitLpmConcat, hdata, if_neg hall, hmap]
        rfl

/-- A device is emitted if its operands are. -/
theorem exists_emitLpmAsCa (nl : Netlist N S) {l : Lpm N} (htyped : l.WellTyped width)
    (hpv : l.type ≠ .partPv) (hvp : l.type ≠ .partVp) : ∃ e, ∀ rec fuel,
      (∀ m ∈ l.data ++ l.sel.toList, ∀ allowUd, rec m allowUd = some (f m)) →
        nl.emitLpmAsCa rec fuel l = some e := by
  obtain ⟨type, w, isSigned, size, base, q, data, sel⟩ := l
  unfold Lpm.WellTyped at htyped
  split at htyped <;> subst_vars
  case h_1 a b | h_2 a b | h_3 a b | h_4 a b | h_5 a b | h_6 a b | h_7 a b | h_8 a b | h_9 a b =>
    refine ⟨?_, fun rec fuel hrec => ?_⟩
    rotate_left
    · simp only [List.mem_append, List.mem_cons, List.not_mem_nil, or_false, Option.toList] at hrec
      simp only [emitLpmAsCa, emitLpmBinary, List.getElem?_cons_zero, List.getElem?_cons_succ,
        Option.bind_eq_bind, Option.bind_some, hrec a (.inl rfl), hrec b (.inr rfl)]
      rfl
  case h_10 d ds | h_11 d ds =>
    obtain ⟨e, he⟩ :=
      exists_emitLpmConcat f (l := ⟨_, w, isSigned, size, base, q, d :: ds, none⟩) (by simp)
    exact ⟨e, fun rec fuel hrec => he rec fun m hm => hrec m (by simpa using hm)⟩
  case h_12 a b c =>
    refine ⟨.node .ternary [f c, f b, f a], fun rec fuel hrec => ?_⟩
    simp [emitLpmAsCa, hrec a (by simp), hrec b (by simp), hrec c (by simp)]
  case h_13 a => exact absurd rfl hvp
  case h_14 a => exact absurd rfl hpv
  case h_15 a | h_16 a | h_17 a | h_18 a =>
    refine ⟨?_, fun rec fuel hrec => ?_⟩
    rotate_left
    · simp [emitLpmAsCa, emitLpmUnary, hrec, SMTUnary.setOpcode]
      rfl
  case h_19 a =>
    refine ⟨.node (.concat size) [f a], fun rec fuel hrec => ?_⟩
    simp [emitLpmAsCa, hrec]
  case h_20 => exact htyped.elim

omit [DecidableEq N] in
/-- A gate is emitted if its inputs are. -/
theorem exists_emitLogicAsCa {g : NetLogic N} (htyped : g.WellTyped width) : ∃ e, ∀ rec,
    (∀ m ∈ g.pins.drop 1, ∀ allowUd, rec m allowUd = some (f m)) →
      emitLogicAsCa rec g = some e := by
  obtain ⟨type, w, isCassign, pins⟩ := g
  unfold NetLogic.WellTyped at htyped
  split at htyped <;> subst_vars
  case h_1 o a | h_2 o a | h_3 o a =>
    exact ⟨f a, fun rec hrec => by simp [emitLogicAsCa, hrec]⟩
  case h_4 o a =>
    refine ⟨?_, fun rec hrec => ?_⟩
    rotate_left
    · simp [emitLogicAsCa, SMTUnary.setOpcode, hrec]
      rfl
  case h_5 o a b | h_6 o a b | h_7 o a b | h_8 o a b | h_9 o a b | h_10 o a b =>
    refine ⟨?_, fun rec hrec => ?_⟩
    rotate_left
    · simp [emitLogicAsCa, emitGate, SMTLogic.ofOpcode, hrec]
      rfl
  case h_11 o | h_12 o => exact ⟨_, fun rec _ => rfl⟩
  case h_13 => exact htyped.elim

section Operands

variable {rec : N → Bool → Option (SMTExpr S)} {e : SMTExpr S}

omit [DecidableEq N] in
/-- The operands of a list that is emitted are emitted. -/
theorem emits_of_mapM {allowUd : Bool} {ds : List N} {es : List (SMTExpr S)}
    (h : ds.mapM (rec · allowUd) = some es) : ∀ m ∈ ds, ∃ ud e, rec m ud = some e := by
  intro m hm
  obtain ⟨e, -, he⟩ := (mem_of_mapM h).1 m hm
  exact ⟨allowUd, e, he⟩

theorem emitLpmConcat_operands {l : Lpm N} (h : emitLpmConcat rec l = some e) :
    ∀ m ∈ l.data, ∃ ud e, rec m ud = some e := by
  unfold emitLpmConcat at h
  split at h
  · cases h
  rename_i d ds hdata
  split at h
  · rename_i hall
    obtain ⟨e, he, -⟩ := Option.bind_eq_some_iff.mp h
    intro m hm
    rw [hdata, List.mem_cons] at hm
    have hmd : d = m := hm.elim Eq.symm (hall.2 m)
    exact ⟨false, e, hmd ▸ he⟩
  · obtain ⟨es, hes, -⟩ := Option.bind_eq_some_iff.mp h
    intro m hm
    exact emits_of_mapM hes m (List.mem_reverse.mpr hm)

/-- The operands of a device that is emitted are emitted. -/
theorem emitLpmAsCa_operands {l : Lpm N} {fuel : Nat} (htyped : l.WellTyped width)
    (hpv : l.type ≠ .partPv) (hvp : l.type ≠ .partVp) (h : nl.emitLpmAsCa rec fuel l = some e) :
    ∀ m ∈ l.data ++ l.sel.toList, ∃ ud e, rec m ud = some e := by
  obtain ⟨type, w, isSigned, size, base, q, data, sel⟩ := l
  unfold Lpm.WellTyped at htyped
  split at htyped <;> subst_vars
  case h_13 a => exact absurd rfl hvp
  case h_14 a => exact absurd rfl hpv
  case h_20 => exact htyped.elim
  case h_10 d ds | h_11 d ds =>
    unfold emitLpmAsCa at h
    simpa using emitLpmConcat_operands h
  all_goals
    simp only [emitLpmAsCa, emitLpmBinary, emitLpmUnary, SMTUnary.setOpcode,
      List.getElem?_cons_zero, List.getElem?_cons_succ, Option.bind_eq_bind, Option.bind_some,
      Option.bind_eq_some_iff] at h
    grind

omit [DecidableEq N] in
/-- The inputs of a gate that is emitted are emitted. -/
theorem emitLogicAsCa_operands {g : NetLogic N} (htyped : g.WellTyped width)
    (h : emitLogicAsCa rec g = some e) : ∀ m ∈ g.pins.drop 1, ∃ ud e, rec m ud = some e := by
  obtain ⟨type, w, isCassign, pins⟩ := g
  unfold NetLogic.WellTyped at htyped
  split at htyped <;> subst_vars
  case h_5 o a b | h_6 o a b | h_7 o a b | h_8 o a b | h_9 o a b | h_10 o a b =>
    simp only [emitLogicAsCa, emitGate, SMTLogic.ofOpcode, Option.bind_eq_bind,
      Option.bind_some] at h
    obtain ⟨es, hes, -⟩ := Option.bind_eq_some_iff.mp h
    exact emits_of_mapM hes
  case h_11 o | h_12 o => simp
  case h_13 => exact htyped.elim
  all_goals
    simp only [emitLogicAsCa, SMTUnary.setOpcode, List.length_cons, List.length_nil, Nat.reduceAdd,
      if_true, List.getElem?_cons_zero, List.getElem?_cons_succ, Option.bind_eq_bind,
      Option.bind_some, Option.bind_eq_some_iff] at h
    grind

end Operands

end Devices

/-! ## Emission -/

section Emission

variable [DecidableEq N]

/-- A result for all fuels from some on. -/
def Ends (nl : Netlist N S) (n : N) : Prop :=
  ∃ e, ∃ least, ∀ fuel, least ≤ fuel → ∀ allowUd, nl.emitNexusAsCa fuel n allowUd = some e

/-- The operands of a driver end together. -/
theorem exists_results {ms : List N} (h : ∀ m ∈ ms, nl.Ends m) :
    ∃ f : N → SMTExpr S, ∃ least, ∀ fuel, least ≤ fuel → ∀ m ∈ ms, ∀ allowUd,
      nl.emitNexusAsCa fuel m allowUd = some (f m) := by
  induction ms with
  | nil => exact ⟨fun _ => .leaf .unspecified, 0, by simp⟩
  | cons m ms ih =>
      obtain ⟨e, least₁, he⟩ := h m List.mem_cons_self
      obtain ⟨f, least₂, hf⟩ := ih fun m' hm' => h m' (List.mem_cons_of_mem _ hm')
      refine ⟨Function.update f m e, max least₁ least₂, fun fuel hfuel m' hm' allowUd => ?_⟩
      by_cases heq : m' = m
      · subst heq
        rw [Function.update_self]
        exact he fuel (by omega) allowUd
      · rw [Function.update_of_ne heq]
        exact hf fuel (by omega) m' ((List.mem_cons.mp hm').resolve_left heq) allowUd

/-- A part select is emitted if `nexus_is_signal` and its operand end. -/
theorem exists_emitLpmPartSelect (hreg : nl.Regular width) {l : Lpm N} (hl : l ∈ nl.lpms)
    (htype : l.type = .partVp) {a : N} (hdata : l.data = [a]) (ha : nl.Ends a)
    (hacc : Acc nl.Follows a) : ∃ e, ∃ least, ∀ fuel, least ≤ fuel →
      nl.emitLpmPartSelectAsCa (nl.emitNexusAsCa fuel) fuel l = some e := by
  obtain ⟨a', hdata', hsel, hwidth, -, hin⟩ := (hreg.lpmTyped l hl).partVp htype
  obtain rfl : a' = a := by simpa [hdata] using hdata'.symm
  obtain ⟨⟨found, base⟩, least, hr⟩ := nexusIsSignal_terminates hreg hacc l.base
  have hfound := nexusIsSignal_foundFrom hreg.toWellFormed least a' l.base _ (hr least le_rfl)
  obtain ⟨e, least', he⟩ := ha
  cases found with
  | none =>
      have hbase : base = l.base := hfound.1 rfl
      have hq := hreg.whole l hl htype a' hdata least base (hr least le_rfl)
      have hzero : base = 0 := by omega
      refine ⟨e, max least least', fun fuel hfuel => ?_⟩
      simp [emitLpmPartSelectAsCa, hdata, hr fuel (by omega), hzero, he fuel (by omega)]
  | some s =>
      obtain ⟨m, hm⟩ := hfound.2 s rfl
      have harray := (hreg.spans m s hm).isArray
      have hsome : ∃ sig, emitLpmPartSelect (nl.range s) s base l.width = some sig := by
        have hrange := (nl.range s).width_eq
        unfold emitLpmPartSelect
        split
        · split
          · rename_i hbit
            rw [if_pos (by omega)]
            exact ⟨_, rfl⟩
          · exact ⟨_, rfl⟩
        · split <;> exact ⟨_, rfl⟩
      obtain ⟨sig, hsig⟩ := hsome
      refine ⟨.leaf (.signal sig), least, fun fuel hfuel => ?_⟩
      simp [emitLpmPartSelectAsCa, hdata, hsel, hr fuel hfuel, harray, hsig]

omit [DecidableEq N] in
/-- The loop of `emit_nexus_as_ca` over a nexus with one driver. -/
theorem foldlM_scanDriver {p : NexusPtr N S} (h : (nl.ptrs n).filter (fun p => !p.isHiZ) = [p])
    (x : Drivers N S) : (nl.ptrs n).foldlM (scanDriver (nl.ptrs n).length) x =
      scanDriver (nl.ptrs n).length x p := by
  by_cases hcount : (nl.ptrs n).length = 1
  · obtain ⟨q, hq⟩ := List.length_eq_one_iff.mp hcount
    have hpq : q = p := by
      have hmem := (mem_of_filter_eq h).1
      simpa [hq, eq_comm] using hmem
    simp [hq, hpq]
  · rw [foldlM_of_driver (fun x q _ hq => by simp [scanDriver, hq, hcount]), h]
    simp

omit [DecidableEq N] in
/-- The loop over a nexus without a driver. -/
theorem foldlM_scanDriver_nil (h : (nl.ptrs n).filter (fun p => !p.isHiZ) = [])
    (hcount : (nl.ptrs n).length ≠ 1) (x : Drivers N S) :
    (nl.ptrs n).foldlM (scanDriver (nl.ptrs n).length) x = some x := by
  rw [foldlM_of_driver (fun x q _ hq => by simp [scanDriver, hq, hcount]), h]
  rfl

/-- What `emit_nexus_as_ca` does with the driver. -/
def emitDriver (nl : Netlist N S) (fuel : Nat) : NexusObject N S → Option (SMTExpr S)
  | .lpm l => nl.emitLpmAsCa (nl.emitNexusAsCa fuel) fuel l
  | .con c => emitConstNexus c
  | .log g => emitLogicAsCa (nl.emitNexusAsCa fuel) g
  | .sig _ => none

/-- An undeclared nexus is emitted if what its driver reads is. -/
theorem ends_of_driver (hreg : nl.Regular width) (hlocal : nl.isLocalNexus n = true)
    (hunnamed : ¬ nl.Named n) {p : NexusPtr N S}
    (honly : (nl.ptrs n).filter (fun p => !p.isHiZ) = [p])
    (hacc : ∀ m, nl.Follows m n → Acc nl.Follows m) (ih : ∀ m, nl.Follows m n → nl.Ends m) :
    nl.Ends n := by
  obtain ⟨hp, hdrive⟩ := mem_of_filter_eq honly
  have hfollows : ∀ m ∈ p.object.operands, nl.Follows m n := fun m hm =>
    .inl ⟨hunnamed, p, hp, hdrive, hm⟩
  obtain ⟨f, least, hf⟩ := exists_results fun m hm => ih m (hfollows m hm)
  -- the loop notes the driver, so its case decides
  suffices hobject : ∃ e, ∃ least, ∀ fuel, least ≤ fuel →
      nl.emitDriver fuel p.object = some e by
    obtain ⟨e, least, he⟩ := hobject
    refine ⟨e, least + 1, fun fuel hfuel allowUd => ?_⟩
    obtain ⟨fuel, rfl⟩ := Nat.exists_eq_add_of_le' (Nat.le_of_add_left_le hfuel)
    have he := he fuel (by omega)
    rw [emitNexusAsCa, if_pos hlocal, foldlM_scanDriver honly]
    cases hobject : p.object with
    | lpm l => simpa [emitDriver, scanDriver, hdrive, hobject] using he
    | con c => simpa [emitDriver, scanDriver, hdrive, hobject] using he
    | log g => simpa [emitDriver, scanDriver, hdrive, hobject] using he
    | sig s => simp [emitDriver, hobject] at he
  cases hobject : p.object with
  | lpm l =>
      obtain ⟨hl, hq⟩ := hreg.lpm n p hp hdrive l hobject
      have htyped := hreg.lpmTyped l hl
      have hpv : l.type ≠ .partPv := fun htype => by
        have hdeclared := hreg.partPv l hl htype
        rw [hq, hlocal] at hdeclared
        cases hdeclared
      by_cases hvp : l.type = .partVp
      · obtain ⟨a, hdata, -⟩ := htyped.partVp hvp
        have ha : nl.Follows a n :=
          hfollows a (by simp [hobject, NexusObject.operands, hdata])
        obtain ⟨e, least', he⟩ := exists_emitLpmPartSelect hreg hl hvp hdata (ih a ha) (hacc a ha)
        exact ⟨e, least', fun fuel hfuel => by
          simpa [emitDriver, emitLpmAsCa, hvp] using he fuel hfuel⟩
      · obtain ⟨e, he⟩ := exists_emitLpmAsCa f nl htyped hpv hvp
        refine ⟨e, least, fun fuel hfuel => he _ fuel fun m hm allowUd => ?_⟩
        exact hf fuel hfuel m (by simpa [hobject, NexusObject.operands] using hm) allowUd
  | con c =>
      obtain ⟨-, hlogic, -⟩ := hreg.con n p hp c hobject
      exact ⟨.leaf (.number (SMTNumber.new c.bits)), 0, fun fuel _ => by
        simp [emitDriver, emitConstNexus, hlogic]⟩
  | log g =>
      obtain ⟨hg, -⟩ := hreg.log n p hp hdrive g hobject
      obtain ⟨e, he⟩ := exists_emitLogicAsCa f (hreg.logTyped g hg)
      refine ⟨e, least, fun fuel hfuel => he _ fun m hm allowUd => ?_⟩
      exact hf fuel hfuel m (by simpa [hobject, NexusObject.operands] using hm) allowUd
  | sig s => exact absurd hobject (object_ne_sig hreg.toWellFormed hunnamed hp hdrive s)

omit [DecidableEq N] in
/-- A declared signal on a nexus that counts as local drives it. -/
theorem isHiZ_of_named (hlocal : nl.isLocalNexus n = true) {s : S} (hs : nl.isLocal s = false)
    {p : NexusPtr N S} (hp : p ∈ nl.ptrs n) (hobject : p.object = .sig s) : p.isHiZ = false := by
  have hall := List.all_eq_true.mp hlocal p hp
  simpa [hobject, hs] using hall

/-- A declared nexus is emitted by its name, at once. -/
theorem ends_of_named (hreg : nl.Regular width) (hnamed : nl.Named n) : nl.Ends n := by
  obtain ⟨sig, hsig⟩ := exists_emitNameOfNexus hreg.toWellFormed hnamed
  refine ⟨.leaf (.signal sig), 1, fun fuel hfuel allowUd => ?_⟩
  obtain ⟨fuel, rfl⟩ := Nat.exists_eq_add_of_le' hfuel
  cases hlocal : nl.isLocalNexus n
  · simp [emitNexusAsCa, hlocal, hsig]
  · obtain ⟨s, hs, p, hp, hobject⟩ := hnamed
    have hdrive := isHiZ_of_named hlocal hs hp hobject
    have honly : (nl.ptrs n).filter (fun p => !p.isHiZ) = [p] := by
      have hmem : p ∈ (nl.ptrs n).filter fun p => !p.isHiZ := by simp [hp, hdrive]
      obtain hnone | ⟨q, hq⟩ := drivers_cases hreg hlocal
      · simp [hnone] at hmem
      · rw [hq, List.mem_singleton] at hmem
        rw [hq, hmem]
    simp [emitNexusAsCa, hlocal, foldlM_scanDriver honly, scanDriver, hdrive, hobject, hsig]

/-- Emission ends where it cannot go on for ever. -/
theorem ends_of_acc (hreg : nl.Regular width) (h : Acc nl.Follows n) : nl.Ends n := by
  induction h with
  | intro n hacc ih =>
      by_cases hnamed : nl.Named n
      · exact ends_of_named hreg hnamed
      have hlocal := isLocalNexus_of_not_named hnamed
      obtain hnone | ⟨p, honly⟩ := drivers_cases hreg hlocal
      · by_cases hcount : (nl.ptrs n).length = 1
        · obtain ⟨p, hp⟩ := List.length_eq_one_iff.mp hcount
          have hdrive : p.isHiZ = true := by simpa [hp] using hnone
          obtain ⟨s, hs⟩ := hreg.lone n p hp hdrive
          have hslocal : nl.isLocal s = true := by
            cases hs' : nl.isLocal s
            · exact absurd ⟨s, hs', p, by simp [hp], hs⟩ hnamed
            · rfl
          obtain ⟨e, least, he⟩ := ih _ (.inr ⟨p, s, hp, hdrive, hs, hslocal, rfl⟩)
          refine ⟨e, least + 1, fun fuel hfuel allowUd => ?_⟩
          obtain ⟨fuel, rfl⟩ := Nat.exists_eq_add_of_le' (Nat.le_of_add_left_le hfuel)
          simp [emitNexusAsCa, hlocal, hp, scanDriver, hdrive, hs, he fuel (by omega)]
        · refine ⟨.leaf .unspecified, 1, fun fuel hfuel allowUd => ?_⟩
          obtain ⟨fuel, rfl⟩ := Nat.exists_eq_add_of_le' hfuel
          simp [emitNexusAsCa, hlocal, foldlM_scanDriver_nil hnone hcount]
      · exact ends_of_driver hreg hlocal hnamed honly hacc ih

/-! ## The converse -/

omit [DecidableEq N] in
/-- Emission goes nowhere from a declared nexus. -/
theorem acc_of_named (h : nl.Named n) : Acc nl.Follows n := by
  refine ⟨n, fun m hm => ?_⟩
  obtain ⟨hunnamed, -⟩ | ⟨p, s, hp, -, hobject, hlocal, -⟩ := hm
  · exact absurd h hunnamed
  · obtain ⟨t, ht, q, hq, hqt⟩ := h
    obtain rfl : q = p := by simpa [hp] using hq
    obtain rfl : t = s := by simpa [hqt] using hobject
    rw [ht] at hlocal
    cases hlocal

omit [DecidableEq N] in
/-- From any other one it goes to what the driver reads. -/
theorem acc_of_operands {p : NexusPtr N S}
    (honly : (nl.ptrs n).filter (fun p => !p.isHiZ) = [p])
    (h : ∀ m ∈ p.object.operands, Acc nl.Follows m) : Acc nl.Follows n := by
  refine ⟨n, fun m hm => ?_⟩
  obtain ⟨-, q, hq, hdrive, hreads⟩ | ⟨q, s, hq, hdrive, -⟩ := hm
  · have hmem : q ∈ (nl.ptrs n).filter fun p => !p.isHiZ := by simp [hq, hdrive]
    rw [honly, List.mem_singleton] at hmem
    exact h m (hmem ▸ hreads)
  · simp [hq, hdrive] at honly

omit [DecidableEq N] in
/-- A signal that `nexus_is_signal` finds is found through what the driver reads. -/
theorem scanSource_operands (hreg : nl.Regular width) {rec : N → Int → Option (Option S × Int)}
    {p : NexusPtr N S} (hp : p ∈ nl.ptrs n) (hdrive : p.isHiZ = false) {base : Int} {x : Sources S}
    (h : scanSource rec ⟨false, false, false, none, base⟩ p = some x) (hx : x.sig.isSome) :
    ∀ m ∈ p.object.operands, ∃ r, rec m base = some r ∧ r.1.isSome := by
  cases hobject : p.object with
  | lpm l =>
      by_cases htype : l.type = .partVp
      · obtain ⟨a, hdata, hsel, -⟩ :=
          (hreg.lpmTyped l (hreg.lpm n p hp hdrive l hobject).1).partVp htype
        simp only [scanSource, hdrive, hobject, htype, hdata, List.getElem?_cons_zero, if_true,
          Bool.false_eq_true, if_false, Option.bind_eq_bind, Option.bind_some] at h
        obtain ⟨⟨found, base'⟩, hr, h⟩ := Option.bind_eq_some_iff.mp h
        cases found with
        | none => cases h; cases hx
        | some s => simp [NexusObject.operands, hdata, hsel, hr]
      · simp only [scanSource, hdrive, hobject, htype] at h
        cases h
        cases hx
  | con c => simp [NexusObject.operands]
  | log g =>
      by_cases htype : g.type = .bufz
      · obtain ⟨o, a, hpins, -⟩ :=
          (hreg.logTyped g (hreg.log n p hp hdrive g hobject).1).bufz htype
        simp only [scanSource, hdrive, hobject, htype, hpins, List.length_cons, List.length_nil,
          Nat.reduceAdd, List.getElem?_cons_zero, List.getElem?_cons_succ, if_true,
          Bool.false_eq_true, if_false, Option.bind_eq_bind, Option.bind_some] at h
        obtain ⟨⟨found, base'⟩, hr, h⟩ := Option.bind_eq_some_iff.mp h
        cases found with
        | none => cases h; cases hx
        | some s => simp [NexusObject.operands, hpins, hr]
      · simp only [scanSource, hdrive, hobject, htype] at h
        cases h
        cases hx
  | sig s => simp [NexusObject.operands]

omit [DecidableEq N] in
/-- Where `nexus_is_signal` finds a signal, emission ends. -/
theorem acc_of_nexusIsSignal (hreg : nl.Regular width) (fuel : Nat) (n : N) (base : Int)
    (r : Option S × Int) (h : nl.nexusIsSignal fuel n base = some r) (hr : r.1.isSome) :
    Acc nl.Follows n := by
  induction fuel generalizing n base r with
  | zero => cases h
  | succ fuel ih =>
      simp only [nexusIsSignal, Option.bind_eq_bind, Option.bind_eq_some_iff] at h
      obtain ⟨found, hfound, h⟩ := h
      cases found with
      | some s => exact acc_of_named ⟨s, findLocalSignal_isNamed hreg.toWellFormed hfound⟩
      | none =>
          have hunnamed := findLocalSignal_none hfound
          obtain ⟨x, hx, h⟩ := Option.bind_eq_some_iff.mp h
          cases h
          rw [foldlM_scanSource] at hx
          obtain hnone | ⟨p, honly⟩ := drivers_cases hreg (isLocalNexus_of_not_named hunnamed)
          · rw [hnone] at hx
            cases hx
            cases hr
          · obtain ⟨hp, hdrive⟩ := mem_of_filter_eq honly
            have hx : scanSource (nl.nexusIsSignal fuel) ⟨false, false, false, none, base⟩ p =
                some x := by simpa [honly] using hx
            apply acc_of_operands honly
            intro m hm
            obtain ⟨r', hr', hsome⟩ := scanSource_operands hreg hp hdrive hx hr m hm
            exact ih m base r' hr' hsome

omit [DecidableEq N] in
/-- The operand of a part select that is emitted is emitted, or `nexus_is_signal`
finds a signal from it. -/
theorem emitLpmPartSelect_operand {rec : N → Bool → Option (SMTExpr S)} {fuel : Nat} {l : Lpm N}
    {a : N} (hdata : l.data = [a]) {e : SMTExpr S}
    (h : nl.emitLpmPartSelectAsCa rec fuel l = some e) :
    (∃ r, nl.nexusIsSignal fuel a l.base = some r ∧ r.1.isSome) ∨ ∃ ud e, rec a ud = some e := by
  simp only [emitLpmPartSelectAsCa, hdata, List.getElem?_cons_zero, Option.bind_eq_bind,
    Option.bind_some] at h
  obtain ⟨⟨found, base⟩, hr, h⟩ := Option.bind_eq_some_iff.mp h
  cases found with
  | none =>
      right
      change (if base ≠ 0 then none else rec a false) = some e at h
      split at h
      · cases h
      · exact ⟨false, e, h⟩
  | some s => exact .inl ⟨_, hr, rfl⟩

/-- A nexus that is emitted is one where emission cannot go on for ever. -/
theorem acc_of_emits (hreg : nl.Regular width) (fuel : Nat) (n : N) (allowUd : Bool)
    (e : SMTExpr S) (h : nl.emitNexusAsCa fuel n allowUd = some e) : Acc nl.Follows n := by
  induction fuel generalizing n allowUd e with
  | zero => cases h
  | succ fuel ih =>
      by_cases hnamed : nl.Named n
      · exact acc_of_named hnamed
      have hlocal := isLocalNexus_of_not_named hnamed
      have hemits : ∀ m, (∃ ud e, nl.emitNexusAsCa fuel m ud = some e) → Acc nl.Follows m :=
        fun m ⟨ud, e, he⟩ => ih m ud e he
      rw [emitNexusAsCa, if_pos hlocal] at h
      obtain ⟨x, hx, h⟩ := Option.bind_eq_some_iff.mp h
      obtain hnone | ⟨p, honly⟩ := drivers_cases hreg hlocal
      · refine ⟨n, fun m hm => ?_⟩
        obtain ⟨-, q, hq, hdrive, -⟩ | ⟨q, s, hq, hdrive, hobject, -, rfl⟩ := hm
        · have hmem : q ∈ (nl.ptrs n).filter fun p => !p.isHiZ := by simp [hq, hdrive]
          simp [hnone] at hmem
        · simp [hq, scanDriver, hdrive, hobject] at hx
          subst hx
          exact ih _ _ _ h
      · obtain ⟨hp, hdrive⟩ := mem_of_filter_eq honly
        rw [foldlM_scanDriver honly] at hx
        apply acc_of_operands honly
        intro m hm
        cases hobject : p.object with
        | lpm l =>
            obtain ⟨hl, hq⟩ := hreg.lpm n p hp hdrive l hobject
            have htyped := hreg.lpmTyped l hl
            have hpv : l.type ≠ .partPv := fun htype => by
              have hdeclared := hreg.partPv l hl htype
              rw [hq, hlocal] at hdeclared
              cases hdeclared
            simp only [scanDriver, hdrive, hobject] at hx
            cases hx
            have h : nl.emitLpmAsCa (nl.emitNexusAsCa fuel) fuel l = some e := h
            rw [hobject] at hm
            by_cases hvp : l.type = .partVp
            · obtain ⟨a, hdata, hsel, -⟩ := htyped.partVp hvp
              obtain rfl : m = a := by simpa [NexusObject.operands, hdata, hsel] using hm
              simp only [emitLpmAsCa, hvp] at h
              obtain ⟨r, hr, hsome⟩ | hrec := emitLpmPartSelect_operand hdata h
              · exact acc_of_nexusIsSignal hreg fuel m l.base r hr hsome
              · exact hemits m hrec
            · exact hemits m (emitLpmAsCa_operands htyped hpv hvp h m hm)
        | con c => simp [NexusObject.operands, hobject] at hm
        | log g =>
            obtain ⟨hg, -⟩ := hreg.log n p hp hdrive g hobject
            simp only [scanDriver, hdrive, hobject] at hx
            cases hx
            have h : emitLogicAsCa (nl.emitNexusAsCa fuel) g = some e := h
            rw [hobject] at hm
            exact hemits m (emitLogicAsCa_operands (hreg.logTyped g hg) h m hm)
        | sig s => simp [NexusObject.operands, hobject] at hm

theorem sumNetlist_regular : sumNetlist.Regular fun _ => 4 where
  toWellFormed := sumNetlist_plain.toWellFormed
  whole := sumNetlist_plain.whole
  single := by decide
  alone := by decide
  lone n p h := by
    have hlength : ∀ n, (sumNetlist.ptrs n).length ≠ 1 := by decide
    exact absurd (by rw [h]; rfl) (hlength n)

end Emission

end Netlist

end Conquest
