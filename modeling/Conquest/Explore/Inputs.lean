import Conquest.Explore.Rows
import Conquest.Lib.Scanf

/-!
# Inputs — what the design is driven with

A path goes through `data.mem` to the ports of the design: its rows are dumped as
lines, `$readmemb` fills the memory of the testbench with them, and at every
rising edge the testbench drives each port with its part of the next word. When
a candidate is accepted, the inputs up to its clock are those of the simulation
before, with the values of the solver's model written over them.
-/

namespace Conquest

open Bv Run Text Scanf

/-! ## From the rows to the ports -/

/-- `CTDataMem::dump`. -/
def dumpText (rows : List Line) : Line := rows.flatMap fun row => row ++ ['\n']

/-- The words that `$readmemb` reads into a memory that is declared up to `bound`. -/
def readmemb (bound : Nat) (text : Line) : List Line := (words text).take (bound + 1)

/-- `_conc_pc` and `_conc_opcode` of the testbench. -/
structure Testbench where
  pc : Nat
  opcode : Option Line

namespace Testbench

/-- The initial block. -/
def start : Testbench := ⟨0, none⟩

/-- The rising edge of the clock. -/
def rise (ram : List Line) (t : Testbench) : Testbench where
  pc := t.pc + 1
  opcode := ram[t.pc]?

/-- After the edge with the marker of clock `k`. -/
def atMarker (ram : List Line) (k : Nat) : Testbench := (rise ram)^[k] start

theorem pc_atMarker (ram : List Line) (k : Nat) : (atMarker ram k).pc = k := by
  induction k with
  | zero => rfl
  | succ k ih =>
      rw [atMarker, Function.iterate_succ_apply']
      show (atMarker ram k).pc + 1 = k + 1
      rw [ih]

/-- The words of the memory are taken one by one. -/
theorem opcode_atMarker (ram : List Line) (k : Nat) : (atMarker ram (k + 1)).opcode = ram[k]? := by
  rw [atMarker, Function.iterate_succ_apply']
  show ram[(atMarker ram k).pc]? = ram[k]?
  rw [pc_atMarker]

end Testbench

/-- What a port is driven with at clock `k`, from the text of `data.mem`. -/
def drivenInput (bound : Nat) (text : Line) (sig : SigPos) (k : Nat) : Option Line :=
  (Testbench.atMarker (readmemb bound text) k).opcode.map fun word =>
    opcodeSlice word (tbPartSelect sig)

section Text

/-- The words of the file are the rows. -/
theorem words_dumpText {rows : List Line}
    (h : ∀ row ∈ rows, row ≠ [] ∧ ∀ c ∈ row, isBlank c = false) : words (dumpText rows) = rows := by
  induction rows with
  | nil => rfl
  | cons row rows ih =>
      obtain ⟨⟨hne, hblank⟩, hrows⟩ := List.forall_mem_cons.mp h
      have hcons : dumpText (row :: rows) = row ++ '\n' :: dumpText rows := by
        simp [dumpText]
      rw [hcons, words_append_blank (by decide), words_word hne hblank, ih hrows]
      rfl

theorem isBlank_of_digit {c : Char} (h : c = '0' ∨ c = '1') : isBlank c = false := by
  rcases h with rfl | rfl <;> decide

namespace PathData

variable {ports : CTDataMem} {d : PathData}

theorem Formed.words_dump (h : Formed ports d) (hwidth : 1 ≤ ports.width) :
    words (dumpText d.inputVector) = d.inputVector := by
  apply words_dumpText
  intro row hrow
  constructor
  · rintro rfl
    have hlen := h.fit [] hrow
    rw [List.length_nil, h.width] at hlen
    omega
  · intro c hc
    exact isBlank_of_digit (h.digits row hrow c hc)

/-- A port is driven with its slice of the row. -/
theorem Formed.drivenInput_eq (h : Formed ports d) (hwidth : 1 ≤ ports.width) {bound k : Nat}
    (hk : k ≤ bound) (sig : SigPos) :
    drivenInput bound (dumpText d.inputVector) sig (k + 1) = d.toCTDataMem.slice k sig := by
  rw [drivenInput, Testbench.opcode_atMarker, readmemb, h.words_dump hwidth,
    List.getElem?_take_of_lt (Nat.lt_succ_of_le hk)]
  rfl

end PathData

end Text

/-! ## The model over the rows of a path -/

/-- The value that a listing has for a port at a clock. -/
def listedValue (items : List ModelItem) (p : Line) (k : Nat) : Option Line :=
  ((listingEntries items).find? fun e => e.name = p ∧ e.clock = k).map ModelEntry.bits

section Overlay

variable {ports : CTDataMem} {d source data : PathData} {clock : Nat} {items : List ModelItem}

theorem PathData.Formed.inputVector_intercept (h : Formed ports source) (hle : clock ≤ source.clk)
    (d : PathData) :
    (d.intercept source 0 clock).inputVector = source.inputVector.take clock := by
  have hlast : ¬ clock > source.inputVector.length := by
    rw [h.length]
    omega
  simp only [PathData.intercept, if_neg hlast, List.drop_zero]
  split
  · rfl
  · rw [show clock = 0 by omega, List.take_zero]

/-- The slices after the values are written: those of the listing, and the others
as they were. -/
theorem PathData.Formed.slice_overlay (hports : ports.WellLaid) (hsource : Formed ports source)
    (hle : clock ≤ source.clk) (hfit : Fitting ports items)
    (hnodup : ((listingEntries items).map fun e => (e.name, e.clock)).Nodup)
    (hupdate : (d.intercept source 0 clock).updateInputVectors clock (listingLines items) =
      some data) {p : Line} {sig : SigPos} (hp : ports.inPorts p = some sig) {k : Nat}
    (hk : k < clock) :
    data.toCTDataMem.slice k sig =
      (listedValue items p (k + 1)).or (source.toCTDataMem.slice k sig) := by
  have hcut := hsource.intercept hle d
  have hrows := hsource.inputVector_intercept hle d
  have hlaid := hcut.wellLaid hports
  have hp' : (d.intercept source 0 clock).inPorts p = some sig := hcut.inPorts ▸ hp
  obtain ⟨m, hm, rfl⟩ := Option.map_eq_some_iff.mp hupdate
  rw [CTDataMem.updateInputVectors_listing] at hm
  have hlen : clock ≤ (d.intercept source 0 clock).inputVector.length := hcut.length.symm.le
  obtain ⟨m', hm', hshape, hslice, hframe⟩ := CTDataMem.applyEntries_spec hlaid hcut.fit hlen
    hnodup fun e he sig hsig => hfit e he sig (hcut.inPorts ▸ hsig)
  obtain rfl : m = m' := Option.some.inj (hm.symm.trans hm')
  unfold listedValue
  cases hfind : (listingEntries items).find? fun e => e.name = p ∧ e.clock = k + 1 with
  | some e =>
      obtain ⟨hname, hclock⟩ : e.name = p ∧ e.clock = k + 1 := by
        simpa using List.find?_some hfind
      have hwritten := hslice e (List.mem_of_find?_eq_some hfind) sig (hname ▸ hp') (by omega)
        (by omega)
      rw [hclock, Nat.add_sub_cancel] at hwritten
      exact hwritten
  | none =>
      have hkept : m.slice k sig = (d.intercept source 0 clock).toCTDataMem.slice k sig := by
        apply CTDataMem.slice_congr hlaid hp' hshape.length
        intro i hlo hhi
        apply hframe
        rintro ⟨e, he, sig', hsig', hclock, -, hlo', hhi'⟩
        have hother : ¬ (e.name = p ∧ e.clock = k + 1) := by
          simpa using List.find?_eq_none.mp hfind e he
        have hname : e.name ≠ p := fun heq => hother ⟨heq, hclock⟩
        have hmsb := hlaid.msb_eq hp'
        have hmsb' := hlaid.msb_eq hsig'
        have happart := hlaid.disjoint hsig' hp' hname
        omega
      rw [Option.map_none, Option.none_or]
      refine hkept.trans ?_
      rw [CTDataMem.slice, CTDataMem.slice, hrows, List.getElem?_take_of_lt hk]

end Overlay

/-! ## In a run -/

section Runs

variable {S : Type} [DecidableEq S] {d : Design S} {opts : Options} {enableObsPadding : Bool}
  {firstAssign : Nat → Nat} {ports : CTDataMem} {x y : Search S} {m m' : Rows} {a : DataAnswer S}
  {events : List Event}

/-- Where `find_next_cfg` is called, `data.mem` has the rows of the path. -/
def Rows.PathDumped (x : Search S) (m : Rows) : Prop :=
  ∀ target initClk, x.point = .search target initClk →
    ∃ path, x.path = some path ∧ m.dataMem = (m.pathData path).inputVector

/-- `find_next_cfg` is called after `explore_one_step`. -/
theorem iterate_of_search {b : Answer S} (h : x.step d opts firstAssign b = some (y, events))
    {target initClk : Nat} (hy : y.point = .search target initClk) :
    x.point = .iterate target ∧ ∃ path, x.path = some path ∧ y.path = some path := by
  cases Search.moves_of_step h with
  | iterate hpoint hpath hcheck hsim =>
      cases hy
      obtain ⟨context, rfl⟩ := Search.errorCheck_eq hcheck
      obtain ⟨session, -, -, rfl, -⟩ := Search.exploreOneStep_eq hsim
      exact ⟨hpoint, _, hpath, hpath⟩
  | again hpoint hsim =>
      rcases Search.point_checkTarget opts firstAssign _ _ with hz | hz <;> cases hz.symm.trans hy
  | restart hpoint hpath hsim =>
      rcases Search.point_checkTarget opts firstAssign _ _ with hz | hz <;> cases hz.symm.trans hy
  | _ => cases hy

omit [DecidableEq S] in
theorem confirm_of_acceptedClock {point : Point} {clock : Nat}
    (h : Rows.acceptedClock point = some clock) : ∃ target, point = .confirm target clock := by
  cases point with
  | confirm target c =>
      cases h
      exact ⟨target, rfl⟩
  | _ => cases h

theorem Search.stepRows_eq_some
    (h : Search.stepRows d opts enableObsPadding firstAssign (x, m) a = some ((y, m'), events)) :
    x.step d opts firstAssign a.toAnswer = some (y, events) ∧
      m.step opts enableObsPadding firstAssign d x a y = some m' := by
  obtain ⟨⟨z, events'⟩, hmoves, h⟩ := Option.bind_eq_some_iff.mp h
  obtain ⟨m₁, hm₁, heq⟩ := Option.map_eq_some_iff.mp h
  cases heq
  exact ⟨hmoves, hm₁⟩

theorem Rows.pathDumped_step (h : m.Inv ports opts x) (hwidth : 1 ≤ ports.width)
    (hstep : 1 ≤ opts.step)
    (hrows : Search.stepRows d opts enableObsPadding firstAssign (x, m) a =
      some ((y, m'), events)) : m'.PathDumped y := by
  intro target initClk hy
  obtain ⟨hmoves, hm⟩ := Search.stepRows_eq_some hrows
  obtain ⟨hpoint, path, hpath, hpath'⟩ := iterate_of_search hmoves hy
  obtain ⟨m₁, hm₁, hext⟩ := h.extended hwidth hstep (h.path path hpath) enableObsPadding a.rand
  simp only [Rows.step, Rows.dump, Rows.save, hpoint, hpath, hm₁, Option.bind_some,
    Option.some.injEq] at hm
  subst hm
  exact ⟨path, hpath', hext.dataMem⟩

/-- The rows of an accepted candidate are written over those of the path. -/
theorem Rows.slice_of_accept (h : m.Inv ports opts x) (hdumped : m.PathDumped x)
    (hlaid : ports.WellLaid) {items : List ModelItem} (hlisting : a.modelLog = listingLines items)
    (hfit : PathData.Fitting ports items)
    (hnodup : ((listingEntries items).map fun e => (e.name, e.clock)).Nodup)
    (hrows : Search.stepRows d opts enableObsPadding firstAssign (x, m) a =
      some ((y, m'), events)) {target clock : Nat} (hy : y.point = .confirm target clock) :
    ∃ path data, x.path = some path ∧ clock ≤ x.clk path ∧ m'.dataMem = data.inputVector ∧
      m.dataMem = (m.pathData path).inputVector ∧ PathData.Formed ports data ∧
      (m.pathData path).Formed ports ∧ data.clk = clock ∧
      ∀ p sig, ports.inPorts p = some sig → ∀ k < clock,
        data.toCTDataMem.slice k sig = (listedValue items p (k + 1)).or
          ((m.pathData path).toCTDataMem.slice k sig) := by
  obtain ⟨hmoves, hm⟩ := Search.stepRows_eq_some hrows
  obtain ⟨initClk, path, cand, model, session, hpoint, hpath, htry, hclock, -⟩ :=
    Search.accept_of_confirm hmoves hy
  obtain ⟨hformed, hclk, -⟩ := h.paths path (h.path path hpath)
  obtain ⟨path', hpath', hdump⟩ := hdumped target initClk hpoint
  obtain rfl : path = path' := Option.some.inj (hpath.symm.trans hpath')
  have hle : clock ≤ x.clk path := by
    rw [← hclock]
    exact (Session.clock_of_mem_branches (Answer.mem_rank (Session.tryCandidates_mem htry))).2
  have hle' : clock ≤ (m.pathData path).clk := hclk.symm ▸ hle
  obtain ⟨data, hdata, hdataFormed, -, hdataClk⟩ :=
    (hformed.intercept hle' m.gDataStep).updateInputVectors hlaid (Nat.le_refl clock) hfit
  simp only [Rows.step, Rows.dump, Rows.save, Rows.tryCandidates, Rows.acceptedClock, hpoint, hy,
    hpath, hlisting, hdata, Option.bind_some, Option.map_some, Option.some.injEq] at hm
  subst hm
  exact ⟨path, data, hpath, hle, rfl, hdump, hdataFormed, hformed, hdataClk, fun p sig hp k hk =>
    hformed.slice_overlay hlaid hle' hfit hnodup hdata hp hk⟩

/-- **The inputs of an accepted candidate.** In every run of `step_coverage`, let
`find_next_cfg` accept a candidate at a clock. In the simulation that follows,
every port is driven, at every clock up to that one, with the value of the
solver's model if it has one for the port at the clock, and as in the simulation
before if it has not, and no later clock is driven. -/
theorem stepCoverage_inputs {calls : List (Line × Nat)} (hcalls : ∀ c ∈ calls, 1 ≤ c.2)
    (hwidth : 1 ≤ (CTDataMem.layout calls).width) (hstep : 1 ≤ opts.step)
    {printed : Nat → List Char} {session : Session S} {targets : List Nat} {dataMem : List Line}
    {answers : List (DataAnswer S)} (hfits : ∀ a ∈ answers, a.Fits (CTDataMem.layout calls))
    {x : Search S} {m : Rows} {events : List Event}
    (hrun : observe (Search.stepRows d opts enableObsPadding firstAssign)
      (Search.start d opts printed session targets,
        Rows.start (CTDataMem.layout calls) dataMem) answers = some ((x, m), events))
    {a : DataAnswer S} {items : List ModelItem} (hlisting : a.modelLog = listingLines items)
    (hfit : PathData.Fitting (CTDataMem.layout calls) items)
    (hnodup : ((listingEntries items).map fun e => (e.name, e.clock)).Nodup) {y : Search S}
    {m' : Rows} {events' : List Event}
    (hrows : Search.stepRows d opts enableObsPadding firstAssign (x, m) a =
      some ((y, m'), events')) {target clock : Nat} (hy : y.point = .confirm target clock) :
    ∃ path, x.path = some path ∧ clock ≤ x.clk path ∧ ∀ bound, x.clk path ≤ bound →
      ∀ p sig, (CTDataMem.layout calls).inPorts p = some sig → ∀ k, 1 ≤ k →
        drivenInput bound (dumpText m'.dataMem) sig k =
          if k ≤ clock then
            (listedValue items p k).or (drivenInput bound (dumpText m.dataMem) sig k)
          else none := by
  have hlaid := CTDataMem.wellLaid_layout hcalls
  obtain ⟨hinv, hdumped⟩ : m.Inv (CTDataMem.layout calls) opts x ∧ m.PathDumped x := by
    refine observe_inv (fun s : Search S × Rows =>
      s.2.Inv (CTDataMem.layout calls) opts s.1 ∧ s.2.PathDumped s.1) hrun
      ⟨Rows.inv_start (CTDataMem.inputVector_layout calls) dataMem, ?_⟩ hfits ?_
    · intro target initClk hpoint
      cases hpoint
    · rintro s a t es ⟨hs, -⟩ ha ht
      exact ⟨Rows.inv_stepRows hs hlaid hwidth hstep ha ht, Rows.pathDumped_step hs hwidth hstep ht⟩
  obtain ⟨path, data, hpath, hle, hdata, hdump, hformed, hpathFormed, hclk, hslice⟩ :=
    Rows.slice_of_accept hinv hdumped hlaid hlisting hfit hnodup hrows hy
  refine ⟨path, hpath, hle, fun bound hbound p sig hp k hk => ?_⟩
  obtain ⟨k, rfl⟩ := Nat.exists_eq_succ_of_ne_zero (Nat.ne_of_gt hk)
  rw [hdata, hdump]
  split
  · rename_i hkc
    have hkb : k ≤ bound := by omega
    rw [Nat.succ_eq_add_one, hformed.drivenInput_eq hwidth hkb,
      hpathFormed.drivenInput_eq hwidth hkb, hslice p sig hp k (by omega)]
  · rename_i hkc
    have hlen : data.inputVector.length ≤ k := by
      rw [hformed.length, hclk]
      omega
    rw [Nat.succ_eq_add_one, drivenInput, Testbench.opcode_atMarker, readmemb,
      hformed.words_dump hwidth, List.getElem?_eq_none]
    · rfl
    · exact (List.length_take_le' _ _).trans hlen

end Runs

/-! ## One value -/

theorem one_clock_lt : 2 < 2 ^ 32 := by decide

/-- The model has a one for `a` at clock 2. -/
def oneItems : List ModelItem :=
  [.entry ⟨['a'], 2, ['1'], a_chars, one_clock_lt, one_ne_nil, one_bits⟩]

def oneAnswer : DataAnswer Bool := { resumeAnswer with modelLog := listingLines oneItems }

theorem one_fitting : PathData.Fitting (CTDataMem.layout resumePorts) oneItems := by
  intro e he sig hsig
  obtain rfl := List.mem_singleton.mp he
  have ha : (CTDataMem.layout resumePorts).inPorts "a".toList = some ⟨0, 0, 1⟩ := by decide
  obtain rfl : sig = ⟨0, 0, 1⟩ := Option.some.inj (hsig.symm.trans ha)
  rfl

/-- The fifth step accepts a candidate at clock 3; `a` was always zero before. -/
theorem one_inputs :
    ∃ x m y m' events events', observe (Search.stepRows nestedDesign resumeOptions true id)
        resumeStart (List.replicate 4 resumeAnswer) = some ((x, m), events) ∧
      Search.stepRows nestedDesign resumeOptions true id (x, m) oneAnswer =
        some ((y, m'), events') ∧
      [1, 2, 3, 4].map (drivenInput 4 (dumpText m'.dataMem) ⟨0, 0, 1⟩) =
        [some ['0'], some ['1'], some ['0'], none] := by
  have hrun : (observe (Search.stepRows nestedDesign resumeOptions true id) resumeStart
      (List.replicate 4 resumeAnswer)).map (fun r =>
        ([1, 2, 3].map (drivenInput 4 (dumpText r.1.2.dataMem) ⟨0, 0, 1⟩),
          r.1.1.path.map r.1.1.clk,
          (Search.stepRows nestedDesign resumeOptions true id r.1 oneAnswer).map
            fun t => Rows.acceptedClock t.1.1.point)) =
      some ([some ['0'], some ['0'], some ['0']], some 4, some (some 3)) := by decide +kernel
  obtain ⟨⟨⟨x, m⟩, events⟩, hrun, heq⟩ := Option.map_eq_some_iff.mp hrun
  simp only [List.map_cons, List.map_nil, Prod.mk.injEq, List.cons.injEq] at heq
  obtain ⟨⟨h1, h2, h3, -⟩, hclk, hnext⟩ := heq
  obtain ⟨⟨⟨y, m'⟩, events'⟩, hrows, hy⟩ := Option.map_eq_some_iff.mp hnext
  obtain ⟨target, hy⟩ := confirm_of_acceptedClock hy
  obtain ⟨path, hpath, -, hdriven⟩ := @stepCoverage_inputs _ _ _ _ _ _ resumePorts
    (by decide) (by decide) (by decide) _ _ _ _ _
    (fun a ha => List.eq_of_mem_replicate ha ▸ resume_fits) _ _ _ hrun oneAnswer _ rfl one_fitting
    (by decide) _ _ _ hrows _ _ hy
  rw [hpath, Option.map_some, Option.some.injEq] at hclk
  have ha : (CTDataMem.layout resumePorts).inPorts "a".toList = some ⟨0, 0, 1⟩ := by decide
  have hk := hdriven 4 hclk.le _ _ ha
  refine ⟨x, m, y, m', events, events', hrun, hrows, ?_⟩
  have hlisted : [1, 2, 3].map (listedValue oneItems "a".toList) = [none, some ['1'], none] := by
    decide
  simp only [List.map_cons, List.map_nil, List.cons.injEq] at hlisted
  obtain ⟨l1, l2, l3, -⟩ := hlisted
  simp only [List.map_cons, List.map_nil, hk 1 (by decide), hk 2 (by decide), hk 3 (by decide),
    hk 4 (by decide), l1, l2, l3, h1, h2, h3]
  rfl

end Conquest
