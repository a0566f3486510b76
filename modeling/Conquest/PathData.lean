import Conquest.DataMem

/-!
# PathData — the rows of a path

The number of rows is kept three times: as `clk`, as `step` and as the length of
`input_vector`. Random rows are generated for a step, a path takes them over, is
cut at a clock or cleared, and the values of a model overwrite bits of rows.
-/

namespace Conquest

open Text

/-! ## The source's data and operations -/

/-- A `CTDataMem` with `clk` and `step`: the data of a path. -/
structure PathData extends CTDataMem where
  clk : Nat
  step : Nat

/-- `'0' + (num & 1)`. -/
def lowBit (num : Nat) : Char := if num % 2 = 1 then '1' else '0'

/-- The loop that takes `n` bits of a random number. -/
def takeBits : Nat → Nat → Line
  | 0, _ => []
  | n + 1, num => lowBit num :: takeBits n (num >>> 1)

namespace PathData

/-- The constructor, after the ports are added. -/
def new (ports : CTDataMem) : PathData := { ports with clk := 0, step := 0 }

/-- Row `k` of `generate`: 16 bits of each random number, and what is missing
from one more. -/
def randomRow (enableObsPadding : Bool) (width : Nat) (rand : Nat → Nat) (k : Nat) : Line :=
  let count := width >>> 4
  let extra := width % 16
  let inVector := takeBits extra (rand 0) ++
    (List.range count).flatMap fun i => takeBits 16 (rand (i + 1))
  if enableObsPadding then inVector.set 0 (lowBit k) else inVector

/-- `generate`, with the numbers that `rand` returns; `none` where it asserts a
step and a width. -/
def generate (gStep : Nat) (enableObsPadding : Bool) (rand : Nat → Nat) (d : PathData) :
    Option PathData :=
  if gStep = 0 ∨ d.width = 0 then none
  else
    some { d with
      step := gStep
      clk := gStep
      inputVector := (List.range gStep).map fun k =>
        randomRow enableObsPadding d.width (fun i => rand (k * (d.width >>> 4 + 1) + i)) k }

/-- `ConnectPath`; `none` for a row that the other path does not have. -/
def connectPath (d other : PathData) : Option PathData :=
  ((List.range other.step).mapM fun i => other.inputVector[i]?).map fun rows =>
    { d with
      clk := d.step + d.clk
      inputVector := d.inputVector ++ rows }

/-- `ClearPath`. -/
def clearPath (d : PathData) : PathData := { d with inputVector := [], clk := 0 }

/-- `intercept(source, start, end)`. -/
def intercept (d source : PathData) (start stop : Nat) : PathData :=
  let last := if stop > source.inputVector.length then source.inputVector.length else stop
  { d with
    inPorts := source.inPorts
    width := source.width
    clk := stop
    inputVector := if start < last then (source.inputVector.take last).drop start else [] }

/-- `update_input_vectors`, limited to `clock`. -/
def updateInputVectors (clock : Nat) (listing : List Line) (d : PathData) : Option PathData :=
  (d.toCTDataMem.updateInputVectors clock listing).map fun m => { d with toCTDataMem := m }

/-! ## Well-formed rows -/

/-- There are `clk` rows of `width` digits each, in the layout of the ports. -/
structure Formed (ports : CTDataMem) (d : PathData) : Prop where
  width : d.width = ports.width
  inPorts : d.inPorts = ports.inPorts
  length : d.inputVector.length = d.clk
  fit : d.RowsFit
  digits : ∀ r ∈ d.inputVector, ∀ c ∈ r, c = '0' ∨ c = '1'

theorem lowBit_digit (num : Nat) : lowBit num = '0' ∨ lowBit num = '1' := by
  unfold lowBit
  split
  · exact .inr rfl
  · exact .inl rfl

theorem length_takeBits (n num : Nat) : (takeBits n num).length = n := by
  induction n generalizing num with
  | zero => rfl
  | succ n ih => rw [takeBits, List.length_cons, ih]

theorem takeBits_digits {n num : Nat} {c : Char} (h : c ∈ takeBits n num) : c = '0' ∨ c = '1' := by
  induction n generalizing num with
  | zero => cases h
  | succ n ih =>
      rcases List.mem_cons.mp h with rfl | h
      · exact lowBit_digit num
      · exact ih h

/-- Sixteen bits of each number and the rest of one more are the width. -/
theorem length_randomRow (pad : Bool) (width : Nat) (rand : Nat → Nat) (k : Nat) :
    (randomRow pad width rand k).length = width := by
  have hrow : (takeBits (width % 16) (rand 0) ++
      (List.range (width >>> 4)).flatMap fun i => takeBits 16 (rand (i + 1))).length = width := by
    rw [List.length_append, List.length_flatMap, length_takeBits]
    simp only [length_takeBits, List.map_const', List.sum_replicate_nat, List.length_range]
    rw [Nat.shiftRight_eq_div_pow]
    omega
  unfold randomRow
  dsimp only
  split
  · rw [List.length_set, hrow]
  · exact hrow

theorem randomRow_digits {pad : Bool} {width : Nat} {rand : Nat → Nat} {k : Nat} {c : Char}
    (h : c ∈ randomRow pad width rand k) : c = '0' ∨ c = '1' := by
  have hrow : ∀ c ∈ takeBits (width % 16) (rand 0) ++
      (List.range (width >>> 4)).flatMap fun i => takeBits 16 (rand (i + 1)),
      c = '0' ∨ c = '1' := by
    intro c hc
    rcases List.mem_append.mp hc with hc | hc
    · exact takeBits_digits hc
    · obtain ⟨i, -, hc⟩ := List.mem_flatMap.mp hc
      exact takeBits_digits hc
  unfold randomRow at h
  dsimp only at h
  split at h
  · rcases List.mem_or_eq_of_mem_set h with h | rfl
    · exact hrow c h
    · exact lowBit_digit k
  · exact hrow c h

/-- Reading all rows by their index. -/
theorem mapM_getElem? (rows : List Line) :
    ((List.range rows.length).mapM fun i => rows[i]?) = some rows := by
  induction rows with
  | nil => rfl
  | cons r rows ih =>
      have htail : ((fun i => (r :: rows)[i]?) ∘ Nat.succ) = fun i => rows[i]? := rfl
      rw [List.length_cons, List.range_succ_eq_map, List.mapM_cons, List.mapM_map, htail, ih]
      rfl

section Operations

variable {ports : CTDataMem} {d source other : PathData}

theorem formed_new (hrows : ports.inputVector = []) : Formed ports (new ports) := by
  have hnone : ∀ r, r ∉ (new ports).inputVector := by
    rw [show (new ports).inputVector = [] from hrows]
    exact fun _ => List.not_mem_nil
  exact ⟨rfl, rfl, congrArg List.length hrows, fun r hr => absurd hr (hnone r),
    fun r hr => absurd hr (hnone r)⟩

theorem Formed.generate (h : Formed ports d) {gStep : Nat} (hstep : 1 ≤ gStep)
    (hwidth : 1 ≤ ports.width) (pad : Bool) (rand : Nat → Nat) :
    ∃ d', d.generate gStep pad rand = some d' ∧ Formed ports d' ∧ d'.step = gStep ∧
      d'.clk = gStep := by
  have hw := h.width
  refine ⟨_, if_neg (by omega), ⟨h.width, h.inPorts, ?_, ?_, ?_⟩, rfl, rfl⟩
  · rw [List.length_map, List.length_range]
  · intro r hr
    obtain ⟨k, -, rfl⟩ := List.mem_map.mp hr
    exact length_randomRow pad d.width _ k
  · intro r hr c hc
    obtain ⟨k, -, rfl⟩ := List.mem_map.mp hr
    exact randomRow_digits hc

/-- The rows of another path, which has as many as its step says. -/
theorem Formed.connectPath (h : Formed ports d) (hother : Formed ports other)
    (hclk : other.clk = other.step) (hstep : d.step = other.step) :
    ∃ d', d.connectPath other = some d' ∧ Formed ports d' ∧ d'.step = d.step ∧
      d'.clk = d.clk + d.step := by
  have hrows : ((List.range other.step).mapM fun i => other.inputVector[i]?) =
      some other.inputVector := by
    rw [← hclk, ← hother.length]
    exact mapM_getElem? other.inputVector
  refine ⟨{ d with clk := d.step + d.clk, inputVector := d.inputVector ++ other.inputVector },
    by rw [PathData.connectPath, hrows]; rfl, ⟨h.width, h.inPorts, ?_, ?_, ?_⟩, rfl,
    Nat.add_comm _ _⟩
  · dsimp only
    rw [List.length_append, h.length, hother.length, hclk, hstep, Nat.add_comm]
  · intro r hr
    rcases List.mem_append.mp hr with hr | hr
    · exact h.fit r hr
    · exact (hother.fit r hr).trans (hother.width.trans h.width.symm)
  · intro r hr
    rcases List.mem_append.mp hr with hr | hr
    · exact h.digits r hr
    · exact hother.digits r hr

theorem Formed.clearPath (h : Formed ports d) : Formed ports d.clearPath :=
  ⟨h.width, h.inPorts, rfl, fun _ hr => absurd hr List.not_mem_nil,
    fun _ hr => absurd hr List.not_mem_nil⟩

/-- A cut at a clock that the path has. -/
theorem Formed.intercept (hsource : Formed ports source) {clock : Nat} (hle : clock ≤ source.clk)
    (d : PathData) : Formed ports (d.intercept source 0 clock) := by
  have hlast : ¬ clock > source.inputVector.length := by
    rw [hsource.length]
    omega
  have hrows : (d.intercept source 0 clock).inputVector = source.inputVector.take clock := by
    simp only [PathData.intercept, if_neg hlast, List.drop_zero]
    split
    · rfl
    · rw [show clock = 0 by omega, List.take_zero]
  have hsub : ∀ r ∈ (d.intercept source 0 clock).inputVector, r ∈ source.inputVector := by
    rw [hrows]
    exact fun r hr => List.mem_of_mem_take hr
  refine ⟨hsource.width, hsource.inPorts, ?_, ?_, ?_⟩
  · rw [hrows, List.length_take]
    exact Nat.min_eq_left (by omega)
  · exact fun r hr => hsource.fit r (hsub r hr)
  · exact fun r hr => hsource.digits r (hsub r hr)

/-! ## The values of a model -/

/-- What a value changes has its digits. -/
theorem digits_applyEntry {m m' : CTDataMem} {n : Nat} {e : ModelEntry}
    (h : m.applyEntry n e = some m') (hm : ∀ r ∈ m.inputVector, ∀ c ∈ r, c = '0' ∨ c = '1') :
    ∀ r ∈ m'.inputVector, ∀ c ∈ r, c = '0' ∨ c = '1' := by
  unfold CTDataMem.applyEntry CTDataMem.modify at h
  split at h
  · cases h
    exact hm
  · split at h
    · split at h
      · cases h
      · rename_i str hstr
        split at h
        · cases h
          intro r hr c hc
          rcases List.mem_or_eq_of_mem_set hr with hr | rfl
          · exact hm r hr c hc
          · have hold := hm str (List.mem_of_getElem? hstr)
            rw [replaceAt, List.mem_append, List.mem_append] at hc
            rcases hc with (hc | hc) | hc
            · exact hold c (List.mem_of_mem_take hc)
            · exact e.bits_chars c hc
            · exact hold c (List.mem_of_mem_drop hc)
        · cases h
    · cases h
      exact hm

theorem Formed.wellLaid (h : Formed ports d) (hports : ports.WellLaid) : d.WellLaid where
  width_pos := fun hp => hports.width_pos (h.inPorts ▸ hp)
  msb_eq := fun hp => hports.msb_eq (h.inPorts ▸ hp)
  within := fun hp => h.width ▸ hports.within (h.inPorts ▸ hp)
  disjoint := fun hp hq => hports.disjoint (h.inPorts ▸ hp) (h.inPorts ▸ hq)

/-- The values of a listing have the widths of their ports. -/
def Fitting (ports : CTDataMem) (items : List ModelItem) : Prop :=
  ∀ e ∈ listingEntries items, ∀ sig, ports.inPorts e.name = some sig → e.bits.length = sig.width

/-- No row is out of range for the values up to a clock that the data have. -/
theorem Formed.updateInputVectors (hports : ports.WellLaid) (h : Formed ports d) {clock : Nat}
    (hle : clock ≤ d.clk) {items : List ModelItem} (hfit : Fitting ports items) :
    ∃ d', d.updateInputVectors clock (listingLines items) = some d' ∧ Formed ports d' ∧
      d'.step = d.step ∧ d'.clk = d.clk := by
  have hfold : ∀ (entries : List ModelEntry) (d : PathData), Formed ports d → clock ≤ d.clk →
      (∀ e ∈ entries, ∀ sig, ports.inPorts e.name = some sig → e.bits.length = sig.width) →
      ∃ m, entries.foldlM (CTDataMem.applyEntry clock) d.toCTDataMem = some m ∧
        Formed ports { d with toCTDataMem := m } := by
    intro entries
    induction entries with
    | nil => exact fun d hd _ _ => ⟨d.toCTDataMem, rfl, hd⟩
    | cons e entries ih =>
        intro d hd hle hbits
        have hlaid := hd.wellLaid hports
        obtain ⟨m, hone, hshape, -, -⟩ := CTDataMem.applyEntry_spec hlaid hd.fit
          (hle.trans_eq hd.length.symm) (fun sig hsig => hbits e List.mem_cons_self sig
            (hd.inPorts ▸ hsig))
        have hformed : Formed ports { d with toCTDataMem := m } :=
          ⟨hshape.width.trans hd.width, hshape.inPorts.trans hd.inPorts,
            hshape.length.trans hd.length, hshape.fit, digits_applyEntry hone hd.digits⟩
        obtain ⟨m', hrest, hformed'⟩ := ih _ hformed hle fun e' he' =>
          hbits e' (List.mem_cons_of_mem _ he')
        exact ⟨m', by rw [List.foldlM_cons, hone]; exact hrest, hformed'⟩
  obtain ⟨m, hrun, hformed⟩ := hfold (listingEntries items) d h hle hfit
  refine ⟨{ d with toCTDataMem := m }, ?_, hformed, rfl, rfl⟩
  rw [PathData.updateInputVectors, CTDataMem.updateInputVectors_listing, hrun]
  rfl

end Operations

end PathData

end Conquest
