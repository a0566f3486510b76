import Conquest.Lib.Text

/-!
# DataMem — input rows, port layout and the solver's model

`CTDataMem` holds one row of input bits per clock. `add_input` lays the ports
out from bit 0 upwards, `update_input_vectors` reads the listing of a model
(`(= name_k 0bBITS)`, one value a line) and overwrites the bits of port `name`
in row `k-1`, and the generated testbench gives the port the slice
`_conc_opcode[msb:lsb]` of the row of its clock.

The scanner works by position: the name starts at column 3 and runs to the last
underscore before the first blank, which a NUL overwrites; the digits between
the two are the clock; the value starts three columns after the blank.
-/

namespace Conquest

open Text

/-! ## The source's data and operations -/

/-- `sig_pos`: the bits of the row that belong to a port. -/
structure SigPos where
  msb : Nat
  lsb : Nat
  width : Nat
  deriving DecidableEq, Repr

/-- `CTDataMem`: the layout's width, `in_ports`, and the rows. -/
structure CTDataMem where
  width : Nat
  inPorts : Line → Option SigPos
  inputVector : List Line

namespace CTDataMem

/-- The constructor. -/
def empty : CTDataMem where
  width := 0
  inPorts := fun _ => none
  inputVector := []

/-- `add_input(name, port_width)`: the port takes the next `port_width` bits. -/
def addInput (d : CTDataMem) (name : Line) (portWidth : Nat) : CTDataMem :=
  let sig : SigPos :=
    { lsb := d.width, msb := d.width + portWidth - 1, width := portWidth }
  { d with
    inPorts := Function.update d.inPorts name (some sig)
    width := d.width + portWidth }

/-- `modify(clock, sig, value)`; `none` for a row that is not there and for the
exception `replace` throws when the port reaches beyond the row. -/
def modify (d : CTDataMem) (clock : Nat) (sig : SigPos) (value : Line) :
    Option CTDataMem :=
  match d.inputVector[clock]? with
  | none => none
  | some str =>
      if sig.msb + 1 ≤ str.length then
        some { d with
          inputVector := d.inputVector.set clock
            (replaceAt (str.length - sig.msb - 1) sig.width value str) }
      else none

/-- The parse of one line of the listing that is not skipped: the position of
the last underscore, the start of the value, and the line with a NUL in place
of its first blank. -/
def scanLine (line : Line) : Option (Nat × Nat × Line) := do
  let pos ← scanTo ' ' line 3
  let line := line.set pos '\x00'
  let mark ← scanBack '_' line (pos - 1)
  return (mark, pos + 3, line)

/-- One turn of the loop of `update_input_vectors`. -/
def updateLine (clockLimitation : Nat) (d : CTDataMem) (line : Line) : Option CTDataMem :=
  if "(function".toList <:+: line ∨ (line)[0]? = some ' ' then some d
  else
    match scanLine line with
    | none => none
    | some (pos, mark1, line) =>
        -- the length `pos-3` is unsigned: before column 3 it exceeds the line
        let name := (line.drop 3).take (if pos < 3 then line.length else pos - 3)
        match d.inPorts name with
        | none => some d
        | some sig =>
            let clock := parseDec (line.drop (pos + 1)) 0
            -- clock 0 is skipped
            if clock = 0 then some d
            else
              match scanTo ')' line (mark1 + 1) with
              | none => none
              | some close =>
                  if clock ≤ clockLimitation then
                    d.modify (clock - 1) sig ((line.drop mark1).take (close - mark1))
                  else some d

/-- `update_input_vectors` on the lines of the listing. -/
def updateInputVectors (clockLimitation : Nat) (d : CTDataMem) (listing : List Line) :
    Option CTDataMem :=
  listing.foldlM (updateLine clockLimitation) d

/-- The layout after a sequence of `add_input` calls. -/
def layout (calls : List (Line × Nat)) : CTDataMem :=
  calls.foldl (fun d c => d.addInput c.1 c.2) empty

end CTDataMem

/-- The part select `generate_tb` prints for a port: `[msb:lsb]`, or `[msb]`
for a port of one bit. -/
def tbPartSelect (sig : SigPos) : Nat × Nat :=
  if sig.width > 1 then (sig.msb, sig.lsb) else (sig.msb, sig.msb)

/-- Bit `i` of `_conc_opcode` after `$readmemb` read the row: the row's last
character is bit 0. -/
def opcodeBit (row : Line) (i : Nat) : Option Char := row.reverse[i]?

/-- The Verilog part select `_conc_opcode[hi:lo]`, most significant bit first. -/
def opcodeSlice (row : Line) (sel : Nat × Nat) : Line :=
  ((row.reverse.drop sel.2).take (sel.1 - sel.2 + 1)).reverse

/-! ## Listings of a model -/

/-- A value the listing gives: `(= name_k 0bBITS)`. The clock is the version of
an SSA term, an `unsigned int`. -/
structure ModelEntry where
  name : Line
  clock : Nat
  bits : Line
  name_chars : ∀ c ∈ name, c ≠ ' ' ∧ c ≠ '('
  clock_lt : clock < 2 ^ 32
  bits_ne_nil : bits ≠ []
  bits_chars : ∀ c ∈ bits, c = '0' ∨ c = '1'

/-- The listing's line for a value. -/
def ModelEntry.line (e : ModelEntry) : Line :=
  "(= ".toList ++ (e.name ++ '_' :: (toDec e.clock ++ ' ' :: ("0b".toList ++ (e.bits ++ [')']))))

/-- The value of an array: a line with `(function` and lines that start with a
blank. -/
structure FunctionBlock where
  head : Line
  body : List Line
  head_function : "(function".toList <:+: head
  body_blank : ∀ l ∈ body, l[0]? = some ' '

/-- One item of a listing. -/
inductive ModelItem where
  | entry (e : ModelEntry)
  | function (b : FunctionBlock)

def ModelItem.lines : ModelItem → List Line
  | .entry e => [e.line]
  | .function b => b.head :: b.body

def ModelItem.entry? : ModelItem → Option ModelEntry
  | .entry e => some e
  | .function _ => none

/-- The lines of a whole listing. -/
def listingLines (items : List ModelItem) : List Line :=
  items.flatMap ModelItem.lines

/-- The values of a listing, in order. -/
def listingEntries (items : List ModelItem) : List ModelEntry :=
  items.filterMap ModelItem.entry?

/-! ## Scanning one line -/

/-- The line of a value after its first blank became a NUL. -/
def ModelEntry.cut (e : ModelEntry) : Line :=
  "(= ".toList ++ (e.name ++ '_' :: (toDec e.clock ++ '\x00' :: ("0b".toList ++ (e.bits ++ [')']))))

/-- The column of the first blank. -/
def ModelEntry.blank (e : ModelEntry) : Nat := 3 + (e.name.length + (toDec e.clock).length + 1)

theorem ModelEntry.scanLine_line (e : ModelEntry) :
    CTDataMem.scanLine e.line = some (3 + e.name.length, e.blank + 3, e.cut) := by
  have hfree : ' ' ∉ e.name ++ '_' :: toDec e.clock := by
    simp only [List.mem_append, List.mem_cons, not_or]
    exact ⟨fun h => (e.name_chars _ h).1 rfl, by decide, toDec_free (by decide) _⟩
  have hblank : scanTo ' ' e.line 3 = some e.blank := by
    have hl : e.line = "(= ".toList ++
        ((e.name ++ '_' :: toDec e.clock) ++ ' ' :: ("0b".toList ++ (e.bits ++ [')']))) := by
      simp [line]
    rw [scanTo_append hl (show ("(= ".toList).length = 3 from rfl) hfree]
    simp [blank, Nat.add_assoc]
  have hset : e.line.set e.blank '\x00' = e.cut := by
    have hl : e.line = ("(= ".toList ++ (e.name ++ '_' :: toDec e.clock)) ++
        ' ' :: ("0b".toList ++ (e.bits ++ [')'])) := by
      simp [line]
    have hlen : ("(= ".toList ++ (e.name ++ '_' :: toDec e.clock)).length = e.blank := by
      simp [blank]
      omega
    rw [hl, List.set_append_right _ _ (by omega), hlen, Nat.sub_self, List.set_cons_zero]
    simp [cut]
  have hmark : scanBack '_' e.cut (e.blank - 1) = some (3 + e.name.length) := by
    have hl : e.cut = ("(= ".toList ++ e.name) ++ '_' ::
        (toDec e.clock ++ '\x00' :: ("0b".toList ++ (e.bits ++ [')']))) := by
      simp [cut]
    have hlen : ("(= ".toList ++ e.name).length = 3 + e.name.length := by
      simp
      omega
    rw [scanBack_append hl (by rw [hlen, blank]; omega) (toDec_free (by decide) _), hlen]
  simp only [CTDataMem.scanLine, hblank, hset, hmark, Option.bind_eq_bind, Option.bind_some]
  rfl

theorem ModelEntry.name_cut (e : ModelEntry) :
    (e.cut.drop 3).take (3 + e.name.length - 3) = e.name := by
  rw [Nat.add_sub_cancel_left, cut]
  exact List.take_left

theorem ModelEntry.clock_cut (e : ModelEntry) :
    parseDec (e.cut.drop (3 + e.name.length + 1)) 0 = e.clock := by
  have hl : e.cut = ("(= ".toList ++ (e.name ++ ['_'])) ++
      (toDec e.clock ++ '\x00' :: ("0b".toList ++ (e.bits ++ [')']))) := by
    simp [cut]
  have hlen : ("(= ".toList ++ (e.name ++ ['_'])).length = 3 + e.name.length + 1 := by
    simp
    omega
  rw [hl, ← hlen, List.drop_left, parseDec_toDec e.clock_lt]

/-- The line from the value on. -/
theorem ModelEntry.cut_value (e : ModelEntry) :
    ∃ pre : Line, pre.length = e.blank + 3 ∧ e.cut = pre ++ (e.bits ++ [')']) := by
  refine ⟨"(= ".toList ++ (e.name ++ '_' :: (toDec e.clock ++ '\x00' :: "0b".toList)), ?_, ?_⟩
  · simp [blank]
    omega
  · simp [cut]

theorem ModelEntry.close_cut (e : ModelEntry) :
    scanTo ')' e.cut (e.blank + 3 + 1) = some (e.blank + 3 + e.bits.length) := by
  obtain ⟨pre, hlen, hl⟩ := e.cut_value
  have hfree : ')' ∉ e.bits := fun h => by
    rcases e.bits_chars _ h with hc | hc <;> exact absurd hc (by decide)
  cases hb : e.bits with
  | nil => exact absurd hb e.bits_ne_nil
  | cons b bs =>
      rw [hb] at hl hfree
      have hl' : e.cut = (pre ++ [b]) ++ (bs ++ ')' :: []) := by
        simp [hl]
      rw [scanTo_append hl' (by simp [hlen]) (List.not_mem_of_not_mem_cons hfree),
        List.length_cons]
      congr 1
      omega

theorem ModelEntry.value_cut (e : ModelEntry) :
    (e.cut.drop (e.blank + 3)).take (e.blank + 3 + e.bits.length - (e.blank + 3)) = e.bits := by
  obtain ⟨pre, hlen, hl⟩ := e.cut_value
  rw [Nat.add_sub_cancel_left, hl, ← hlen, List.drop_left, List.take_left]

theorem ModelEntry.not_skipped (e : ModelEntry) :
    ¬ ("(function".toList <:+: e.line ∨ e.line[0]? = some ' ') := by
  have hline : e.line = '(' :: ("= ".toList ++
      (e.name ++ '_' :: (toDec e.clock ++ ' ' :: ("0b".toList ++ (e.bits ++ [')']))))) := rfl
  rw [hline]
  rintro (h | h)
  · rcases List.infix_cons_iff.mp h with hpre | hin
    · simp [List.cons_prefix_cons] at hpre
    · have hmem := hin.subset (show '(' ∈ "(function".toList by decide)
      simp only [List.mem_append, List.mem_cons, List.not_mem_nil, or_false] at hmem
      rcases hmem with h | h | h | h | h | h | h | h
      · exact absurd h (by decide)
      · exact (e.name_chars _ h).2 rfl
      · exact absurd h (by decide)
      · exact toDec_free (by decide) _ h
      · exact absurd h (by decide)
      · exact absurd h (by decide)
      · rcases e.bits_chars _ h with hc | hc <;> exact absurd hc (by decide)
      · exact absurd h (by decide)
  · simp at h

namespace CTDataMem

/-- What a value of the listing does to the rows. -/
def applyEntry (clockLimitation : Nat) (d : CTDataMem) (e : ModelEntry) : Option CTDataMem :=
  match d.inPorts e.name with
  | none => some d
  | some sig =>
      if 0 < e.clock ∧ e.clock ≤ clockLimitation then d.modify (e.clock - 1) sig e.bits
      else some d

theorem updateLine_entry (n : Nat) (d : CTDataMem) (e : ModelEntry) :
    updateLine n d e.line = applyEntry n d e := by
  have hpos : ¬ 3 + e.name.length < 3 := by omega
  unfold updateLine applyEntry
  simp only [e.not_skipped, if_false, e.scanLine_line, hpos, e.name_cut, e.clock_cut,
    e.close_cut, e.value_cut]
  cases d.inPorts e.name with
  | none => rfl
  | some sig =>
      by_cases hzero : e.clock = 0
      · simp [hzero]
      · have hclock : 0 < e.clock := by omega
        simp [hzero, hclock]

theorem updateInputVectors_function (n : Nat) (d : CTDataMem) (b : FunctionBlock) :
    updateInputVectors n d (b.head :: b.body) = some d := by
  have hskip : ∀ l ∈ b.body, updateLine n d l = some d := fun l hl =>
    if_pos (.inr (b.body_blank l hl))
  have hbody : ∀ body : List Line, (∀ l ∈ body, updateLine n d l = some d) →
      body.foldlM (updateLine n) d = some d := by
    intro body h
    induction body with
    | nil => rfl
    | cons l body ih =>
        rw [List.foldlM_cons, h l List.mem_cons_self]
        exact ih fun l hl => h l (List.mem_cons_of_mem _ hl)
  have hhead : updateLine n d b.head = some d := if_pos (.inl b.head_function)
  rw [updateInputVectors, List.foldlM_cons, hhead]
  exact hbody b.body hskip

/-- Reading a listing is applying its values in order. -/
theorem updateInputVectors_listing (n : Nat) (d : CTDataMem) (items : List ModelItem) :
    updateInputVectors n d (listingLines items) =
      (listingEntries items).foldlM (applyEntry n) d := by
  induction items generalizing d with
  | nil => rfl
  | cons item items ih =>
      have hsplit : updateInputVectors n d (listingLines (item :: items)) =
          (updateInputVectors n d item.lines).bind fun d' =>
            updateInputVectors n d' (listingLines items) := by
        simp only [updateInputVectors, listingLines, List.flatMap_cons, List.foldlM_append]
        rfl
      rw [hsplit]
      cases item with
      | entry e =>
          have hone : updateInputVectors n d [e.line] = applyEntry n d e := by
            simp [updateInputVectors, updateLine_entry]
          rw [show ModelItem.lines (.entry e) = [e.line] from rfl, hone, funext ih]
          rfl
      | function b =>
          rw [show ModelItem.lines (.function b) = b.head :: b.body from rfl,
            updateInputVectors_function]
          exact ih d

/-! ## Layouts -/

/-- Every port has at least one bit, lies within the layout, and shares no bit
with another port. -/
structure WellLaid (d : CTDataMem) : Prop where
  width_pos : ∀ {p sig}, d.inPorts p = some sig → 1 ≤ sig.width
  msb_eq : ∀ {p sig}, d.inPorts p = some sig → sig.msb + 1 = sig.lsb + sig.width
  within : ∀ {p sig}, d.inPorts p = some sig → sig.lsb + sig.width ≤ d.width
  disjoint : ∀ {p q sig sig'}, d.inPorts p = some sig → d.inPorts q = some sig' → p ≠ q →
    sig.lsb + sig.width ≤ sig'.lsb ∨ sig'.lsb + sig'.width ≤ sig.lsb

theorem wellLaid_addInput {d : CTDataMem} (h : d.WellLaid) (name : Line) {w : Nat}
    (hw : 1 ≤ w) : (d.addInput name w).WellLaid := by
  have hport : ∀ {p sig}, (d.addInput name w).inPorts p = some sig →
      (p = name ∧ sig = ⟨d.width + w - 1, d.width, w⟩) ∨
        (p ≠ name ∧ d.inPorts p = some sig) := by
    intro p sig hp
    by_cases hpn : p = name
    · subst hpn
      simp only [addInput, Function.update_self, Option.some.injEq] at hp
      exact .inl ⟨rfl, hp.symm⟩
    · simp only [addInput, Function.update_of_ne hpn] at hp
      exact .inr ⟨hpn, hp⟩
  have hwidth : (d.addInput name w).width = d.width + w := rfl
  constructor
  · intro p sig hp
    rcases hport hp with ⟨-, rfl⟩ | ⟨-, hp⟩
    · exact hw
    · exact h.width_pos hp
  · intro p sig hp
    rcases hport hp with ⟨-, rfl⟩ | ⟨-, hp⟩
    · simp only
      omega
    · exact h.msb_eq hp
  · intro p sig hp
    rw [hwidth]
    rcases hport hp with ⟨-, rfl⟩ | ⟨-, hp⟩
    · exact le_rfl
    · have := h.within hp
      omega
  · intro p q sig sig' hp hq hne
    rcases hport hp with ⟨hpn, rfl⟩ | ⟨-, hp'⟩ <;> rcases hport hq with ⟨hqn, rfl⟩ | ⟨-, hq'⟩
    · exact absurd (hpn.trans hqn.symm) hne
    · exact .inr (h.within hq')
    · exact .inl (h.within hp')
    · exact h.disjoint hp' hq' hne

theorem wellLaid_layout {calls : List (Line × Nat)} (h : ∀ c ∈ calls, 1 ≤ c.2) :
    (layout calls).WellLaid := by
  have hfold : ∀ (calls : List (Line × Nat)) (d : CTDataMem), d.WellLaid →
      (∀ c ∈ calls, 1 ≤ c.2) → (calls.foldl (fun d c => d.addInput c.1 c.2) d).WellLaid := by
    intro calls
    induction calls with
    | nil =>
        intro d hd _
        exact hd
    | cons c calls ih =>
        intro d hd hw
        exact ih _ (wellLaid_addInput hd c.1 (hw c List.mem_cons_self))
          fun c' hc' => hw c' (List.mem_cons_of_mem _ hc')
  refine hfold calls empty ?_ h
  constructor <;> intros <;> simp_all [empty]

/-- No row is there before the first one is generated or loaded. -/
theorem inputVector_layout (calls : List (Line × Nat)) : (layout calls).inputVector = [] := by
  have hfold : ∀ (calls : List (Line × Nat)) (d : CTDataMem),
      (calls.foldl (fun d c => d.addInput c.1 c.2) d).inputVector = d.inputVector := by
    intro calls
    induction calls with
    | nil => exact fun _ => rfl
    | cons c calls ih => exact fun d => ih (d.addInput c.1 c.2)
  exact hfold calls empty

/-- With distinct names, the ports of the layout are those added, each with its
width. -/
theorem inPorts_layout {calls : List (Line × Nat)} (h : (calls.map Prod.fst).Nodup) {p : Line}
    {w : Nat} : (∃ sig, (layout calls).inPorts p = some sig ∧ sig.width = w) ↔ (p, w) ∈ calls := by
  have hfold : ∀ (calls : List (Line × Nat)) (d : CTDataMem), (calls.map Prod.fst).Nodup →
      (∀ c ∈ calls, d.inPorts c.1 = none) →
      ((∃ sig, (calls.foldl (fun d c => d.addInput c.1 c.2) d).inPorts p = some sig ∧
          sig.width = w) ↔
        (p, w) ∈ calls ∨ ∃ sig, d.inPorts p = some sig ∧ sig.width = w) := by
    intro calls
    induction calls with
    | nil =>
        intro d _ _
        simp
    | cons c calls ih =>
        intro d hnodup hfresh
        rw [List.map_cons, List.nodup_cons] at hnodup
        have hrest : ∀ c' ∈ calls, (d.addInput c.1 c.2).inPorts c'.1 = none := by
          intro c' hc'
          have hne : c'.1 ≠ c.1 := fun heq => hnodup.1 (heq ▸ List.mem_map_of_mem hc')
          simp only [addInput, Function.update_of_ne hne]
          exact hfresh c' (List.mem_cons_of_mem _ hc')
        rw [List.foldl_cons, ih _ hnodup.2 hrest, List.mem_cons]
        by_cases hp : p = c.1
        · subst hp
          have hnone : d.inPorts c.1 = none := hfresh c List.mem_cons_self
          simp [addInput, hnone, Prod.ext_iff, or_comm, eq_comm]
        · simp [addInput, Prod.ext_iff, hp]
  have hempty : ∀ c ∈ calls, empty.inPorts c.1 = none := fun _ _ => rfl
  rw [layout, hfold calls empty h hempty]
  simp [empty]

/-! ## The bits of the rows -/

/-- Bit `i` of row `j`. -/
def bit (d : CTDataMem) (j i : Nat) : Option Char := d.inputVector[j]?.bind (opcodeBit · i)

/-- The slice of row `j` that the testbench gives to a port. -/
def slice (d : CTDataMem) (j : Nat) (sig : SigPos) : Option Line :=
  d.inputVector[j]?.map (opcodeSlice · (tbPartSelect sig))

/-- Every row has the layout's width. -/
def RowsFit (d : CTDataMem) : Prop := ∀ r ∈ d.inputVector, r.length = d.width

/-- `d'` has the ports of `d` and as many rows, all of the layout's width. -/
structure SameShape (d d' : CTDataMem) : Prop where
  width : d'.width = d.width
  inPorts : d'.inPorts = d.inPorts
  length : d'.inputVector.length = d.inputVector.length
  fit : d'.RowsFit

theorem opcodeSlice_congr {r r' : Line} {lo hi : Nat}
    (h : ∀ i, lo ≤ i → i ≤ hi → opcodeBit r i = opcodeBit r' i) (hle : lo ≤ hi) :
    opcodeSlice r (hi, lo) = opcodeSlice r' (hi, lo) := by
  unfold opcodeSlice
  congr 1
  refine List.ext_getElem? fun i => ?_
  rw [List.getElem?_take, List.getElem?_take, List.getElem?_drop, List.getElem?_drop]
  split
  · exact h (lo + i) (by simp) (by simp at *; omega)
  · rfl

/-- A port's slice of one bit is written `[msb]`. -/
theorem tbPartSelect_eq {d : CTDataMem} (hd : d.WellLaid) {p : Line} {sig : SigPos}
    (hp : d.inPorts p = some sig) : tbPartSelect sig = (sig.msb, sig.lsb) := by
  have hw := hd.width_pos hp
  have hm := hd.msb_eq hp
  unfold tbPartSelect
  split
  · rfl
  · rw [show sig.msb = sig.lsb by omega]

theorem slice_congr {d d₁ d₂ : CTDataMem} (hd : d.WellLaid) {p : Line} {sig : SigPos}
    (hp : d.inPorts p = some sig) {j : Nat}
    (hlen : d₁.inputVector.length = d₂.inputVector.length)
    (h : ∀ i, sig.lsb ≤ i → i ≤ sig.msb → d₁.bit j i = d₂.bit j i) :
    d₁.slice j sig = d₂.slice j sig := by
  have hle : sig.lsb ≤ sig.msb := by
    have := hd.width_pos hp
    have := hd.msb_eq hp
    omega
  unfold slice
  by_cases hj : j < d₁.inputVector.length
  · have hj' : j < d₂.inputVector.length := by omega
    simp only [bit, List.getElem?_eq_getElem hj, List.getElem?_eq_getElem hj',
      Option.bind_some] at h
    rw [List.getElem?_eq_getElem hj, List.getElem?_eq_getElem hj', tbPartSelect_eq hd hp]
    exact congrArg some (opcodeSlice_congr h hle)
  · rw [List.getElem?_eq_none (by omega), List.getElem?_eq_none (by omega)]

/-- What `modify` does to a port of the layout: its slice becomes the value and
all other bits stay. -/
theorem modify_spec {d : CTDataMem} (hd : d.WellLaid) (hfit : d.RowsFit) {p : Line}
    {sig : SigPos} (hp : d.inPorts p = some sig) {clock : Nat}
    (hc : clock < d.inputVector.length) {value : Line} (hv : value.length = sig.width) :
    ∃ d', d.modify clock sig value = some d' ∧ SameShape d d' ∧
      d'.slice clock sig = some value ∧
      ∀ j i, (j = clock → i < sig.lsb ∨ sig.msb < i) → d'.bit j i = d.bit j i := by
  have hw := hd.width_pos hp
  have hm := hd.msb_eq hp
  have hin := hd.within hp
  have hrow : (d.inputVector[clock]).length = d.width := hfit _ (List.getElem_mem _)
  generalize hstr : d.inputVector[clock] = str at hrow
  have hstr? : d.inputVector[clock]? = some str := by rw [List.getElem?_eq_getElem hc, hstr]
  have hpos : str.length - sig.msb - 1 + sig.width ≤ str.length := by omega
  -- a row is stored from its highest bit down: seen from the other end, the
  -- replaced part starts at the lowest bit of the port
  have hrev : (replaceAt (str.length - sig.msb - 1) sig.width value str).reverse =
      replaceAt sig.lsb sig.width value.reverse str.reverse := by
    rw [reverse_replaceAt value hpos]
    congr 1
    omega
  have hvr : value.reverse.length = sig.width := by simpa using hv
  have hfitr : sig.lsb + sig.width ≤ str.reverse.length := by
    rw [List.length_reverse]
    omega
  let str' := replaceAt (str.length - sig.msb - 1) sig.width value str
  refine ⟨{ d with inputVector := d.inputVector.set clock str' }, ?_, ⟨rfl, rfl, ?_, ?_⟩, ?_, ?_⟩
  · have hmsb : sig.msb + 1 ≤ str.length := by omega
    simp only [modify, hstr?, if_pos hmsb, str']
  · exact List.length_set
  · intro r hr
    rcases List.mem_or_eq_of_mem_set hr with hr | rfl
    · exact hfit r hr
    · rw [length_replaceAt hv hpos, hrow]
  · have hdrop : (replaceAt sig.lsb sig.width value.reverse str.reverse).drop sig.lsb =
        value.reverse ++ str.reverse.drop (sig.lsb + sig.width) := by
      have htake : (str.reverse.take sig.lsb).length = sig.lsb := by
        rw [List.length_take]
        omega
      rw [replaceAt, List.append_assoc]
      nth_rewrite 1 [← htake]
      exact List.drop_left
    have hcount : sig.msb - sig.lsb + 1 = value.reverse.length := by omega
    simp only [slice, List.getElem?_set_self hc, Option.map_some, tbPartSelect_eq hd hp,
      opcodeSlice, str', hrev, hdrop, hcount, List.take_left, List.reverse_reverse]
  · intro j i hout
    by_cases hj : j = clock
    · subst hj
      simp only [bit, List.getElem?_set_self hc, hstr?, Option.bind_some, opcodeBit,
        str', hrev]
      exact getElem?_replaceAt_outside hvr hfitr (by have := hout rfl; omega)
    · simp only [bit, List.getElem?_set_ne (Ne.symm hj)]

/-! ## A whole listing -/

/-- Some value of the listing is for bit `i` of row `j`. -/
def Listed (d : CTDataMem) (n : Nat) (entries : List ModelEntry) (j i : Nat) : Prop :=
  ∃ e ∈ entries, ∃ sig, d.inPorts e.name = some sig ∧ e.clock = j + 1 ∧ e.clock ≤ n ∧
    sig.lsb ≤ i ∧ i ≤ sig.msb

/-- One value: its own slice is written, the bits it is not for are kept. -/
theorem applyEntry_spec {d : CTDataMem} (hd : d.WellLaid) (hfit : d.RowsFit) {n : Nat}
    (hn : n ≤ d.inputVector.length) {e : ModelEntry}
    (hbits : ∀ sig, d.inPorts e.name = some sig → e.bits.length = sig.width) :
    ∃ d', applyEntry n d e = some d' ∧ SameShape d d' ∧
      (∀ sig, d.inPorts e.name = some sig → 0 < e.clock → e.clock ≤ n →
        d'.slice (e.clock - 1) sig = some e.bits) ∧
      ∀ j i, ¬ d.Listed n [e] j i → d'.bit j i = d.bit j i := by
  unfold applyEntry
  cases hp : d.inPorts e.name with
  | none =>
      exact ⟨d, rfl, ⟨rfl, rfl, rfl, hfit⟩, fun sig hsig => by simp at hsig, fun _ _ _ => rfl⟩
  | some sig =>
      by_cases hclock : 0 < e.clock ∧ e.clock ≤ n
      · obtain ⟨d', hmod, hshape, hslice, hframe⟩ :=
          modify_spec hd hfit hp (show e.clock - 1 < d.inputVector.length by omega) (hbits sig hp)
        refine ⟨d', by simp only [if_pos hclock, hmod], hshape, ?_, ?_⟩
        · intro sig' hsig _ _
          cases hsig
          exact hslice
        · intro j i hnot
          refine hframe j i fun hj => ?_
          by_contra hin
          exact hnot ⟨e, List.mem_singleton_self e, sig, hp, by omega, hclock.2, by omega, by omega⟩
      · refine ⟨d, by simp only [if_neg hclock], ⟨rfl, rfl, rfl, hfit⟩, ?_, fun _ _ _ => rfl⟩
        intro _ _ hpos hle
        exact absurd ⟨hpos, hle⟩ hclock

theorem WellLaid.of_sameShape {d d' : CTDataMem} (hd : d.WellLaid) (h : SameShape d d') :
    d'.WellLaid := by
  constructor
  · intro p sig hp
    exact hd.width_pos (h.inPorts ▸ hp)
  · intro p sig hp
    exact hd.msb_eq (h.inPorts ▸ hp)
  · intro p sig hp
    rw [h.width]
    exact hd.within (h.inPorts ▸ hp)
  · intro p q sig sig' hp hq
    exact hd.disjoint (h.inPorts ▸ hp) (h.inPorts ▸ hq)

/-- A value leaves the bits of every other name and of every other clock. -/
theorem not_listed_of_ne {d : CTDataMem} (hd : d.WellLaid) {n : Nat} {e : ModelEntry}
    {entries : List ModelEntry}
    (hnew : (e.name, e.clock) ∉ entries.map fun e => (e.name, e.clock)) {sig : SigPos}
    (hsig : d.inPorts e.name = some sig) (hpos : 0 < e.clock) {i : Nat}
    (hlo : sig.lsb ≤ i) (hhi : i ≤ sig.msb) : ¬ d.Listed n entries (e.clock - 1) i := by
  rintro ⟨e', he', sig', hsig', hclock, -, hlo', hhi'⟩
  have heq : e'.clock = e.clock := by omega
  by_cases hname : e'.name = e.name
  · exact hnew (List.mem_map.mpr ⟨e', he', by rw [hname, heq]⟩)
  · have := hd.msb_eq hsig
    have := hd.msb_eq hsig'
    have := hd.disjoint hsig' hsig hname
    omega

/-- The values of a listing with distinct `name_k`, in any order: every listed
slice is written and every other bit is kept. -/
theorem applyEntries_spec {d : CTDataMem} (hd : d.WellLaid) (hfit : d.RowsFit) {n : Nat}
    (hn : n ≤ d.inputVector.length) {entries : List ModelEntry}
    (hnodup : (entries.map fun e => (e.name, e.clock)).Nodup)
    (hbits : ∀ e ∈ entries, ∀ sig, d.inPorts e.name = some sig → e.bits.length = sig.width) :
    ∃ d', entries.foldlM (applyEntry n) d = some d' ∧ SameShape d d' ∧
      (∀ e ∈ entries, ∀ sig, d.inPorts e.name = some sig → 0 < e.clock → e.clock ≤ n →
        d'.slice (e.clock - 1) sig = some e.bits) ∧
      ∀ j i, ¬ d.Listed n entries j i → d'.bit j i = d.bit j i := by
  induction entries generalizing d with
  | nil =>
      exact ⟨d, rfl, ⟨rfl, rfl, rfl, hfit⟩, fun e he => absurd he List.not_mem_nil,
        fun _ _ _ => rfl⟩
  | cons e entries ih =>
      rw [List.map_cons, List.nodup_cons] at hnodup
      obtain ⟨d₁, hone, hshape₁, hslice₁, hframe₁⟩ :=
        applyEntry_spec hd hfit hn (hbits e List.mem_cons_self)
      have hlisted : ∀ es j i, d₁.Listed n es j i ↔ d.Listed n es j i := by
        intro es j i
        unfold Listed
        rw [hshape₁.inPorts]
      have hbits₁ : ∀ e' ∈ entries, ∀ sig, d₁.inPorts e'.name = some sig →
          e'.bits.length = sig.width := by
        intro e' he' sig hsig
        rw [hshape₁.inPorts] at hsig
        exact hbits e' (List.mem_cons_of_mem _ he') sig hsig
      obtain ⟨d', hrest, hshape, hslice, hframe⟩ :=
        ih (hd.of_sameShape hshape₁) hshape₁.fit (hshape₁.length ▸ hn) hnodup.2 hbits₁
      refine ⟨d', ?_, ⟨hshape.width.trans hshape₁.width, hshape.inPorts.trans hshape₁.inPorts,
        hshape.length.trans hshape₁.length, hshape.fit⟩, ?_, ?_⟩
      · rw [List.foldlM_cons, hone]
        exact hrest
      · intro e' he' sig hsig hpos hle
        rcases List.mem_cons.mp he' with rfl | he'
        · -- the rest of the listing does not touch the slice just written
          rw [← hslice₁ sig hsig hpos hle]
          refine slice_congr hd hsig hshape.length fun i hlo hhi => hframe _ _ ?_
          rw [hlisted]
          exact not_listed_of_ne hd hnodup.1 hsig hpos hlo hhi
        · exact hslice e' he' sig (by rw [hshape₁.inPorts]; exact hsig) hpos hle
      · intro j i hnot
        have hhead : ¬ d.Listed n [e] j i := by
          rintro ⟨e', he', hrest⟩
          rw [List.mem_singleton] at he'
          exact hnot ⟨e', he' ▸ List.mem_cons_self, hrest⟩
        have htail : ¬ d₁.Listed n entries j i := by
          rw [hlisted]
          rintro ⟨e', he', hrest⟩
          exact hnot ⟨e', List.mem_cons_of_mem _ he', hrest⟩
        rw [hframe j i htail, hframe₁ j i hhead]

/-- **Reading a model into the input rows.** For the layout of any `add_input`
calls, any rows of its width and any listing with distinct `name_k`, the
testbench's slice of row `k-1` holds the listed value of each port for every
listed clock `1 ≤ k ≤ n`, and all other bits are unchanged. -/
theorem updateInputVectors_spec {calls : List (Line × Nat)}
    (hnames : (calls.map Prod.fst).Nodup) (hwidths : ∀ c ∈ calls, 1 ≤ c.2)
    {rows : List Line} (hrows : ∀ r ∈ rows, r.length = (layout calls).width) {n : Nat}
    (hn : n ≤ rows.length) {items : List ModelItem}
    (hnodup : ((listingEntries items).map fun e => (e.name, e.clock)).Nodup)
    (hbits : ∀ e ∈ listingEntries items, ∀ c ∈ calls, c.1 = e.name → e.bits.length = c.2) :
    ∃ d', updateInputVectors n { layout calls with inputVector := rows } (listingLines items) =
        some d' ∧
      SameShape { layout calls with inputVector := rows } d' ∧
      (∀ e ∈ listingEntries items, ∀ c ∈ calls, c.1 = e.name → 1 ≤ e.clock → e.clock ≤ n →
        ∃ sig, (layout calls).inPorts c.1 = some sig ∧ sig.width = c.2 ∧
          d'.slice (e.clock - 1) sig = some e.bits) ∧
      ∀ j i, ¬ (layout calls).Listed n (listingEntries items) j i →
        d'.bit j i = ({ layout calls with inputVector := rows } : CTDataMem).bit j i := by
  have hlaid : WellLaid { layout calls with inputVector := rows } := by
    have h := wellLaid_layout hwidths
    exact ⟨h.width_pos, h.msb_eq, h.within, h.disjoint⟩
  have hports : ∀ e ∈ listingEntries items, ∀ sig, (layout calls).inPorts e.name = some sig →
      e.bits.length = sig.width := by
    intro e he sig hsig
    exact hbits e he _ ((inPorts_layout hnames).mp ⟨sig, hsig, rfl⟩) rfl
  rw [updateInputVectors_listing]
  obtain ⟨d', hrun, hshape, hslice, hframe⟩ :=
    applyEntries_spec hlaid hrows hn hnodup hports
  refine ⟨d', hrun, hshape, ?_, hframe⟩
  intro e he c hc hname hpos hle
  obtain ⟨sig, hsig, hwidth⟩ := (inPorts_layout hnames).mpr hc
  exact ⟨sig, hsig, hwidth, hslice e he sig (hname ▸ hsig) hpos hle⟩

/-- A listing for a layout of two ports: a value each, one of another signal,
and the value of an array. -/
def sampleListing : List ModelItem :=
  [.entry ⟨"v_in".toList, 2, "1010".toList, by decide, by decide, by decide, by decide⟩,
    .function ⟨"(function memory_49".toList, [" (default 0b00))".toList], by decide, by decide⟩,
    .entry ⟨"stato".toList, 1, "01".toList, by decide, by decide, by decide, by decide⟩,
    .entry ⟨"rts".toList, 1, "1".toList, by decide, by decide, by decide, by decide⟩]

/-- Reading `sampleListing` into two rows of five bits. -/
theorem updateInputVectors_sample :
    ∃ d', updateInputVectors 2
        { layout [("rts".toList, 1), ("v_in".toList, 4)] with
          inputVector := ["00000".toList, "00000".toList] } (listingLines sampleListing) =
        some d' ∧
      ∃ sig, (layout [("rts".toList, 1), ("v_in".toList, 4)]).inPorts "v_in".toList = some sig ∧
        sig.width = 4 ∧ d'.slice 1 sig = some "1010".toList := by
  obtain ⟨d', hrun, -, hslice, -⟩ :=
    @updateInputVectors_spec [("rts".toList, 1), ("v_in".toList, 4)] (by decide) (by decide)
      ["00000".toList, "00000".toList] (by decide) 2 (by decide) sampleListing (by decide)
      (by decide)
  have hmem : (⟨"v_in".toList, 2, "1010".toList, by decide, by decide, by decide, by decide⟩ :
      ModelEntry) ∈ listingEntries sampleListing := List.mem_cons_self
  exact ⟨d', hrun, hslice _ hmem ("v_in".toList, 4) (by decide) rfl (by decide) (by decide)⟩

end CTDataMem

end Conquest
