import Conquest.Lib.Dict
import Conquest.Lib.PyText
import Mathlib.Tactic.Linarith

/-!
# StateFile — the file that carries a state to the learning agent

`build_stack` enters every `;R name = value` record of the simulation log into
`SMTState::stateMap`, a map from register names to the values by clock.
`print_state_at_clock` writes the values of one clock behind the reward and the
action, one `name: value` line for each register, and `parse_sim_log` reads the
file back line by line.

The writer puts the register's name down before it looks for a value, and the
line feed after the value: a register without one at the clock leaves its name
in front of the next line.
-/

namespace Conquest

open Text

/-! ## The map of states -/

/-- `StateData`. -/
structure StateData where
  value : Int
  clock : Nat
  deriving DecidableEq, Repr

/-- `StateValue`: the values of one register, at most one for each clock. -/
structure StateValue where
  stateData : List StateData
  one_per_clock : stateData.Pairwise fun d e => d.clock ≠ e.clock

/-- `SMTState::stateMap`, a `std::map` ordered by name. -/
abbrev StateMap := Std.TreeMap Line StateValue

/-- A name as `fscanf("%s")` reads it from a `;R` record. The testbench displays
it as a Verilog expression, a simple identifier or an element of an array, so it
has no colon either. -/
structure RegName where
  chars : Line
  ne_nil : chars ≠ []
  plain : Plain chars

/-- The arguments of a call of `add_state`. -/
structure StateRecord where
  regName : RegName
  value : Int
  clock : Nat

/-- The value of a clock is updated where there is one, and appended otherwise. -/
def setAt (value : Int) (clock : Nat) : List StateData → List StateData
  | [] => [⟨value, clock⟩]
  | d :: ds => if d.clock = clock then ⟨value, clock⟩ :: ds else d :: setAt value clock ds

theorem clock_of_mem_setAt {value : Int} {clock : Nat} {ds : List StateData} {d : StateData}
    (h : d ∈ setAt value clock ds) : d ∈ ds ∨ d.clock = clock := by
  induction ds with
  | nil =>
      rw [setAt, List.mem_singleton] at h
      simp [h]
  | cons e ds ih =>
      rw [setAt] at h
      split at h
      · rcases List.mem_cons.mp h with rfl | h
        · exact .inr rfl
        · exact .inl (List.mem_cons_of_mem _ h)
      · rcases List.mem_cons.mp h with rfl | h
        · exact .inl List.mem_cons_self
        · exact (ih h).imp_left (List.mem_cons_of_mem _)

theorem pairwise_setAt {value : Int} {clock : Nat} {ds : List StateData}
    (h : ds.Pairwise fun d e => d.clock ≠ e.clock) :
    (setAt value clock ds).Pairwise fun d e => d.clock ≠ e.clock := by
  induction ds with
  | nil => simp [setAt]
  | cons e ds ih =>
      obtain ⟨he, hds⟩ := List.pairwise_cons.mp h
      rw [setAt]
      split
      · rename_i heq
        exact List.pairwise_cons.mpr ⟨fun d hd => heq ▸ he d hd, hds⟩
      · rename_i hne
        refine List.pairwise_cons.mpr ⟨fun d hd => ?_, ih hds⟩
        rcases clock_of_mem_setAt hd with hd | hd
        · exact he d hd
        · exact hd ▸ hne

namespace StateValue

/-- The value of a register that is new to the map. -/
def empty : StateValue := ⟨[], List.Pairwise.nil⟩

/-- The update of `add_state`. -/
def set (s : StateValue) (value : Int) (clock : Nat) : StateValue :=
  ⟨setAt value clock s.stateData, pairwise_setAt s.one_per_clock⟩

/-- The value at a clock. -/
def at? (s : StateValue) (clock : Nat) : Option Int :=
  (s.stateData.find? fun d => d.clock = clock).map (·.value)

end StateValue

/-- `SMTState::add_state`. -/
def addState (m : StateMap) (r : StateRecord) : StateMap :=
  m.insert r.regName.chars ((m.getD r.regName.chars .empty).set r.value r.clock)

/-- The map after any number of simulations. -/
def addStates (calls : List StateRecord) : StateMap := calls.foldl addState ∅

/-! ## The writer -/

/-- Rewards: how `operator<<` prints them and Python's `float` reads them. -/
structure RewardText (ρ : Type) where
  insert : ρ → Line
  float : Line → Option ρ
  insert_ne_nil : ∀ r, insert r ≠ []
  insert_plain : ∀ r, Plain (insert r)

/-- One turn of the loop over the map: the name, and a value and a line feed for
every entry of the clock. -/
def printRegister (clock : Nat) (entry : Line × StateValue) : Line :=
  entry.1 ++ entry.2.stateData.flatMap fun d =>
    if d.clock = clock then ": ".toList ++ showInt d.value ++ ['\n'] else []

/-- `SMTState::print_state_at_clock`: the text of the file. -/
def printStateAtClock {ρ : Type} (R : RewardText ρ) (m : StateMap) (clock : Nat)
    (reward : ρ) (actionIndex : Nat) : Line :=
  "reward: ".toList ++ R.insert reward ++ ['\n'] ++
    ("Action: ".toList ++ toDec actionIndex ++ ['\n']) ++
      m.toList.flatMap (printRegister clock)

/-! ## The reader -/

/-- The key of the reward. -/
def rewardKey : Line := "reward".toList

/-- The key of the action. -/
def actionKey : Line := "Action".toList

/-- One turn of the loop of `parse_sim_log`: the register's name and value, and
`none` for the `IndexError` of a line without a colon. -/
def parseLine (line : Line) : Option (Line × Line) := do
  let parts := (strip line).splitOn ':'
  let registerName ← parts[0]?
  let registerValue ← parts[1]?
  return (strip registerName, strip registerValue)

/-- `parse_sim_log`. -/
def parseSimLog (file : Line) : Option (Dict Line Line) :=
  (fileLines file).foldlM
    (fun cyclesData line => (parseLine line).map fun p => cyclesData.setItem p.1 p.2)
    Dict.empty

/-- `get_state`: the integers behind the first two items. -/
def getState (file : Line) : Option (List Int) := do
  let cyclesData ← parseSimLog file
  (Dict.ofItems (cyclesData.items.drop 2)).items.mapM fun item => int item.2

/-- `get_action`. -/
def getAction (file : Line) : Option Int := do
  let cyclesData ← parseSimLog file
  let action ← cyclesData.getItem actionKey
  int action

/-- `get_reward`. -/
def getReward {ρ : Type} (R : RewardText ρ) (file : Line) : Option ρ := do
  let cyclesData ← parseSimLog file
  let reward ← cyclesData.getItem rewardKey
  R.float reward

/-! ## What the map holds -/

/-- The value a register was last given at a clock. -/
def lastValue (calls : List StateRecord) (name : Line) (clock : Nat) : Option Int :=
  (calls.reverse.find? fun r => r.regName.chars = name ∧ r.clock = clock).map (·.value)

/-- One entry for each register with a value at the clock, in the map's order. -/
def valuesAt (calls : List StateRecord) (clock : Nat) : List (Line × Int) :=
  (addStates calls).keys.filterMap fun name =>
    (lastValue calls name clock).map fun value => (name, value)

theorem find?_setAt (value : Int) (clock c : Nat) (ds : List StateData) :
    (setAt value clock ds).find? (fun d => d.clock = c) =
      if clock = c then some ⟨value, clock⟩ else ds.find? fun d => d.clock = c := by
  induction ds with
  | nil => by_cases h : clock = c <;> simp [setAt, h]
  | cons d ds ih =>
      rw [setAt]
      split
      · rename_i hd
        by_cases h : clock = c <;> simp [h, hd]
      · rename_i hd
        rw [List.find?_cons, List.find?_cons, ih]
        by_cases h : clock = c
        · have hdc : d.clock ≠ c := h ▸ hd
          simp [h, hdc]
        · simp [h]

theorem at?_set (s : StateValue) (value : Int) (clock c : Nat) :
    (s.set value clock).at? c = if clock = c then some value else s.at? c := by
  rw [StateValue.at?, StateValue.set, find?_setAt]
  split <;> rfl

theorem addStates_append (calls : List StateRecord) (r : StateRecord) :
    addStates (calls ++ [r]) = addState (addStates calls) r := by
  simp [addStates]

theorem lastValue_append (calls : List StateRecord) (r : StateRecord) (name : Line)
    (clock : Nat) : lastValue (calls ++ [r]) name clock =
      if r.regName.chars = name ∧ r.clock = clock then some r.value
      else lastValue calls name clock := by
  rw [lastValue, List.reverse_append, List.reverse_singleton, List.singleton_append,
    List.find?_cons]
  by_cases h : r.regName.chars = name ∧ r.clock = clock <;> simp [h, lastValue]

/-- The map answers with the last call for the register and the clock. -/
theorem addStates_at? (calls : List StateRecord) (name : Line) (clock : Nat) :
    ((addStates calls)[name]?).bind (·.at? clock) = lastValue calls name clock := by
  induction calls using List.reverseRecOn with
  | nil => simp [addStates, lastValue]
  | append_singleton calls r ih =>
      rw [addStates_append, lastValue_append, addState, Std.TreeMap.getElem?_insert]
      simp only [Std.compare_eq_iff_eq]
      by_cases hname : r.regName.chars = name
      · rw [if_pos hname, Option.bind_some, at?_set]
        by_cases hclock : r.clock = clock
        · simp [hname, hclock]
        · rw [if_neg hclock, if_neg (by simp [hclock]), ← ih, hname,
            Std.TreeMap.getD_eq_getD_getElem?]
          cases (addStates calls)[name]? <;> rfl
      · rw [if_neg hname, if_neg (by simp [hname]), ih]

theorem mem_addStates {calls : List StateRecord} {name : Line} :
    name ∈ addStates calls ↔ ∃ r ∈ calls, r.regName.chars = name := by
  induction calls using List.reverseRecOn with
  | nil => simp [addStates]
  | append_singleton calls r ih =>
      rw [addStates_append, addState, Std.TreeMap.mem_insert, ih, Std.compare_eq_iff_eq]
      simp only [List.mem_append, List.mem_singleton]
      constructor
      · rintro (h | ⟨q, hq, hname⟩)
        · exact ⟨r, .inr rfl, h⟩
        · exact ⟨q, .inl hq, hname⟩
      · rintro ⟨q, hq | rfl, hname⟩
        · exact .inr ⟨q, hq, hname⟩
        · exact .inl hname

/-- The registers in the map's order, each with its value at the clock. -/
def registersAt (calls : List StateRecord) (clock : Nat) : List (Line × Option Int) :=
  (addStates calls).keys.map fun name => (name, lastValue calls name clock)

theorem registersAt_eq (calls : List StateRecord) (clock : Nat) :
    registersAt calls clock = (addStates calls).toList.map fun e => (e.1, e.2.at? clock) := by
  rw [registersAt, ← Std.TreeMap.map_fst_toList_eq_keys, List.map_map]
  refine List.map_congr_left fun e he => ?_
  have hget : (addStates calls)[e.1]? = some e.2 :=
    Std.TreeMap.mem_toList_iff_getElem?_eq_some.mp he
  simp only [Function.comp_apply, ← addStates_at?, hget, Option.bind_some]

theorem plain_of_mem_registersAt {calls : List StateRecord} {clock : Nat}
    {e : Line × Option Int} (h : e ∈ registersAt calls clock) : e.1 ≠ [] ∧ Plain e.1 := by
  obtain ⟨name, hname, rfl⟩ := List.mem_map.mp h
  obtain ⟨r, -, rfl⟩ := mem_addStates.mp (Std.TreeMap.mem_keys.mp hname)
  exact ⟨r.regName.ne_nil, r.regName.plain⟩

/-! ## The text behind the header -/

/-- What stands behind the name of a register. -/
def entryText : Option Int → Line
  | none => []
  | some value => ": ".toList ++ showInt value ++ ['\n']

/-- The registers' part of the file. -/
def bodyText (regs : List (Line × Option Int)) : Line :=
  regs.flatMap fun e => e.1 ++ entryText e.2

/-- The `name: value` lines as the reader meets them: the names without a value,
from `pending` on, stand in front of the next name that has one. The last
component is what is left after the last line feed. -/
def rows : Line → List (Line × Option Int) → List (Line × Int) × Line
  | pending, [] => ([], pending)
  | pending, (name, none) :: regs => rows (pending ++ name) regs
  | pending, (name, some value) :: regs =>
      ((pending ++ name, value) :: (rows [] regs).1, (rows [] regs).2)

theorem printRegister_eq (clock : Nat) (e : Line × StateValue) :
    printRegister clock e = e.1 ++ entryText (e.2.at? clock) := by
  obtain ⟨name, ds, hds⟩ := e
  rw [printRegister, StateValue.at?]
  congr 1
  induction ds with
  | nil => rfl
  | cons d ds ih =>
      obtain ⟨hd, hrest⟩ := List.pairwise_cons.mp hds
      rw [List.flatMap_cons, List.find?_cons]
      by_cases hclock : d.clock = clock
      · have hnone : ds.flatMap (fun d => if d.clock = clock then
            ": ".toList ++ showInt d.value ++ ['\n'] else []) = [] := by
          refine List.flatMap_eq_nil_iff.mpr fun d' hd' => if_neg fun h => ?_
          exact hd d' hd' (hclock.trans h.symm)
        rw [if_pos hclock, hnone]
        simp [hclock, entryText]
      · rw [if_neg hclock, List.nil_append, ih hrest]
        simp [hclock]

theorem print_body (calls : List StateRecord) (clock : Nat) :
    (addStates calls).toList.flatMap (printRegister clock) =
      bodyText (registersAt calls clock) := by
  rw [bodyText, registersAt_eq, List.flatMap_map]
  exact List.flatMap_congr fun e _ => printRegister_eq clock e

/-- A line of the file. -/
def rowText (row : Line × Line) : Line := row.1 ++ ": ".toList ++ row.2

theorem not_mem_rowText {name text : Line} (hname : Plain name) (htext : Plain text) :
    '\n' ∉ rowText (name, text) := by
  simp only [rowText, List.mem_append, not_or]
  exact ⟨⟨hname.not_mem_newline, by decide⟩, htext.not_mem_newline⟩

theorem fileLines_row {name text : Line} (hname : Plain name) (htext : Plain text)
    (rest : Line) : fileLines (rowText (name, text) ++ ['\n'] ++ rest) =
      rowText (name, text) :: fileLines rest := by
  rw [List.append_assoc, List.singleton_append]
  exact fileLines_append (not_mem_rowText hname htext) rest

/-- Reading one line that has a colon. -/
theorem parseLine_row {name text : Line} (hname : Plain name) (htext : Plain text)
    (hne : text ≠ []) : parseLine (rowText (name, text)) = some (name, text) := by
  have hrow : rowText (name, text) = name ++ ':' :: ' ' :: text := by simp [rowText]
  have hstrip : strip (rowText (name, text)) = rowText (name, text) := by
    refine strip_of_ends (fun c hc => ?_) fun c hc => ?_
    · rw [hrow] at hc
      cases name with
      | nil =>
          cases hc
          decide
      | cons d name =>
          cases hc
          exact (hname c List.mem_cons_self).1
    · rw [rowText, List.getLast?_append_of_ne_nil _ hne] at hc
      exact (htext c (List.mem_of_mem_getLast? hc)).1
  have hcolon : ':' ∉ ' ' :: text := by
    simpa using htext.not_mem_colon
  have hvalue : strip (' ' :: text) = text := by
    rw [strip_space_cons (by decide), htext.strip]
  rw [parseLine, hstrip, hrow, List.splitOn_append_cons_self_of_not_mem hname.not_mem_colon,
    List.splitOn_eq_singleton hcolon]
  simp [hname.strip, hvalue]

/-- A line without a colon ends the reader. -/
theorem parseLine_plain {l : Line} (h : Plain l) : parseLine l = none := by
  rw [parseLine, h.strip, List.splitOn_eq_singleton h.not_mem_colon]
  rfl

/-! ## The rows of a text -/

/-- The item the reader makes of a row. -/
def rowItem (row : Line × Int) : Line × Line := (row.1, showInt row.2)

/-- The registers of a list that have a value. -/
def present (regs : List (Line × Option Int)) : List (Line × Int) :=
  regs.filterMap fun e => e.2.map fun value => (e.1, value)

@[simp] theorem present_none (name : Line) (regs : List (Line × Option Int)) :
    present ((name, none) :: regs) = present regs := rfl

@[simp] theorem present_some (name : Line) (value : Int) (regs : List (Line × Option Int)) :
    present ((name, some value) :: regs) = (name, value) :: present regs := rfl

theorem plain_rows {regs : List (Line × Option Int)} (h : ∀ e ∈ regs, Plain e.1)
    {pending : Line} (hp : Plain pending) :
    (∀ row ∈ (rows pending regs).1, Plain row.1) ∧ Plain (rows pending regs).2 := by
  induction regs generalizing pending with
  | nil => exact ⟨by simp [rows], hp⟩
  | cons e regs ih =>
      obtain ⟨name, value⟩ := e
      obtain ⟨hname, hregs⟩ := List.forall_mem_cons.mp h
      cases value with
      | none => exact ih hregs (hp.append hname)
      | some value =>
          obtain ⟨hrows, htail⟩ := ih hregs plain_nil
          exact ⟨List.forall_mem_cons.mpr ⟨hp.append hname, hrows⟩, htail⟩

/-- A rest after the last line feed is a line unless it is empty. -/
def tailLines (rest : Line) : List Line := if rest = [] then [] else [rest]

theorem fileLines_plain {rest : Line} (h : Plain rest) : fileLines rest = tailLines rest := by
  unfold tailLines
  split
  · rename_i hnil
    rw [hnil, fileLines_nil]
  · rename_i hne
    exact fileLines_of_no_newline hne h.not_mem_newline

/-- The lines of the registers' part. -/
theorem fileLines_body {regs : List (Line × Option Int)} (h : ∀ e ∈ regs, Plain e.1)
    {pending : Line} (hp : Plain pending) :
    fileLines (pending ++ bodyText regs) =
      (rows pending regs).1.map (fun row => rowText (rowItem row)) ++
        tailLines (rows pending regs).2 := by
  induction regs generalizing pending with
  | nil =>
      simp only [bodyText, rows, List.flatMap_nil, List.append_nil, List.map_nil,
        List.nil_append]
      exact fileLines_plain hp
  | cons e regs ih =>
      obtain ⟨name, value⟩ := e
      obtain ⟨hname, hregs⟩ := List.forall_mem_cons.mp h
      cases value with
      | none =>
          have hbody : pending ++ bodyText ((name, none) :: regs) =
              pending ++ name ++ bodyText regs := by
            simp [bodyText, entryText]
          rw [hbody, ih hregs (hp.append hname), rows]
      | some value =>
          have hbody : pending ++ bodyText ((name, some value) :: regs) =
              rowText (pending ++ name, showInt value) ++ ['\n'] ++ ([] ++ bodyText regs) := by
            simp [bodyText, entryText, rowText]
          rw [hbody, fileLines_row (hp.append hname) (plain_showInt value),
            ih hregs plain_nil, rows, List.map_cons, List.cons_append]
          rfl

/-- The lengths of the keys of the rows account for every name. -/
theorem length_rows (pending : Line) (regs : List (Line × Option Int)) :
    ((rows pending regs).1.map fun row => row.1.length).sum + (rows pending regs).2.length =
      pending.length + (regs.map fun e => e.1.length).sum := by
  induction regs generalizing pending with
  | nil => simp [rows]
  | cons e regs ih =>
      obtain ⟨name, value⟩ := e
      cases value with
      | none =>
          simp only [rows, ih, List.map_cons, List.sum_cons, List.length_append]
          omega
      | some value =>
          have hrest := ih []
          rw [List.length_nil] at hrest
          simp only [rows, List.map_cons, List.sum_cons, List.length_append]
          omega

theorem card_rows (pending : Line) (regs : List (Line × Option Int)) :
    (rows pending regs).1.length = (present regs).length := by
  induction regs generalizing pending with
  | nil => rfl
  | cons e regs ih =>
      obtain ⟨name, value⟩ := e
      cases value with
      | none => rw [rows, ih, present_none]
      | some value => simp only [rows, List.length_cons, ih, present_some]

/-- Registers that all have a value make one row each. -/
theorem rows_of_all {regs : List (Line × Option Int)} (h : ∀ e ∈ regs, e.2.isSome) :
    rows [] regs = (present regs, []) := by
  induction regs with
  | nil => rfl
  | cons e regs ih =>
      obtain ⟨name, value⟩ := e
      obtain ⟨hvalue, hregs⟩ := List.forall_mem_cons.mp h
      obtain ⟨value, rfl⟩ := Option.isSome_iff_exists.mp hvalue
      rw [rows, ih hregs, present_some, List.nil_append]

theorem length_present_le (regs : List (Line × Option Int)) :
    ((present regs).map fun row => row.1.length).sum ≤
      (regs.map fun e => e.1.length).sum := by
  induction regs with
  | nil => exact le_rfl
  | cons e regs ih =>
      obtain ⟨name, value⟩ := e
      cases value with
      | none =>
          rw [present_none, List.map_cons, List.sum_cons]
          omega
      | some value =>
          simp only [present_some, List.map_cons, List.sum_cons]
          omega

theorem isSome_of_length_present {regs : List (Line × Option Int)}
    (hne : ∀ e ∈ regs, e.1 ≠ [])
    (h : ((present regs).map fun row => row.1.length).sum =
      (regs.map fun e => e.1.length).sum) : ∀ e ∈ regs, e.2.isSome := by
  induction regs with
  | nil => simp
  | cons e regs ih =>
      obtain ⟨name, value⟩ := e
      obtain ⟨hname, hregs⟩ := List.forall_mem_cons.mp hne
      have hle := length_present_le regs
      have hpos : 0 < name.length := List.length_pos_of_ne_nil hname
      cases value with
      | none =>
          simp only [present_none, List.map_cons, List.sum_cons] at h
          omega
      | some value =>
          simp only [present_some, List.map_cons, List.sum_cons] at h
          exact List.forall_mem_cons.mpr ⟨rfl, ih hregs (by omega)⟩

/-- Names are lost nowhere, so the keys can only be the names of the registers
with a value if every register has one. -/
theorem isSome_of_rows {regs : List (Line × Option Int)} (hne : ∀ e ∈ regs, e.1 ≠ [])
    (htail : (rows [] regs).2 = [])
    (hkeys : ((rows [] regs).1.map Prod.fst).Perm ((present regs).map Prod.fst)) :
    ∀ e ∈ regs, e.2.isSome := by
  have hsum : ((rows [] regs).1.map fun row => row.1.length).sum =
      (regs.map fun e => e.1.length).sum := by
    simpa [htail] using length_rows [] regs
  have hperm : ((rows [] regs).1.map fun row => row.1.length).sum =
      ((present regs).map fun row => row.1.length).sum := by
    have h := (hkeys.map List.length).sum_nat
    rw [List.map_map, List.map_map] at h
    exact h
  exact isSome_of_length_present hne (hperm.symm.trans hsum)

/-! ## Reading a file that was written -/

theorem foldlM_setItem (d : Dict Line Line) (lines : List Line) :
    lines.foldlM (fun d line => (parseLine line).map fun p => d.setItem p.1 p.2) d =
      (lines.mapM parseLine).map d.update := by
  induction lines generalizing d with
  | nil => rfl
  | cons line lines ih =>
      rw [List.foldlM_cons, List.mapM_cons]
      cases parseLine line with
      | none => rfl
      | some p =>
          simp only [Option.map_some, Option.bind_eq_bind, Option.bind_some, ih]
          cases lines.mapM parseLine <;> rfl

theorem parseSimLog_eq (file : Line) :
    parseSimLog file = ((fileLines file).mapM parseLine).map Dict.ofItems :=
  foldlM_setItem Dict.empty _

theorem mapM_rows {items : List (Line × Line)}
    (h : ∀ item ∈ items, Plain item.1 ∧ Plain item.2 ∧ item.2 ≠ []) :
    (items.map rowText).mapM parseLine = some items := by
  induction items with
  | nil => rfl
  | cons item items ih =>
      obtain ⟨⟨hname, htext, hne⟩, hitems⟩ := List.forall_mem_cons.mp h
      rw [List.map_cons, List.mapM_cons, parseLine_row hname htext hne, ih hitems]
      rfl

section

variable {ρ : Type} (R : RewardText ρ) (calls : List StateRecord) (clock : Nat) (reward : ρ)
  (action : Nat)

theorem plain_rewardKey : Plain rewardKey := by decide

theorem plain_actionKey : Plain actionKey := by decide

/-- The two items of the header. -/
def headerItems : List (Line × Line) :=
  [(rewardKey, R.insert reward), (actionKey, toDec action)]

/-- The items in the order of the lines. -/
def fileItems : List (Line × Line) :=
  headerItems R reward action ++ (rows [] (registersAt calls clock)).1.map rowItem

/-- The text of the file after the calls. -/
def stateFile : Line := printStateAtClock R (addStates calls) clock reward action

theorem plain_of_mem_registers {e : Line × Option Int} (h : e ∈ registersAt calls clock) :
    Plain e.1 := (plain_of_mem_registersAt h).2

theorem fileItems_plain :
    ∀ item ∈ fileItems R calls clock reward action,
      Plain item.1 ∧ Plain item.2 ∧ item.2 ≠ [] := by
  intro item hitem
  simp only [fileItems, headerItems, List.mem_append, List.mem_cons, List.not_mem_nil,
    or_false, List.mem_map] at hitem
  rcases hitem with (rfl | rfl) | ⟨row, hrow, rfl⟩
  · exact ⟨plain_rewardKey, R.insert_plain reward, R.insert_ne_nil reward⟩
  · exact ⟨plain_actionKey, plain_toDec action, toDec_ne_nil action⟩
  · have hplain := (plain_rows (fun _ h => plain_of_mem_registers calls clock h) plain_nil).1
    exact ⟨hplain row hrow, plain_showInt _, showInt_ne_nil _⟩

theorem fileLines_stateFile :
    fileLines (stateFile R calls clock reward action) =
      (fileItems R calls clock reward action).map rowText ++
        tailLines (rows [] (registersAt calls clock)).2 := by
  have htext : stateFile R calls clock reward action =
      rowText (rewardKey, R.insert reward) ++ ['\n'] ++
        (rowText (actionKey, toDec action) ++ ['\n'] ++
          ([] ++ bodyText (registersAt calls clock))) := by
    have hbody := print_body calls clock
    have hreward : "reward: ".toList = rewardKey ++ ": ".toList := by decide
    have haction : "Action: ".toList = actionKey ++ ": ".toList := by decide
    unfold stateFile printStateAtClock
    rw [hbody, hreward, haction, List.nil_append]
    simp only [rowText, List.append_assoc]
  rw [htext, fileLines_row plain_rewardKey (R.insert_plain reward),
    fileLines_row plain_actionKey (plain_toDec action),
    fileLines_body (fun _ h => plain_of_mem_registers calls clock h) plain_nil]
  simp [fileItems, headerItems]

/-- The reader gets the items of the lines if the last line is complete, and
fails otherwise. -/
theorem parseSimLog_stateFile :
    parseSimLog (stateFile R calls clock reward action) =
      if (rows [] (registersAt calls clock)).2 = [] then
        some (Dict.ofItems (fileItems R calls clock reward action))
      else none := by
  have hitems := mapM_rows (fileItems_plain R calls clock reward action)
  rw [parseSimLog_eq, fileLines_stateFile, List.mapM_append, hitems]
  unfold tailLines
  split
  · simp
  · have hplain := (plain_rows (fun _ h => plain_of_mem_registers calls clock h) plain_nil).2
    simp [parseLine_plain hplain]

/-- **The file carries the state.** The reader's dictionary has the reward, the
action and one entry for each register with a value at the clock, the reward and
the action are the ones written, and `get_state` returns the values in the map's
order. -/
structure ReadsBack : Prop where
  parse_eq : ∃ data, parseSimLog (stateFile R calls clock reward action) = some data ∧
    data.items.Perm (headerItems R reward action ++ (valuesAt calls clock).map rowItem)
  reward_eq : getReward R (stateFile R calls clock reward action) = some reward
  action_eq : getAction (stateFile R calls clock reward action) = some (action : Int)
  state_eq : getState (stateFile R calls clock reward action) =
    some ((valuesAt calls clock).map Prod.snd)

/-- Every register of the map has a value at the clock, and no register has the
name of a header line. -/
def FileReadable : Prop :=
  ∀ r ∈ calls, (∃ q ∈ calls, q.regName.chars = r.regName.chars ∧ q.clock = clock) ∧
    r.regName.chars ≠ rewardKey ∧ r.regName.chars ≠ actionKey

theorem valuesAt_eq : valuesAt calls clock = present (registersAt calls clock) := by
  rw [valuesAt, present, registersAt, List.filterMap_map]
  rfl

theorem map_fst_registersAt :
    (registersAt calls clock).map Prod.fst = (addStates calls).keys := by
  rw [registersAt, List.map_map]
  exact List.map_id _

theorem isSome_lastValue {name : Line} :
    (lastValue calls name clock).isSome ↔
      ∃ q ∈ calls, q.regName.chars = name ∧ q.clock = clock := by
  simp [lastValue, List.find?_isSome]

/-- What the condition says about the registers of the map. -/
theorem fileReadable_iff :
    FileReadable calls clock ↔
      (∀ e ∈ registersAt calls clock, e.2.isSome) ∧
        ∀ name ∈ (registersAt calls clock).map Prod.fst,
          name ≠ rewardKey ∧ name ≠ actionKey := by
  have hkeys : ∀ name, name ∈ (addStates calls).keys ↔
      ∃ r ∈ calls, r.regName.chars = name := fun name => by
    rw [Std.TreeMap.mem_keys, mem_addStates]
  rw [map_fst_registersAt]
  constructor
  · intro h
    refine ⟨fun e he => ?_, fun name hname => ?_⟩
    · obtain ⟨name, hname, rfl⟩ := List.mem_map.mp he
      obtain ⟨r, hr, rfl⟩ := (hkeys name).mp hname
      exact (isSome_lastValue calls clock).mpr (h r hr).1
    · obtain ⟨r, hr, rfl⟩ := (hkeys name).mp hname
      exact (h r hr).2
  · rintro ⟨hsome, hfree⟩ r hr
    have hname : r.regName.chars ∈ (addStates calls).keys := (hkeys _).mpr ⟨r, hr, rfl⟩
    exact ⟨(isSome_lastValue calls clock).mp (hsome _ (List.mem_map_of_mem hname)),
      hfree _ hname⟩

theorem map_fst_present {regs : List (Line × Option Int)} (h : ∀ e ∈ regs, e.2.isSome) :
    (present regs).map Prod.fst = regs.map Prod.fst := by
  induction regs with
  | nil => rfl
  | cons e regs ih =>
      obtain ⟨name, value⟩ := e
      obtain ⟨hvalue, hregs⟩ := List.forall_mem_cons.mp h
      obtain ⟨value, rfl⟩ := Option.isSome_iff_exists.mp hvalue
      rw [present_some, List.map_cons, List.map_cons, ih hregs]

theorem map_fst_rowItem (l : List (Line × Int)) :
    (l.map rowItem).map Prod.fst = l.map Prod.fst := by
  rw [List.map_map]
  rfl

theorem mapM_int (l : List (Line × Int)) :
    (l.map rowItem).mapM (fun item => int item.2) = some (l.map Prod.snd) := by
  induction l with
  | nil => rfl
  | cons row l ih =>
      rw [List.map_cons, List.mapM_cons, ih, rowItem, int_showInt]
      rfl

/-- What the three functions of the reader return on a file whose items are those
of its lines. -/
theorem reads_of_items {data : Dict Line Line}
    (hparse : parseSimLog (stateFile R calls clock reward action) = some data)
    {items : List (Line × Int)}
    (hitems : data.items = headerItems R reward action ++ items.map rowItem) :
    getReward R (stateFile R calls clock reward action) = R.float (R.insert reward) ∧
      getAction (stateFile R calls clock reward action) = some (action : Int) ∧
      getState (stateFile R calls clock reward action) = some (items.map Prod.snd) := by
  have hne : rewardKey ≠ actionKey := by decide
  have hreward : data.getItem rewardKey = some (R.insert reward) := by
    simp [Dict.getItem, hitems, headerItems]
  have haction : data.getItem actionKey = some (toDec action) := by
    simp [Dict.getItem, hitems, headerItems, hne]
  have hdrop : data.items.drop 2 = items.map rowItem := by
    simp [hitems, headerItems]
  have hnodup : ((items.map rowItem).map Prod.fst).Nodup := by
    have h := data.nodup
    rw [hitems, List.map_append, List.nodup_append] at h
    exact h.2.1
  refine ⟨?_, ?_, ?_⟩
  · simp [getReward, hparse, hreward]
  · simp [getAction, hparse, haction, int_toDec]
  · simp only [getState, hparse, Option.bind_eq_bind, Option.bind_some, hdrop,
      Dict.items_ofItems hnodup, mapM_int]

/-- The items of the lines are `reward`, `action` and one for each register with
a value at the clock, and reading them back loses none. -/
theorem rows_of_readsBack (h : ReadsBack R calls clock reward action) :
    (rows [] (registersAt calls clock)).2 = [] ∧
      (Dict.ofItems (fileItems R calls clock reward action)).items =
        fileItems R calls clock reward action ∧
      (fileItems R calls clock reward action).Perm
        (headerItems R reward action ++ (present (registersAt calls clock)).map rowItem) := by
  obtain ⟨data, hparse, hperm⟩ := h.parse_eq
  rw [parseSimLog_stateFile] at hparse
  split at hparse
  · rename_i htail
    cases hparse
    rw [valuesAt_eq] at hperm
    have hlen := hperm.length_eq
    have hitems : (Dict.ofItems (fileItems R calls clock reward action)).items =
        fileItems R calls clock reward action := by
      refine Dict.items_ofItems_of_length ?_
      rw [hlen]
      simp [fileItems, card_rows]
    rw [hitems] at hperm
    exact ⟨htail, hitems, hperm⟩
  · cases hparse

theorem readable_of_readsBack (h : ReadsBack R calls clock reward action) :
    R.float (R.insert reward) = some reward ∧ FileReadable calls clock := by
  obtain ⟨htail, hitems, hperm⟩ := rows_of_readsBack R calls clock reward action h
  have hparse := parseSimLog_stateFile R calls clock reward action
  rw [if_pos htail] at hparse
  have hreads := reads_of_items R calls clock reward action hparse hitems
  have hrows : ((rows [] (registersAt calls clock)).1.map Prod.fst).Perm
      ((present (registersAt calls clock)).map Prod.fst) := by
    have h := ((List.perm_append_left_iff _).mp hperm).map Prod.fst
    rwa [map_fst_rowItem, map_fst_rowItem] at h
  have hsome := isSome_of_rows (fun e he => (plain_of_mem_registersAt he).1) htail hrows
  have hnodup : ((headerItems R reward action ++
      (present (registersAt calls clock)).map rowItem).map Prod.fst).Nodup := by
    rw [← (hperm.map Prod.fst).nodup_iff, ← hitems]
    exact (Dict.ofItems _).nodup
  rw [List.map_append, map_fst_rowItem, map_fst_present hsome, List.nodup_append] at hnodup
  have hfree : ∀ name ∈ (registersAt calls clock).map Prod.fst,
      name ≠ rewardKey ∧ name ≠ actionKey := fun name hname =>
    ⟨fun heq => hnodup.2.2 rewardKey (by simp [headerItems]) name hname heq.symm,
      fun heq => hnodup.2.2 actionKey (by simp [headerItems]) name hname heq.symm⟩
  exact ⟨hreads.1.symm.trans h.reward_eq, (fileReadable_iff calls clock).mpr ⟨hsome, hfree⟩⟩

theorem nodup_fileItems (h : FileReadable calls clock) :
    ((fileItems R calls clock reward action).map Prod.fst).Nodup := by
  obtain ⟨hsome, hfree⟩ := (fileReadable_iff calls clock).mp h
  rw [fileItems, rows_of_all hsome, List.map_append, map_fst_rowItem, map_fst_present hsome,
    List.nodup_append]
  refine ⟨(by decide : [rewardKey, actionKey].Nodup), ?_, ?_⟩
  · rw [map_fst_registersAt]
    exact Std.TreeMap.nodup_keys
  · intro key hkey name hname heq
    simp only [headerItems, List.map_cons, List.map_nil, List.mem_cons, List.not_mem_nil,
      or_false] at hkey
    rcases hkey with rfl | rfl
    · exact (hfree name hname).1 heq.symm
    · exact (hfree name hname).2 heq.symm

theorem readsBack_of_readable (hfloat : R.float (R.insert reward) = some reward)
    (h : FileReadable calls clock) : ReadsBack R calls clock reward action := by
  have hrows := rows_of_all ((fileReadable_iff calls clock).mp h).1
  have hparse := parseSimLog_stateFile R calls clock reward action
  rw [if_pos (by rw [hrows])] at hparse
  have hitems : (Dict.ofItems (fileItems R calls clock reward action)).items =
      headerItems R reward action ++ (valuesAt calls clock).map rowItem := by
    rw [Dict.items_ofItems (nodup_fileItems R calls clock reward action h), fileItems, hrows,
      valuesAt_eq]
  obtain ⟨hreward, haction, hstate⟩ := reads_of_items R calls clock reward action hparse hitems
  exact ⟨⟨_, hparse, hitems ▸ List.Perm.refl _⟩, hreward.trans hfloat, haction, hstate⟩

/-- **The round trip of the state file.** The reader gets back what the map holds
at the clock exactly when every register of the map has a value there, none is
called like a header line, and the reward survives its printing. -/
theorem readsBack_iff :
    ReadsBack R calls clock reward action ↔
      R.float (R.insert reward) = some reward ∧ FileReadable calls clock :=
  ⟨readable_of_readsBack R calls clock reward action,
    fun h => readsBack_of_readable R calls clock reward action h.1 h.2⟩

end

/-! ## The rewards of the search -/

/-- The four values of `calculateReward`. -/
inductive Reward
  | ten
  | tenth
  | minusTenth
  | zero
  deriving DecidableEq, Repr

/-- `calculateReward(foundNewNode, distance)`. -/
def calculateReward (foundNewNode : Bool) (distance : Nat) : Reward :=
  if foundNewNode then .ten
  else if distance ≤ 3 then .tenth
  else if 5 ≤ distance then .minusTenth
  else .zero

namespace Reward

/-- The value on the output stream. -/
def text : Reward → Line
  | ten => "10".toList
  | tenth => "0.1".toList
  | minusTenth => "-0.1".toList
  | zero => "0".toList

/-- The four rewards and their texts. -/
def texts : RewardText Reward where
  insert := text
  float l := [ten, tenth, minusTenth, zero].find? fun r => r.text = l
  insert_ne_nil r := by cases r <;> decide
  insert_plain r := by cases r <;> decide

theorem float_insert (r : Reward) : texts.float (texts.insert r) = some r := by
  cases r <;> decide

/-- The search only writes rewards that survive. -/
theorem readsBack_texts_iff (calls : List StateRecord) (clock : Nat) (r : Reward)
    (action : Nat) : ReadsBack texts calls clock r action ↔ FileReadable calls clock :=
  ⟨fun h => (readable_of_readsBack texts calls clock r action h).2,
    readsBack_of_readable texts calls clock r action (float_insert r)⟩

end Reward

/-! ## A register that was last seen in an earlier clock -/

/-- `a = 1` at clock 0 and `b = 2` at clock 1. -/
def earlierRecords : List StateRecord :=
  [⟨⟨"a".toList, by decide, by decide⟩, 1, 0⟩, ⟨⟨"b".toList, by decide, by decide⟩, 2, 1⟩]

/-- At clock 1 the file has a register `ab`, and `b` is not in it. -/
theorem earlierRecords_merged :
    (parseSimLog (stateFile Reward.texts earlierRecords 1 .tenth 3)).map (·.items) =
        some [("reward".toList, "0.1".toList), ("Action".toList, "3".toList),
          ("ab".toList, "2".toList)] ∧
      valuesAt earlierRecords 1 = [("b".toList, 2)] ∧
      ¬ ReadsBack Reward.texts earlierRecords 1 .tenth 3 := by
  have hread : (parseSimLog (stateFile Reward.texts earlierRecords 1 .tenth 3)).map
      (·.items) = some [("reward".toList, "0.1".toList), ("Action".toList, "3".toList),
        ("ab".toList, "2".toList)] := by
    decide +kernel
  have hvalues : valuesAt earlierRecords 1 = [("b".toList, 2)] := by
    decide +kernel
  refine ⟨hread, hvalues, fun h => ?_⟩
  obtain ⟨data, hparse, hperm⟩ := h.parse_eq
  rw [hparse, Option.map_some, Option.some.injEq] at hread
  rw [hread, hvalues] at hperm
  have hab := hperm.mem_iff.mp (List.mem_cons_of_mem _ (List.mem_cons_of_mem _ List.mem_cons_self))
  exact absurd hab (by decide)

end Conquest
