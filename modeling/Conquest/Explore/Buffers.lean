import Conquest.Explore.SimLog

/-!
# Buffers — the length of what `%s` reads

`build_stack` has 16 characters for a tag and 256 for the name of a register.
The rest of a value that is not a number is read as a tag, and so is each word
that the simulator prints by itself.
-/

namespace Conquest

open Text Scanf

/-- There is room for the NUL in `tag[16]`, and in `stateName[256]`. -/
def Token.Fits : Token → Prop
  | .tag w => w.length ≤ 15
  | .stateName w => w.length ≤ 255

instance : DecidablePred Token.Fits
  | .tag w => inferInstanceAs (Decidable (w.length ≤ 15))
  | .stateName w => inferInstanceAs (Decidable (w.length ≤ 255))

/-- A line that the design, the testbench or the simulator prints: a name starts with no
sign or digit, nor does other text. -/
def LogLine.Printed : LogLine → Prop
  | .state stateName _ => afterNumber stateName.chars = stateName.chars
  | .other t => t.Harmless ∧ ∀ w ∈ (words t.chars).head?, afterNumber w = w
  | _ => True

/-- No number of rounds overruns a buffer. -/
def BufferSafe (simClk : BitVec 32) (log : List LogLine) : Prop :=
  ∀ tag val n, ∀ token ∈ (scanLog simClk tag val (logText log) n).tokens, token.Fits

/-- The lines of the file before the last marker. -/
def linesRead (simClk : BitVec 32) (log : List LogLine) : List LogLine :=
  (LogLine.clock 9 0 :: log).takeWhile fun l => !l.isStop simClk

/-- After the bits in front of a value there are at most 15 digits, and no word of other
text is longer. -/
def LogLine.FitsBuffers : LogLine → Prop
  | .input v => (afterNumber v.chars).length ≤ 15
  | .state stateName v => stateName.chars.length ≤ 255 ∧ (afterNumber v.chars).length ≤ 15
  | .other t => ∀ w ∈ tagWords false (words t.chars), w.length ≤ 15
  | _ => True

section Fits

theorem fits_leftTokens (w : Line) :
    (∀ token ∈ leftTokens w, token.Fits) ↔ w.length ≤ 15 := by
  unfold leftTokens
  split
  · rename_i h
    simp [h]
  · exact List.forall_mem_singleton

theorem tagWords_head {ws : List Line} (hne : ∀ w ∈ ws, w ≠ [])
    (h : ∀ w ∈ ws.head?, afterNumber w = w) (taken : Bool) :
    tagWords taken ws = tagWords false ws := by
  cases ws with
  | nil => cases taken <;> rfl
  | cons w ws =>
      cases taken with
      | false => rfl
      | true =>
          have hw : afterNumber w = w := h w rfl
          simp only [tagWords, hw, if_neg (hne w List.mem_cons_self)]

theorem fits_tokens {l : LogLine} (h : l.Printed) (taken : Bool) :
    (∀ token ∈ l.tokens taken, token.Fits) ↔ l.FitsBuffers := by
  have hclock : (Token.tag tagClock).Fits := by decide
  have hinput : (Token.tag tagInput).Fits := by decide
  have hassign : (Token.tag tagAssign).Fits := by decide
  have hstate : (Token.tag tagState).Fits := by decide
  cases l with
  | clock blanks n => simp [LogLine.tokens, LogLine.FitsBuffers, hclock]
  | input v =>
      rw [LogLine.tokens, List.forall_mem_cons, fits_leftTokens]
      exact and_iff_right hinput
  | assign id => simp [LogLine.tokens, LogLine.FitsBuffers, hassign]
  | state stateName v =>
      have hname : afterNumber stateName.chars = stateName.chars := h
      rw [LogLine.tokens, hname, if_neg stateName.ne_nil, List.cons_append, List.singleton_append,
        List.forall_mem_cons, List.forall_mem_cons, fits_leftTokens]
      exact and_iff_right hstate
  | other t =>
      rw [LogLine.tokens, tagWords_head (fun w hw => mem_words hw) h.2, List.forall_mem_map]
      rfl

variable {simClk : BitVec 32}

theorem fits_itemTrace {log : List LogLine} (h : ∀ l ∈ log, l.Printed) (taken : Bool)
    (clock : BitVec 32) :
    (∀ token ∈ (itemTrace simClk taken clock (log.flatMap LogLine.items)).tokens, token.Fits) ↔
      ∀ l ∈ log.takeWhile fun l => !l.isStop simClk, l.FitsBuffers := by
  induction log generalizing taken clock with
  | nil => simp [itemTrace, Trace.nil]
  | cons l log ih =>
      obtain ⟨hl, hlog⟩ := List.forall_mem_cons.mp h
      rw [List.flatMap_cons]
      cases hstop : l.isStop simClk with
      | true =>
          have hfits : (Token.tag tagClock).Fits := by decide
          rw [itemTrace_stop hstop]
          simp [hstop, hfits]
      | false =>
          obtain ⟨taken', htrace⟩ := itemTrace_line hstop taken clock (log.flatMap LogLine.items)
          have htake : (l :: log).takeWhile (fun l => !l.isStop simClk) =
              l :: log.takeWhile fun l => !l.isStop simClk := by
            simp [hstop]
          rw [htrace, htake, List.forall_mem_cons, ← fits_tokens hl taken, ← ih hlog taken']
          exact List.forall_mem_append

/-- A longer run reads what a shorter one reads. -/
theorem tokens_initial {σ : Type} (scan : List Directive → σ → List Field × σ) (m k : Nat)
    (x : ScanState σ) :
    (scanRounds scan simClk m x).tokens <+: (scanRounds scan simClk (m + k) x).tokens := by
  induction m generalizing x with
  | zero => exact List.nil_prefix
  | succ m ih =>
      rw [Nat.add_right_comm, scanRounds, scanRounds]
      cases (scanRound scan simClk x).next with
      | none => exact List.prefix_rfl
      | some y => exact (List.prefix_append_right_inj _).mpr (ih y)

end Fits

/-- **When the buffers hold.** No round overruns a buffer exactly when the lines before the
last marker fit. -/
theorem bufferSafe_iff {simClk : BitVec 32} {log : List LogLine} (h : ∀ l ∈ log, l.Printed) :
    BufferSafe simClk log ↔ ∀ l ∈ linesRead simClk log, l.FitsBuffers := by
  have hharmless : ∀ t, .other t ∈ log → t.Harmless := fun t ht => (h _ ht).1
  have hfile : ∀ l ∈ LogLine.clock 9 0 :: log, l.Printed := List.forall_mem_cons.mpr ⟨trivial, h⟩
  have hiff : (∀ token ∈ (logTrace simClk log).tokens, token.Fits) ↔
      ∀ l ∈ linesRead simClk log, l.FitsBuffers := fits_itemTrace hfile false 0
  constructor
  · intro hsafe
    obtain ⟨n, hn⟩ := scanLog_logTrace hharmless simClk [] 0
    obtain ⟨htokens, -⟩ := hn n le_rfl
    refine hiff.mp ?_
    intro token htoken
    refine hsafe [] 0 n token ?_
    rw [htokens]
    exact htoken
  · intro hlines tag val n token htoken
    obtain ⟨k, hk⟩ := scanLog_logTrace hharmless simClk tag val
    obtain ⟨htokens, -⟩ := hk (n + k) (Nat.le_add_left k n)
    have hmem := (tokens_initial scanf n k _).mem htoken
    refine hiff.mpr hlines token ?_
    rw [← htokens]
    exact hmem

section Example

/-- `;R myArray[0] = xxxxxxxxxxxxxxxxxxxxxxxxxxxxxxxx`. -/
def unknownRegister : LogLine :=
  .state ⟨['m', 'y', 'A', 'r', 'r', 'a', 'y', '[', '0', ']'], by decide, by decide, by decide⟩
    ⟨List.replicate 32 .x, by decide⟩

/-- The first value of a memory that nothing has written. -/
theorem bufferSafe_counterexample :
    ¬ ∀ (simClk : BitVec 32) (log : List LogLine), (∀ l ∈ log, l.Printed) →
      BufferSafe simClk log := by
  intro h
  have hprinted : ∀ l ∈ [unknownRegister, .clock 9 1], l.Printed := by
    refine List.forall_mem_cons.mpr ⟨?_, List.forall_mem_singleton.mpr trivial⟩
    show afterNumber _ = _
    decide
  have hsafe := h 0 [unknownRegister, .clock 9 1] hprinted [] 0 4
  revert hsafe
  decide +kernel

/-- A register of 16 bits, of which the highest is known. -/
def partialRegister : LogLine :=
  .state ⟨['t', 'e', 'm', 'p'], by decide, by decide, by decide⟩
    ⟨.zero :: List.replicate 15 .x, by decide⟩

theorem bufferSafe_witness :
    BufferSafe 0 [partialRegister, .clock 9 1] ↔
      ∀ l ∈ linesRead 0 [partialRegister, .clock 9 1], l.FitsBuffers := by
  refine bufferSafe_iff ?_
  refine List.forall_mem_cons.mpr ⟨?_, List.forall_mem_singleton.mpr trivial⟩
  show afterNumber _ = _
  decide

end Example

end Conquest
