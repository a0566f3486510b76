import Conquest.Explore.Stack
import Conquest.Lib.Scanf
import Conquest.Smt.Number

/-!
# SimLog — the text that `build_stack` reads

`build_stack` reads the log of the simulator in rounds of `fscanf`, and never
looks at what `fscanf` returns. A round takes a word as a tag and tries a number
after it. Where there is none, or only the front of a value is one, the rest is
a tag of the next round, one that matches nothing.
-/

namespace Conquest

open Text Scanf Digits

/-! ## The scan -/

/-- `"%s%u"`. -/
def tagFormat : List Directive := [.string, .unsigned]

/-- `"%s = %u"`. -/
def stateFormat : List Directive := [.string, .space, .char '=', .space, .unsigned]

def tagClock : Line := [';', '_', 'C']

def tagInput : Line := [';', '_', 'I', 'n', 'p', 'u', 't']

def tagAssign : Line := [';', 'A']

def tagState : Line := [';', 'R']

/-- What a round does to the stack and to the map of states. A variable of the
round that is not set has no value. -/
inductive Call where
  | createClock (clock : BitVec 32)
  | createConstraint (clock id : BitVec 32)
  | addState (stateName : Option Line) (stateValue : Option (BitVec 32)) (clock : BitVec 32)
  deriving DecidableEq, Repr

/-- What `%s` puts into a buffer. -/
inductive Token where
  | tag (word : Line)
  | stateName (word : Line)
  deriving DecidableEq, Repr

/-- The variables of `build_stack`, of a file that is a text or its words. -/
structure ScanState (σ : Type) where
  file : σ
  tag : Line
  val : BitVec 32
  clock : BitVec 32

/-- A round; there is no next state after `break`. -/
structure Round (σ : Type) where
  tokens : List Token
  calls : List Call
  next : Option (ScanState σ)

/-- What a number of rounds read and call, and whether the loop has ended. -/
structure Trace where
  tokens : List Token
  calls : List Call
  ended : Bool
  deriving DecidableEq, Repr

namespace Trace

def nil : Trace := { tokens := [], calls := [], ended := false }

/-- The trace with a round before it. -/
def cons (tokens : List Token) (calls : List Call) (t : Trace) : Trace :=
  { tokens := tokens ++ t.tokens, calls := calls ++ t.calls, ended := t.ended }

end Trace

def stringField : List Field → Option Line
  | .string word :: _ => some word
  | _ => none

def unsignedField : List Field → Option (BitVec 32)
  | _ :: .unsigned value :: _ => some value
  | _ => none

section Rounds

variable {σ : Type} (scan : List Directive → σ → List Field × σ) (simClk : BitVec 32)

/-- The body of the loop. -/
def scanRound (x : ScanState σ) : Round σ :=
  let r := scan tagFormat x.file
  let tag := (stringField r.1).getD x.tag
  let val := (unsignedField r.1).getD x.val
  let tokens := (stringField r.1).toList.map Token.tag
  let next : ScanState σ := { file := r.2, tag := tag, val := val, clock := x.clock }
  if tag = tagClock then
    if val = simClk + 1 then { tokens := tokens, calls := [], next := none }
    else
      { tokens := tokens
        calls := [.createClock val]
        next := some { next with clock := val } }
  else if tag = tagAssign then
    { tokens := tokens
      calls := [.createConstraint x.clock val]
      next := some next }
  else if tag = tagState then
    let r' := scan stateFormat r.2
    { tokens := tokens ++ (stringField r'.1).toList.map Token.stateName
      calls := [.addState (stringField r'.1) (unsignedField r'.1) x.clock]
      next := some { next with file := r'.2 } }
  else { tokens := tokens, calls := [], next := some next }

/-- The first `n` rounds. -/
def scanRounds : Nat → ScanState σ → Trace
  | 0, _ => Trace.nil
  | n + 1, x =>
      let r := scanRound scan simClk x
      match r.next with
      | none => { tokens := r.tokens, calls := r.calls, ended := true }
      | some y => (scanRounds n y).cons r.tokens r.calls

/-- After `break` nothing more happens. -/
theorem scanRounds_of_ended {n : Nat} {x : ScanState σ}
    (h : (scanRounds scan simClk n x).ended = true) (k : Nat) :
    scanRounds scan simClk (n + k) x = scanRounds scan simClk n x := by
  induction n generalizing x with
  | zero => cases h
  | succ n ih =>
      rw [Nat.add_right_comm]
      rw [scanRounds] at h ⊢
      rw [scanRounds]
      cases hnext : (scanRound scan simClk x).next with
      | none => rfl
      | some y =>
          rw [hnext] at h
          exact congrArg (Trace.cons _ _) (ih h)

end Rounds

/-- `write_first_clock`: a marker, and the text up to a NUL. -/
def writeFirstClock (buffer : Line) : Line :=
  tagClock ++ List.replicate 10 ' ' ++ ['0', '\n'] ++ buffer.takeWhile (· ≠ '\x00')

/-- `n` rounds of `build_stack`, where `tag` and `val` are what the memory of the
two variables holds. -/
def scanLog (simClk : BitVec 32) (tag : Line) (val : BitVec 32) (log : Line) (n : Nat) : Trace :=
  scanRounds scanf simClk n { file := writeFirstClock log, tag := tag, val := val, clock := 0 }

/-! ## Texts and words -/

section TextWords

variable {simClk : BitVec 32}

/-- The state with the words of its file. -/
def ScanState.toWords (x : ScanState Line) : ScanState (List Line) :=
  { file := words x.file, tag := x.tag, val := x.val, clock := x.clock }

theorem scanRound_toWords (x : ScanState Line) :
    scanRound scanWords simClk x.toWords =
      { tokens := (scanRound scanf simClk x).tokens
        calls := (scanRound scanf simClk x).calls
        next := (scanRound scanf simClk x).next.map ScanState.toWords } := by
  have htag : Spaced tagFormat := trivial
  have hstate : Spaced stateFormat := trivial
  obtain ⟨hfields, hrest⟩ := scanf_words htag x.file
  obtain ⟨hfields', hrest'⟩ := scanf_words hstate (scanf tagFormat x.file).2
  simp only [scanRound, ScanState.toWords, ← hfields, ← hrest]
  split
  · split <;> rfl
  · split
    · rfl
    · split
      · simp only [← hrest', ← hfields']
        rfl
      · rfl

/-- `build_stack` reads a text as it reads the words. -/
theorem scanRounds_toWords (n : Nat) (x : ScanState Line) :
    scanRounds scanWords simClk n x.toWords = scanRounds scanf simClk n x := by
  induction n generalizing x with
  | zero => rfl
  | succ n ih =>
      rw [scanRounds, scanRounds, scanRound_toWords]
      cases hnext : (scanRound scanf simClk x).next with
      | none => simp only [Option.map_none]
      | some y => simp only [Option.map_some, ih]

end TextWords

/-! ## The lines of a log -/

/-- A word of the log. -/
structure Word where
  chars : Line
  ne_nil : chars ≠ []
  no_blank : ∀ c ∈ chars, isBlank c = false
  no_nul : '\x00' ∉ chars

/-- A value as `%b` prints it. -/
structure LogValue where
  digits : List Digit
  ne_nil : digits ≠ []

def LogValue.chars (v : LogValue) : Line := v.digits.map digitChar

/-- Other text, without the tags among its words. -/
structure OtherText where
  chars : Line
  no_nul : '\x00' ∉ chars
  not_tag : ∀ w ∈ words chars, w ∉ [tagClock, tagInput, tagAssign, tagState]

/-- A line of the log; a clock is padded with blanks. -/
inductive LogLine where
  | clock (blanks : Nat) (n : BitVec 32)
  | input (v : LogValue)
  | assign (id : BitVec 32)
  | state (stateName : Word) (v : LogValue)
  | other (t : OtherText)

def LogLine.text : LogLine → Line
  | clock blanks n => tagClock ++ ' ' :: (List.replicate blanks ' ' ++ toDec n.toNat)
  | input v => tagInput ++ ' ' :: v.chars
  | assign id => tagAssign ++ ' ' :: toDec id.toNat
  | state stateName v => tagState ++ ' ' :: (stateName.chars ++ ' ' :: '=' :: ' ' :: v.chars)
  | other t => t.chars

def logText (log : List LogLine) : Line := log.flatMap fun l => l.text ++ ['\n']

/-- What the scan finds in a line: a tag with its words, or a word that is none. -/
inductive Item where
  | noise (w : Line)
  | clock (n : BitVec 32)
  | input (v : LogValue)
  | assign (id : BitVec 32)
  | state (stateName : Word) (v : LogValue)

def Item.words : Item → List Line
  | noise w => [w]
  | clock n => [tagClock, toDec n.toNat]
  | input v => [tagInput, v.chars]
  | assign id => [tagAssign, toDec id.toNat]
  | state stateName v => [tagState, stateName.chars, ['='], v.chars]

def LogLine.items : LogLine → List Item
  | clock _ n => [.clock n]
  | input v => [.input v]
  | assign id => [.assign id]
  | state stateName v => [.state stateName v]
  | other t => (words t.chars).map .noise

section LogText

theorem isBlank_of_isDigit {c : Char} (h : c.isDigit) : isBlank c = false := by
  rw [Bool.eq_false_iff]
  intro hblank
  rw [isDigit_of_isBlank hblank] at h
  exact absurd h (by decide)

theorem isBlank_toDec (n : Nat) : ∀ c ∈ toDec n, isBlank c = false :=
  fun _ hc => isBlank_of_isDigit (isDigit_of_mem_toDec hc)

theorem LogValue.chars_ne_nil (v : LogValue) : v.chars ≠ [] := by
  simpa [chars] using v.ne_nil

theorem LogValue.forall_chars {p : Char → Prop} (h : ∀ d, p (digitChar d)) (v : LogValue) :
    ∀ c ∈ v.chars, p c := List.forall_mem_map.mpr fun d _ => h d

theorem LogValue.not_mem_chars {c : Char} (h : ∀ d, digitChar d ≠ c) (v : LogValue) :
    c ∉ v.chars := by
  intro hc
  obtain ⟨d, -, hd⟩ := List.mem_map.mp hc
  exact h d hd

theorem LogValue.isBlank_chars (v : LogValue) : ∀ c ∈ v.chars, isBlank c = false :=
  v.forall_chars fun d => by cases d <;> decide

theorem words_text (l : LogLine) (s : Line) :
    words (l.text ++ '\n' :: s) = l.items.flatMap Item.words ++ words s := by
  have hnewline : isBlank '\n' = true := by decide
  have hspace : isBlank ' ' = true := by decide
  cases l with
  | clock blanks n =>
      simp only [LogLine.text, List.append_assoc, List.cons_append]
      rw [words_cons (by decide) (by decide) hspace, words_blanks,
        words_cons (toDec_ne_nil _) (isBlank_toDec _) hnewline]
      rfl
  | input v =>
      simp only [LogLine.text, List.append_assoc, List.cons_append]
      rw [words_cons (by decide) (by decide) hspace,
        words_cons v.chars_ne_nil v.isBlank_chars hnewline]
      rfl
  | assign id =>
      simp only [LogLine.text, List.append_assoc, List.cons_append]
      rw [words_cons (by decide) (by decide) hspace,
        words_cons (toDec_ne_nil _) (isBlank_toDec _) hnewline]
      rfl
  | state stateName v =>
      simp only [LogLine.text, List.append_assoc, List.cons_append]
      rw [words_cons (by decide) (by decide) hspace,
        words_cons stateName.ne_nil stateName.no_blank hspace]
      have heq : words ('=' :: ' ' :: (v.chars ++ '\n' :: s)) =
          ['='] :: words (v.chars ++ '\n' :: s) :=
        words_cons (w := ['=']) (by decide) (by decide) hspace _
      rw [heq, words_cons v.chars_ne_nil v.isBlank_chars hnewline]
      rfl
  | other t =>
      have hitems : (LogLine.other t).items.flatMap Item.words = words t.chars := by
        rw [LogLine.items, List.flatMap_map]
        exact List.flatMap_singleton' _
      rw [hitems]
      exact words_append_blank hnewline t.chars s

/-- The words of a log are those of the items. -/
theorem words_logText (log : List LogLine) :
    words (logText log) = (log.flatMap LogLine.items).flatMap Item.words := by
  induction log with
  | nil => rfl
  | cons l log ih =>
      have hcons : logText (l :: log) = l.text ++ '\n' :: logText log := by
        simp [logText]
      rw [hcons, words_text, ih, List.flatMap_cons, List.flatMap_append]

theorem no_nul_text (l : LogLine) : '\x00' ∉ l.text := by
  have hdec (n : Nat) : '\x00' ∉ toDec n := toDec_free (by decide) n
  have hvalue (v : LogValue) : '\x00' ∉ v.chars := v.not_mem_chars fun d => by cases d <;> decide
  have htags : '\x00' ∉ tagClock ∧ '\x00' ∉ tagInput ∧ '\x00' ∉ tagAssign ∧ '\x00' ∉ tagState := by
    decide
  obtain ⟨hclock, hinput, hassign, hstate⟩ := htags
  cases l with
  | clock blanks n => simp [LogLine.text, hclock, hdec]
  | input v => simp [LogLine.text, hinput, hvalue]
  | assign id => simp [LogLine.text, hassign, hdec]
  | state stateName v => simp [LogLine.text, hstate, stateName.no_nul, hvalue]
  | other t => exact t.no_nul

/-- `write_first_clock` puts a line in front. -/
theorem writeFirstClock_logText (log : List LogLine) :
    writeFirstClock (logText log) = logText (.clock 9 0 :: log) := by
  have hnul : '\x00' ∉ logText log := by
    simp only [logText, List.mem_flatMap, List.mem_append, List.mem_singleton, not_exists, not_and,
      not_or]
    exact fun l _ => ⟨no_nul_text l, by decide⟩
  have hcons : logText (.clock 9 0 :: log) = (LogLine.clock 9 0).text ++ ['\n'] ++ logText log :=
    List.flatMap_cons
  rw [writeFirstClock, List.takeWhile_eq_self_iff.mpr, hcons]
  · rfl
  · intro c hc
    exact decide_eq_true fun heq => hnul (heq ▸ hc)

end LogText

/-! ## The items of a log -/

/-- A word that no branch of the loop is for. -/
def NotTag (w : Line) : Prop := w ∉ [tagClock, tagAssign, tagState]

instance (w : Line) : Decidable (NotTag w) := inferInstanceAs (Decidable (w ∉ _))

/-- A word that is no tag, nor is what a number in front of it leaves. -/
def Item.Harmless : Item → Prop
  | .noise w => w ≠ [] ∧ NotTag w ∧ NotTag (afterNumber w)
  | _ => True

/-- What `%u` left of a word is a tag of its own, if anything is left. -/
def leftTrace (w : Line) (rest : Bool → Trace) : Trace :=
  if w = [] then rest false else (rest true).cons [.tag w] []

/-- The trace of a log that follows the marker of `clock`; `taken` when `%u` has been
tried on the first word. -/
def itemTrace (simClk : BitVec 32) : Bool → BitVec 32 → List Item → Trace
  | _, _, [] => Trace.nil
  | taken, clock, .noise w :: items =>
      leftTrace (if taken then afterNumber w else w) fun taken => itemTrace simClk taken clock items
  | _, _, .clock n :: items =>
      if n = simClk + 1 then { tokens := [.tag tagClock], calls := [], ended := true }
      else (itemTrace simClk false n items).cons [.tag tagClock] [.createClock n]
  | _, clock, .input v :: items =>
      (leftTrace (afterNumber v.chars) fun taken => itemTrace simClk taken clock items).cons
        [.tag tagInput] []
  | _, clock, .assign id :: items =>
      (itemTrace simClk false clock items).cons [.tag tagAssign] [.createConstraint clock id]
  | _, clock, .state stateName v :: items =>
      -- a name that `%u` takes leaves the sign of equality for the name
      if afterNumber stateName.chars = [] then
        (leftTrace v.chars fun taken => itemTrace simClk taken clock items).cons
          [.tag tagState, .stateName ['=']] [.addState (some ['=']) none clock]
      else
        (leftTrace (afterNumber v.chars) fun taken => itemTrace simClk taken clock items).cons
          [.tag tagState, .stateName (afterNumber stateName.chars)]
          [.addState (some (afterNumber stateName.chars)) (number v.chars) clock]

section Settles

variable {simClk : BitVec 32}

/-- Long runs read the tokens of a trace and, if it ends, make its calls and end. -/
def Settles (simClk : BitVec 32) (x : ScanState (List Line)) (t : Trace) : Prop :=
  ∃ n, ∀ m ≥ n, (scanRounds scanWords simClk m x).tokens = t.tokens ∧
    (t.ended = true → scanRounds scanWords simClk m x = t)

theorem Settles.cons {x y : ScanState (List Line)} {tokens : List Token} {calls : List Call}
    {t : Trace}
    (hround : scanRound scanWords simClk x = { tokens := tokens, calls := calls, next := some y })
    (h : Settles simClk y t) : Settles simClk x (t.cons tokens calls) := by
  obtain ⟨n, hn⟩ := h
  refine ⟨n + 1, ?_⟩
  intro m hm
  obtain ⟨m, rfl⟩ := Nat.exists_eq_add_one_of_ne_zero (show m ≠ 0 by omega)
  obtain ⟨htokens, hended⟩ := hn m (by omega)
  simp only [scanRounds, hround]
  refine ⟨congrArg (tokens ++ ·) htokens, ?_⟩
  intro h
  rw [hended h]

theorem Settles.stop {x : ScanState (List Line)} {tokens : List Token}
    (hround : scanRound scanWords simClk x = { tokens := tokens, calls := [], next := none }) :
    Settles simClk x { tokens := tokens, calls := [], ended := true } := by
  refine ⟨1, ?_⟩
  intro m hm
  obtain ⟨m, rfl⟩ := Nat.exists_eq_add_one_of_ne_zero (show m ≠ 0 by omega)
  simp only [scanRounds, hround]
  exact ⟨trivial, fun _ => trivial⟩

/-- At the end of the file the tag stays, and no more is read. -/
theorem Settles.nil {x : ScanState (List Line)} (hx : x.file = []) :
    Settles simClk x Trace.nil := by
  suffices htokens : ∀ m (x : ScanState (List Line)), x.file = [] →
      (scanRounds scanWords simClk m x).tokens = [] from
    ⟨0, fun m _ => ⟨htokens m x hx, fun h => by cases h⟩⟩
  intro m
  induction m with
  | zero => intro x _; rfl
  | succ m ih =>
      intro x hx
      have hround : (scanRound scanWords simClk x).tokens = [] ∧
          ∀ y, (scanRound scanWords simClk x).next = some y → y.file = [] := by
        simp only [scanRound, hx, tagFormat, stateFormat, scanWords, stringField, unsignedField]
        split
        · split <;> simp
        · split
          · simp
          · split <;> simp
      obtain ⟨htokens, hnext⟩ := hround
      simp only [scanRounds]
      cases hy : (scanRound scanWords simClk x).next with
      | none => exact htokens
      | some y =>
          simp only [Trace.cons, htokens, ih y (hnext y hy)]
          rfl

/-- The words of a file where `%u` has been tried, or has not. -/
def pending (taken : Bool) (ws : List Line) : List Line :=
  if taken then (scanWords [.unsigned] ws).2 else ws

theorem pending_true_cons (w : Line) (ws : List Line) :
    pending true (w :: ws) = pushWord (afterNumber w) ws := by
  simp only [pending, if_true, scanWords]
  cases number w <;> rfl

theorem pending_semicolon (taken : Bool) (w : Line) (ws : List Line) :
    pending taken ((';' :: w) :: ws) = (';' :: w) :: ws := by
  cases taken with
  | false => rfl
  | true => rw [pending_true_cons]; rfl

section Rounds

variable (simClk : BitVec 32) (tag : Line) (val clock : BitVec 32)

theorem scanRound_noise {w : Line} (hw : NotTag w) (ws : List Line) :
    ∃ val', scanRound scanWords simClk { file := w :: ws, tag := tag, val := val, clock := clock } =
      { tokens := [.tag w]
        calls := []
        next := some { file := pending true ws, tag := w, val := val', clock := clock } } := by
  simp only [NotTag, List.mem_cons, List.not_mem_nil, or_false, not_or] at hw
  obtain ⟨hclock, hassign, hstate⟩ := hw
  refine ⟨(unsignedField (scanWords tagFormat (w :: ws)).1).getD val, ?_⟩
  simp only [scanRound, tagFormat, scanWords, stringField, Option.getD_some, hclock, hassign, hstate,
    if_false]
  rfl

theorem scanRound_clock (n : BitVec 32) (ws : List Line) :
    scanRound scanWords simClk
        { file := tagClock :: toDec n.toNat :: ws, tag := tag, val := val, clock := clock } =
      if n = simClk + 1 then { tokens := [.tag tagClock], calls := [], next := none }
      else
        { tokens := [.tag tagClock]
          calls := [.createClock n]
          next := some { file := ws, tag := tagClock, val := n, clock := n } } := by
  simp only [scanRound, tagFormat, scanWords, number_toDec, afterNumber_toDec, pushWord, if_true,
    stringField, unsignedField, Option.getD_some]
  rfl

theorem scanRound_assign (id : BitVec 32) (ws : List Line) :
    scanRound scanWords simClk
        { file := tagAssign :: toDec id.toNat :: ws, tag := tag, val := val, clock := clock } =
      { tokens := [.tag tagAssign]
        calls := [.createConstraint clock id]
        next := some { file := ws, tag := tagAssign, val := id, clock := clock } } := by
  have hclock : tagAssign ≠ tagClock := by decide
  simp only [scanRound, tagFormat, scanWords, number_toDec, afterNumber_toDec, pushWord, if_true,
    stringField, unsignedField, Option.getD_some, hclock, if_false]
  rfl

theorem scanRound_state (stateName : Word) (v : LogValue) (ws : List Line) :
    ∃ val', scanRound scanWords simClk
        { file := (Item.state stateName v).words ++ ws, tag := tag, val := val, clock := clock } =
      if afterNumber stateName.chars = [] then
        { tokens := [.tag tagState, .stateName ['=']]
          calls := [.addState (some ['=']) none clock]
          next := some { file := v.chars :: ws, tag := tagState, val := val', clock := clock } }
      else
        { tokens := [.tag tagState, .stateName (afterNumber stateName.chars)]
          calls := [.addState (some (afterNumber stateName.chars)) (number v.chars) clock]
          next := some
            { file := pushWord (afterNumber v.chars) ws
              tag := tagState, val := val', clock := clock } } := by
  refine ⟨(unsignedField (scanWords tagFormat ((Item.state stateName v).words ++ ws)).1).getD val, ?_⟩
  have hclock : tagState ≠ tagClock := by decide
  have hassign : tagState ≠ tagAssign := by decide
  have hafter : (scanWords tagFormat ((Item.state stateName v).words ++ ws)).2 =
      pushWord (afterNumber stateName.chars) (['='] :: v.chars :: ws) :=
    pending_true_cons stateName.chars (['='] :: v.chars :: ws)
  have htag : stringField (scanWords tagFormat ((Item.state stateName v).words ++ ws)).1 =
      some tagState := rfl
  simp only [scanRound, htag, Option.getD_some, hclock, hassign, if_false, if_true, hafter]
  obtain ⟨d, ds, hv⟩ := List.exists_cons_of_ne_nil v.chars_ne_nil
  have hd : d ≠ '=' := by
    rintro rfl
    refine v.not_mem_chars (fun d => by cases d <;> decide) (c := '=') ?_
    simp [hv]
  split
  · rename_i hname
    simp only [hname, pushWord, if_true, stateFormat, scanWords, hv, if_neg hd]
    rfl
  · rename_i hname
    simp only [pushWord, if_neg hname, stateFormat, scanWords, if_true]
    cases number v.chars <;> rfl

end Rounds

theorem notTag_of_semicolon {w : Line} (hw : ';' ∉ w) : NotTag w := by
  rintro hmem
  refine hw ?_
  simp only [List.mem_cons, List.not_mem_nil, or_false] at hmem
  rcases hmem with rfl | rfl | rfl <;> decide

theorem LogValue.notTag (v : LogValue) : NotTag v.chars ∧ NotTag (afterNumber v.chars) := by
  have hv : ';' ∉ v.chars := v.not_mem_chars fun d => by cases d <;> decide
  exact ⟨notTag_of_semicolon hv, notTag_of_semicolon fun h => hv (mem_of_mem_afterNumber h)⟩

/-- What is left of a word takes a round, if anything is left. -/
theorem settles_left {w : Line} (hw : NotTag w) {tag : Line} {val clock : BitVec 32}
    {ws : List Line} {rest : Bool → Trace}
    (h : ∀ taken tag val,
      Settles simClk { file := pending taken ws, tag := tag, val := val, clock := clock }
        (rest taken)) :
    Settles simClk { file := pushWord w ws, tag := tag, val := val, clock := clock }
      (leftTrace w rest) := by
  by_cases hnil : w = []
  · rw [pushWord, if_pos hnil, leftTrace, if_pos hnil]
    exact h false tag val
  · rw [pushWord, if_neg hnil, leftTrace, if_neg hnil]
    obtain ⟨val', hround⟩ := scanRound_noise simClk tag val clock hw ws
    exact .cons hround (h true w val')

/-- **The scan of items.** Wherever `%u` stops, the scan falls back into step: its
trace is that of the items. -/
theorem settles_items {items : List Item} (h : ∀ i ∈ items, i.Harmless) (taken : Bool) (tag : Line)
    (val clock : BitVec 32) :
    Settles simClk
      { file := pending taken (items.flatMap Item.words), tag := tag, val := val, clock := clock }
      (itemTrace simClk taken clock items) := by
  induction items generalizing taken tag val clock with
  | nil => exact .nil (by cases taken <;> rfl)
  | cons i items ih =>
      obtain ⟨hi, hitems⟩ := List.forall_mem_cons.mp h
      have hrest := fun taken tag val clock => ih hitems taken tag val clock
      rw [List.flatMap_cons]
      cases i with
      | noise w =>
          obtain ⟨hne, hw, hafter⟩ := hi
          have hfile : pending taken ((Item.noise w).words ++ items.flatMap Item.words) =
              pushWord (if taken then afterNumber w else w) (items.flatMap Item.words) := by
            cases taken with
            | false => exact (if_neg hne).symm
            | true => exact pending_true_cons w _
          rw [hfile, itemTrace]
          -- `%u` may have taken the digits that the word starts with
          refine settles_left ?_ fun taken tag val => hrest taken tag val clock
          split
          · exact hafter
          · exact hw
      | clock n =>
          have hfile : pending taken ((Item.clock n).words ++ items.flatMap Item.words) =
              tagClock :: toDec n.toNat :: items.flatMap Item.words := pending_semicolon taken _ _
          have hround := scanRound_clock simClk tag val clock n (items.flatMap Item.words)
          rw [hfile, itemTrace]
          by_cases hn : n = simClk + 1
          · rw [if_pos hn] at hround ⊢
            exact .stop hround
          · rw [if_neg hn] at hround ⊢
            exact .cons hround (hrest false _ _ _)
      | input v =>
          have hfile : pending taken ((Item.input v).words ++ items.flatMap Item.words) =
              tagInput :: v.chars :: items.flatMap Item.words := pending_semicolon taken _ _
          have htag : NotTag tagInput := by decide
          -- no branch reads the input's value: it is the next round's tag
          obtain ⟨val', hround⟩ := scanRound_noise simClk tag val clock htag
            (v.chars :: items.flatMap Item.words)
          rw [hfile, itemTrace]
          rw [pending_true_cons] at hround
          exact .cons hround (settles_left v.notTag.2 fun taken tag val => hrest taken tag val clock)
      | assign id =>
          have hfile : pending taken ((Item.assign id).words ++ items.flatMap Item.words) =
              tagAssign :: toDec id.toNat :: items.flatMap Item.words := pending_semicolon taken _ _
          rw [hfile, itemTrace]
          exact .cons (scanRound_assign simClk tag val clock id _) (hrest false _ _ _)
      | state stateName v =>
          have hfile : pending taken ((Item.state stateName v).words ++ items.flatMap Item.words) =
              (Item.state stateName v).words ++ items.flatMap Item.words :=
            pending_semicolon taken _ _
          obtain ⟨val', hround⟩ := scanRound_state simClk tag val clock stateName v
            (items.flatMap Item.words)
          rw [hfile, itemTrace]
          split
          · rename_i hname
            rw [if_pos hname] at hround
            -- the name was compared, and the value is still in the file
            have hv : pushWord v.chars (items.flatMap Item.words) =
                v.chars :: items.flatMap Item.words := if_neg v.chars_ne_nil
            rw [← hv] at hround
            exact .cons hround
              (settles_left v.notTag.1 fun taken tag val => hrest taken tag val clock)
          · rename_i hname
            rw [if_neg hname] at hround
            exact .cons hround
              (settles_left v.notTag.2 fun taken tag val => hrest taken tag val clock)

end Settles

/-! ## Line by line -/

/-- What `%u` left of a word, as a tag. -/
def leftTokens (w : Line) : List Token := if w = [] then [] else [.tag w]

/-- The words of a text that are read as tags when `%u` is tried after each of them. -/
def tagWords : Bool → List Line → List Line
  | _, [] => []
  | false, w :: ws => w :: tagWords true ws
  | true, w :: ws =>
      if afterNumber w = [] then tagWords false ws else afterNumber w :: tagWords true ws

namespace LogLine

def clockAfter (clock : BitVec 32) : LogLine → BitVec 32
  | .clock _ n => n
  | _ => clock

/-- The marker of `break`. -/
def isStop (simClk : BitVec 32) : LogLine → Bool
  | .clock _ n => n = simClk + 1
  | _ => false

/-- The tokens of a line; `taken` when `%u` has been tried on the first word. -/
def tokens (taken : Bool) : LogLine → List Token
  | .clock _ _ => [.tag tagClock]
  | .input v => .tag tagInput :: leftTokens (afterNumber v.chars)
  | .assign _ => [.tag tagAssign]
  | .state stateName v =>
      if afterNumber stateName.chars = [] then
        [.tag tagState, .stateName ['='], .tag v.chars]
      else
        [.tag tagState, .stateName (afterNumber stateName.chars)] ++
          leftTokens (afterNumber v.chars)
  | .other t => (tagWords taken (words t.chars)).map .tag

def calls (clock : BitVec 32) : LogLine → List Call
  | .clock _ n => [.createClock n]
  | .assign id => [.createConstraint clock id]
  | .state stateName v =>
      if afterNumber stateName.chars = [] then [.addState (some ['=']) none clock]
      else [.addState (some (afterNumber stateName.chars)) (number v.chars) clock]
  | _ => []

end LogLine

section Lines

variable {simClk : BitVec 32}

theorem Trace.cons_cons (tokens tokens' : List Token) (calls calls' : List Call) (t : Trace) :
    (t.cons tokens' calls').cons tokens calls = t.cons (tokens ++ tokens') (calls ++ calls') := by
  simp [Trace.cons]

theorem leftTrace_eq (w : Line) (rest : Bool → Trace) :
    ∃ taken, leftTrace w rest = (rest taken).cons (leftTokens w) [] := by
  unfold leftTrace leftTokens
  split
  · exact ⟨false, rfl⟩
  · exact ⟨true, rfl⟩

theorem itemTrace_noise (ws : List Line) (taken : Bool) (clock : BitVec 32) (items : List Item)
    (hws : ∀ w ∈ ws, w ≠ []) :
    ∃ taken', itemTrace simClk taken clock (ws.map .noise ++ items) =
      (itemTrace simClk taken' clock items).cons ((tagWords taken ws).map .tag) [] := by
  induction ws generalizing taken with
  | nil => exact ⟨taken, by cases taken <;> rfl⟩
  | cons w ws ih =>
      obtain ⟨hw, hws⟩ := List.forall_mem_cons.mp hws
      rw [List.map_cons, List.cons_append, itemTrace, leftTrace]
      cases taken with
      | false =>
          obtain ⟨taken', htrace⟩ := ih true hws
          refine ⟨taken', ?_⟩
          rw [if_neg (by simpa using hw), htrace, Trace.cons_cons]
          rfl
      | true =>
          simp only [if_true, tagWords]
          split
          · exact ih false hws
          · obtain ⟨taken', htrace⟩ := ih true hws
            refine ⟨taken', ?_⟩
            rw [htrace, Trace.cons_cons]
            rfl

theorem itemTrace_stop {l : LogLine} (h : l.isStop simClk = true) (taken : Bool)
    (clock : BitVec 32) (items : List Item) :
    itemTrace simClk taken clock (l.items ++ items) =
      { tokens := [.tag tagClock], calls := [], ended := true } := by
  cases l with
  | clock blanks n => exact if_pos (of_decide_eq_true h)
  | input v => cases h
  | assign id => cases h
  | state stateName v => cases h
  | other t => cases h

/-- What a line other than the last marker adds to the trace. -/
theorem itemTrace_line {l : LogLine} (h : l.isStop simClk = false) (taken : Bool)
    (clock : BitVec 32) (items : List Item) :
    ∃ taken', itemTrace simClk taken clock (l.items ++ items) =
      (itemTrace simClk taken' (l.clockAfter clock) items).cons (l.tokens taken)
        (l.calls clock) := by
  cases l with
  | clock blanks n => exact ⟨false, if_neg (of_decide_eq_false h)⟩
  | input v =>
      obtain ⟨taken', hleft⟩ := leftTrace_eq (afterNumber v.chars)
        fun taken => itemTrace simClk taken clock items
      refine ⟨taken', ?_⟩
      rw [LogLine.items, List.singleton_append, itemTrace, hleft, Trace.cons_cons]
      rfl
  | assign id => exact ⟨false, rfl⟩
  | state stateName v =>
      rw [LogLine.items, List.singleton_append, itemTrace, LogLine.tokens, LogLine.calls]
      split
      · obtain ⟨taken', hleft⟩ := leftTrace_eq v.chars
          fun taken => itemTrace simClk taken clock items
        refine ⟨taken', ?_⟩
        rw [hleft, Trace.cons_cons, leftTokens, if_neg v.chars_ne_nil]
        rfl
      · obtain ⟨taken', hleft⟩ := leftTrace_eq (afterNumber v.chars)
          fun taken => itemTrace simClk taken clock items
        refine ⟨taken', ?_⟩
        rw [hleft, Trace.cons_cons]
        rfl
  | other t => exact itemTrace_noise (words t.chars) taken clock items fun w hw => mem_words hw

end Lines

/-- The trace of a log after the line of `write_first_clock`. -/
def logTrace (simClk : BitVec 32) (log : List LogLine) : Trace :=
  itemTrace simClk false 0 ((LogLine.clock 9 0 :: log).flatMap LogLine.items)

/-- A text none of whose words is a tag behind a number. -/
def OtherText.Harmless (t : OtherText) : Prop := ∀ w ∈ words t.chars, NotTag (afterNumber w)

theorem harmless_items {l : LogLine} (h : ∀ t, l = .other t → t.Harmless) :
    ∀ i ∈ l.items, i.Harmless := by
  cases l with
  | clock blanks n => exact List.forall_mem_singleton.mpr trivial
  | input v => exact List.forall_mem_singleton.mpr trivial
  | assign id => exact List.forall_mem_singleton.mpr trivial
  | state stateName v => exact List.forall_mem_singleton.mpr trivial
  | other t =>
      rw [LogLine.items, List.forall_mem_map]
      intro w hw
      have hnot := t.not_tag w hw
      simp only [List.mem_cons, List.not_mem_nil, or_false, not_or] at hnot
      obtain ⟨hclock, -, hassign, hstate⟩ := hnot
      exact ⟨mem_words hw, by simp [NotTag, hclock, hassign, hstate], h t rfl w hw⟩

/-- **The scan of a log.** Rounds enough read the tokens of the trace of the log, and if
the log has the last marker, they are that trace. -/
theorem scanLog_logTrace {log : List LogLine} (h : ∀ t, .other t ∈ log → t.Harmless)
    (simClk : BitVec 32) (tag : Line) (val : BitVec 32) :
    ∃ n, ∀ m ≥ n,
      (scanLog simClk tag val (logText log) m).tokens = (logTrace simClk log).tokens ∧
        ((logTrace simClk log).ended = true →
          scanLog simClk tag val (logText log) m = logTrace simClk log) := by
  have hitems : ∀ i ∈ (LogLine.clock 9 0 :: log).flatMap LogLine.items, i.Harmless := by
    intro i hi
    obtain ⟨l, hl, hi⟩ := List.mem_flatMap.mp hi
    refine harmless_items ?_ i hi
    rintro t rfl
    exact h t (by simpa using hl)
  have hrounds (m : Nat) : scanLog simClk tag val (logText log) m =
      scanRounds scanWords simClk m
        { file := ((LogLine.clock 9 0 :: log).flatMap LogLine.items).flatMap Item.words
          tag := tag, val := val, clock := 0 } := by
    rw [scanLog, ← scanRounds_toWords, ScanState.toWords, writeFirstClock_logText, words_logText]
  obtain ⟨n, hn⟩ := settles_items hitems false tag val 0
  refine ⟨n, ?_⟩
  intro m hm
  rw [hrounds m]
  exact hn m hm

end Conquest
