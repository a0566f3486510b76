import Conquest.Lib.Text

/-!
# Vvp — the bound of `_conc_ram` in the compiled simulation

`update_vvp` rewrites `conc_run.vvp` in place before every simulation, so that
the input memory has as many rows as the step wants. It reads the file line by
line: a line that mentions `_conc_ram` is printed token by token with the token
after the array's name replaced, and any other line that mentions the pattern
`delay ` (to which the old bound has been appended once the declaration was
seen) has its first occurrence of `g_unroll * 10` replaced by itself.

The second rewrite does not test the result of its `find`: on a line without
that numeral the position is `-1`, so the whole line is followed by the numeral
and by the line's tail from position `length - 1` on.
-/

namespace Conquest

open Text

/-! ## The source's rewriting pass -/

/-- `pattern_str1`. -/
def concRam : Line := "_conc_ram".toList

/-- The token after which `update_vvp` expects the bound. -/
def concRamName : Line := "\"_conc_ram\",".toList

/-- The initial value of `pattern_str2`. -/
def delayPattern : Line := "delay ".toList

/-- `target_str`: `g_unroll * 10` in `unsigned int`. -/
def targetStr (gUnroll : Nat) : Line := toDec (gUnroll * 10 % 2 ^ 32)

/-- The `strtok` loop over one line that mentions `_conc_ram`: `preTarget` says
that the previous token was the array's name. Returns `newLine` and
`pattern_str2`. -/
def tokenLoop (targetCycles : Nat) :
    List Line → Bool → Line → Line → Line × Line
  | [], _, newLine, pattern2 => (newLine, pattern2)
  | tok :: toks, true, newLine, pattern2 =>
      tokenLoop targetCycles toks (tok = concRamName)
        (newLine ++ toDec targetCycles ++ [' ']) (pattern2 ++ tok)
  | tok :: toks, false, newLine, pattern2 =>
      tokenLoop targetCycles toks (tok = concRamName) (newLine ++ tok ++ [' ']) pattern2

/-- The replacement of `target_str` in a line that matched `pattern_str2`. A
failed `find` leaves `pos_start = -1`; `substr` throws when its position is
beyond the end of the line. -/
def rewriteDelay (target line : Line) : Option Line :=
  match find target line with
  | some pos => some (line.take pos ++ target ++ line.drop (pos + target.length))
  | none =>
      if target.length - 1 ≤ line.length then
        some (line ++ target ++ line.drop (target.length - 1))
      else none

/-- One turn of the loop over the lines: the new line and `pattern_str2`. -/
def updateLine (gUnroll targetCycles : Nat) (pattern2 line : Line) : Option (Line × Line) :=
  if concRam <:+: line then
    some (tokenLoop targetCycles (tokens ' ' line) false [] pattern2)
  else if pattern2 <:+: line then
    (rewriteDelay (targetStr gUnroll) line).map fun l => (l, pattern2)
  else some (line, pattern2)

/-- The loop over the lines, from a value of `pattern_str2`. -/
def updateLines (gUnroll targetCycles : Nat) : Line → List Line → Option (List Line)
  | _, [] => some []
  | pattern2, line :: lines => do
      let (line', pattern2') ← updateLine gUnroll targetCycles pattern2 line
      let lines' ← updateLines gUnroll targetCycles pattern2' lines
      return line' :: lines'

/-- `update_vvp(target_cycles)` on the lines of the file; `none` is the
exception `substr` throws. -/
def updateVvp (gUnroll targetCycles : Nat) (lines : List Line) : Option (List Line) :=
  updateLines gUnroll targetCycles delayPattern lines

/-- The calls `update_vvp(k1), update_vvp(k2), …` one after the other. -/
def updateVvpCalls (gUnroll : Nat) (ks : List Nat) (lines : List Line) :
    Option (List Line) :=
  ks.foldlM (fun ls k => updateVvp gUnroll k ls) lines

/-! ## Files with one declaration of the array -/

/-- The lines of a compiled file around its one declaration of `_conc_ram`. -/
structure VvpFile where
  before : List Line
  decl : Line
  after : List Line
  /-- The declaration's tokens up to the bound, the bound, and the rest. -/
  pre : List Line
  bound : Line
  post : List Line
  decl_tokens : tokens ' ' decl = pre ++ concRamName :: bound :: post
  pre_free : concRamName ∉ pre
  post_free : concRamName ∉ bound :: post
  others : ∀ l ∈ before ++ after, concRamName ∉ tokens ' ' l

namespace VvpFile

def lines (F : VvpFile) : List Line := F.before ++ F.decl :: F.after

/-- `ls` is the file with the bound set to `k`: the declaration has the same
tokens but for the bound, and every other line is unchanged. -/
def BoundSet (F : VvpFile) (k : Nat) (ls : List Line) : Prop :=
  ∃ decl', ls = F.before ++ decl' :: F.after ∧
    tokens ' ' decl' = F.pre ++ concRamName :: toDec k :: F.post

end VvpFile

/-- What keeps one line other than the declaration: a line that mentions
`_conc_ram` is already printed with one blank after each token, and any other
line that matches `pattern2` contains `target_str`. -/
def LineKept (gUnroll : Nat) (pattern2 line : Line) : Prop :=
  if concRam <:+: line then spaced ' ' (tokens ' ' line) = line
  else pattern2 <:+: line → targetStr gUnroll <:+: line

instance (gUnroll : Nat) (pattern2 line : Line) :
    Decidable (LineKept gUnroll pattern2 line) :=
  inferInstanceAs (Decidable (if concRam <:+: line then _ else _ → _))

/-- The bound `old` is one that a call can replace without touching another
line: before the declaration the pattern is `delay `, after it
`delay ` followed by `old`. -/
def Harmless (gUnroll : Nat) (F : VvpFile) (old : Line) : Prop :=
  (∀ l ∈ F.before, LineKept gUnroll delayPattern l) ∧
    ∀ l ∈ F.after, LineKept gUnroll (delayPattern ++ old) l

/-- The bounds in force when each of the calls is made. -/
def boundsBefore (old : Line) : List Nat → List Line
  | [] => []
  | k :: ks => old :: boundsBefore (toDec k) ks

/-! ## One line -/

theorem targetStr_ne_nil (gUnroll : Nat) : targetStr gUnroll ≠ [] := toDec_ne_nil _

/-- Without the array's name, the token loop only re-spaces the line. -/
theorem tokenLoop_no_name {k : Nat} {toks : List Line} (h : concRamName ∉ toks)
    (newLine pattern2 : Line) :
    tokenLoop k toks false newLine pattern2 = (newLine ++ spaced ' ' toks, pattern2) := by
  induction toks generalizing newLine with
  | nil => simp [tokenLoop, spaced]
  | cons tok toks ih =>
      obtain ⟨hne, hrest⟩ := List.ne_and_not_mem_of_not_mem_cons h
      simp only [tokenLoop, spaced, decide_eq_false (Ne.symm hne)]
      rw [ih hrest]
      simp

/-- On the declaration the token after the name is replaced, and appended to
the pattern. -/
theorem tokenLoop_decl {k : Nat} {pre post : List Line} {bound : Line}
    (hpre : concRamName ∉ pre) (hpost : concRamName ∉ bound :: post)
    (newLine pattern2 : Line) :
    tokenLoop k (pre ++ concRamName :: bound :: post) false newLine pattern2 =
      (newLine ++ spaced ' ' (pre ++ concRamName :: toDec k :: post),
        pattern2 ++ bound) := by
  induction pre generalizing newLine with
  | nil =>
      obtain ⟨hb, hp⟩ := List.ne_and_not_mem_of_not_mem_cons hpost
      simp only [List.nil_append, tokenLoop, spaced, decide_true,
        decide_eq_false (Ne.symm hb)]
      rw [tokenLoop_no_name hp]
      simp
  | cons tok pre ih =>
      obtain ⟨hne, hrest⟩ := List.ne_and_not_mem_of_not_mem_cons hpre
      simp only [List.cons_append, tokenLoop, spaced, decide_eq_false (Ne.symm hne)]
      rw [ih hrest]
      simp

/-- The rewrite of a `delay ` line keeps it exactly when the numeral is there. -/
theorem rewriteDelay_eq_self_iff {target line : Line} (hne : target ≠ []) :
    rewriteDelay target line = some line ↔ target <:+: line := by
  unfold rewriteDelay
  cases hf : find target line with
  | some pos =>
      have hin : target <:+: line := find_isSome_iff.mp (by simp [hf])
      simp [take_append_drop_of_find hf, hin]
  | none =>
      have hout : ¬ target <:+: line := find_eq_none_iff.mp hf
      have hpos : 0 < target.length := List.length_pos_iff.mpr hne
      simp only [hout, iff_false]
      intro h
      split at h
      · have hlen := congrArg List.length (Option.some.inj h)
        simp only [List.length_append, List.length_drop] at hlen
        omega
      · cases h

/-- A line other than the declaration never changes the pattern. -/
theorem updateLine_pattern {gUnroll k : Nat} {pattern2 pattern2' line line' : Line}
    (hname : concRamName ∉ tokens ' ' line)
    (h : updateLine gUnroll k pattern2 line = some (line', pattern2')) :
    pattern2' = pattern2 := by
  unfold updateLine at h
  split at h
  · rw [tokenLoop_no_name hname] at h
    exact (congrArg Prod.snd (Option.some.inj h)).symm
  · split at h
    · obtain ⟨l, -, hl⟩ := Option.map_eq_some_iff.mp h
      exact (congrArg Prod.snd hl).symm
    · exact (congrArg Prod.snd (Option.some.inj h)).symm

theorem updateLine_eq_self_iff {gUnroll k : Nat} {pattern2 line : Line}
    (hname : concRamName ∉ tokens ' ' line) :
    updateLine gUnroll k pattern2 line = some (line, pattern2) ↔
      LineKept gUnroll pattern2 line := by
  unfold updateLine LineKept
  split
  · simp [tokenLoop_no_name hname]
  · split
    · rename_i hmatch
      rw [Option.map_eq_some_iff]
      simp only [Prod.mk.injEq, and_true, exists_eq_right, hmatch, forall_const]
      exact rewriteDelay_eq_self_iff (targetStr_ne_nil gUnroll)
    · rename_i hmatch
      simp [hmatch]

/-! ## All lines of a file -/

/-- The lines before the declaration leave the pattern alone. -/
theorem updateLines_append {gUnroll k : Nat} {pattern2 : Line} {A : List Line}
    (hname : ∀ l ∈ A, concRamName ∉ tokens ' ' l) (B : List Line) :
    updateLines gUnroll k pattern2 (A ++ B) =
      (updateLines gUnroll k pattern2 A).bind fun A' =>
        (updateLines gUnroll k pattern2 B).map fun B' => A' ++ B' := by
  induction A with
  | nil => simp [updateLines]
  | cons l A ih =>
      have hA := ih fun l hl => hname l (List.mem_cons_of_mem _ hl)
      simp only [List.cons_append, updateLines]
      cases hl : updateLine gUnroll k pattern2 l with
      | none => simp
      | some out =>
          obtain ⟨l', p'⟩ := out
          cases updateLine_pattern (hname l List.mem_cons_self) hl
          simp only [Option.bind_eq_bind, Option.bind_some, hA]
          cases updateLines gUnroll k pattern2 A <;>
            cases updateLines gUnroll k pattern2 B <;> simp

theorem updateLines_length {gUnroll k : Nat} {pattern2 : Line} {A A' : List Line}
    (h : updateLines gUnroll k pattern2 A = some A') : A'.length = A.length := by
  induction A generalizing pattern2 A' with
  | nil => simp [← Option.some.inj h]
  | cons l A ih =>
      simp only [updateLines, Option.bind_eq_bind, Option.bind_eq_some_iff] at h
      obtain ⟨⟨l', p'⟩, -, A₁, hA, hret⟩ := h
      cases hret
      simp [ih hA]

theorem updateLines_eq_self_iff {gUnroll k : Nat} {pattern2 : Line} {A : List Line}
    (hname : ∀ l ∈ A, concRamName ∉ tokens ' ' l) :
    updateLines gUnroll k pattern2 A = some A ↔
      ∀ l ∈ A, LineKept gUnroll pattern2 l := by
  induction A with
  | nil => simp [updateLines]
  | cons l A ih =>
      have hA := ih fun l hl => hname l (List.mem_cons_of_mem _ hl)
      have hl : updateLine gUnroll k pattern2 l = some (l, pattern2) ↔ _ :=
        updateLine_eq_self_iff (hname l List.mem_cons_self)
      rw [List.forall_mem_cons, ← hA, ← hl]
      simp only [updateLines, Option.bind_eq_bind, Option.bind_eq_some_iff]
      constructor
      · rintro ⟨⟨l', p'⟩, hl, A', hA, hret⟩
        cases updateLine_pattern (hname l List.mem_cons_self) hl
        cases hret
        exact ⟨hl, hA⟩
      · rintro ⟨hl, hA⟩
        exact ⟨_, hl, _, hA, rfl⟩

/-! ## One call -/

namespace VvpFile

/-- The declaration `update_vvp` prints for the bound `k`. -/
def declFor (F : VvpFile) (k : Nat) : Line :=
  spaced ' ' (F.pre ++ concRamName :: toDec k :: F.post)

/-- Every token of the printed declaration is non-empty and free of blanks. -/
theorem declFor_tokens (F : VvpFile) (k : Nat) :
    tokens ' ' (F.declFor k) = F.pre ++ concRamName :: toDec k :: F.post := by
  refine tokens_spaced fun t ht => ?_
  have hdec : toDec k ≠ [] ∧ ' ' ∉ toDec k :=
    ⟨toDec_ne_nil k, toDec_free (by decide) k⟩
  have hold : t ∈ tokens ' ' F.decl → t ≠ [] ∧ ' ' ∉ t := fun h =>
    ⟨(mem_tokens h).1, (mem_tokens h).2.1⟩
  rw [F.decl_tokens] at hold
  simp only [List.mem_append, List.mem_cons] at ht hold
  rcases ht with h | h | rfl | h
  · exact hold (.inl h)
  · exact hold (.inr (.inl h))
  · exact hdec
  · exact hold (.inr (.inr (.inr h)))

theorem concRam_infix_decl (F : VvpFile) : concRam <:+: F.decl := by
  have hmem : concRamName ∈ tokens ' ' F.decl := by simp [F.decl_tokens]
  have hsub : concRam <:+: concRamName := by decide
  exact hsub.trans (mem_tokens hmem).2.2

theorem updateLine_decl (F : VvpFile) (gUnroll k : Nat) (pattern2 : Line) :
    updateLine gUnroll k pattern2 F.decl = some (F.declFor k, pattern2 ++ F.bound) := by
  rw [updateLine, if_pos F.concRam_infix_decl, F.decl_tokens,
    tokenLoop_decl F.pre_free F.post_free]
  rfl

/-- The file after a call that touched nothing but the bound. -/
def withBound (F : VvpFile) (k : Nat) : VvpFile where
  before := F.before
  decl := F.declFor k
  after := F.after
  pre := F.pre
  bound := toDec k
  post := F.post
  decl_tokens := F.declFor_tokens k
  pre_free := F.pre_free
  post_free := by
    have hdec : concRamName ≠ toDec k := by
      intro h
      have : '_' ∈ toDec k := by
        rw [← h]
        decide
      exact toDec_free (by decide) k this
    simpa [hdec] using (List.ne_and_not_mem_of_not_mem_cons F.post_free).2
  others := F.others

theorem updateVvp_eq (F : VvpFile) (gUnroll k : Nat) :
    updateVvp gUnroll k F.lines =
      (updateLines gUnroll k delayPattern F.before).bind fun before' =>
        (updateLines gUnroll k (delayPattern ++ F.bound) F.after).map fun after' =>
          before' ++ F.declFor k :: after' := by
  have hbefore : ∀ l ∈ F.before, concRamName ∉ tokens ' ' l := fun l hl =>
    F.others l (List.mem_append_left _ hl)
  rw [updateVvp, lines, updateLines_append hbefore]
  simp only [updateLines, F.updateLine_decl, Option.bind_eq_bind, Option.bind_some]
  cases updateLines gUnroll k (delayPattern ++ F.bound) F.after <;> simp

/-- A call prints the declaration with its bound, and whether the other lines
survive depends on the old bound only. -/
theorem updateVvp_eq_some_iff (F : VvpFile) (gUnroll k : Nat) :
    updateVvp gUnroll k F.lines = some (F.withBound k).lines ↔
      Harmless gUnroll F F.bound := by
  have hbefore : ∀ l ∈ F.before, concRamName ∉ tokens ' ' l := fun l hl =>
    F.others l (List.mem_append_left _ hl)
  have hafter : ∀ l ∈ F.after, concRamName ∉ tokens ' ' l := fun l hl =>
    F.others l (List.mem_append_right _ hl)
  rw [Harmless, ← updateLines_eq_self_iff (k := k) hbefore,
    ← updateLines_eq_self_iff (k := k) hafter, updateVvp_eq]
  simp only [Option.bind_eq_some_iff, Option.map_eq_some_iff]
  constructor
  · rintro ⟨before', hb, after', ha, heq⟩
    obtain ⟨rfl, htail⟩ := List.append_inj heq (updateLines_length hb)
    cases htail
    exact ⟨hb, ha⟩
  · rintro ⟨hb, ha⟩
    exact ⟨_, hb, _, ha, rfl⟩

/-- Whatever a call that only sets the bound returns is the file with the
printed declaration. -/
theorem boundSet_iff (F : VvpFile) (gUnroll k : Nat) :
    (∃ ls, updateVvp gUnroll k F.lines = some ls ∧ F.BoundSet k ls) ↔
      updateVvp gUnroll k F.lines = some (F.withBound k).lines := by
  constructor
  · rintro ⟨ls, hls, decl', rfl, -⟩
    rw [updateVvp_eq] at hls
    simp only [Option.bind_eq_some_iff, Option.map_eq_some_iff] at hls
    obtain ⟨before', hb, after', ha, heq⟩ := hls
    obtain ⟨rfl, htail⟩ := List.append_inj heq (updateLines_length hb)
    cases htail
    rw [updateVvp_eq, hb, ha]
    rfl
  · intro h
    exact ⟨_, h, F.declFor k, rfl, F.declFor_tokens k⟩

/-! ## Sequences of calls -/

/-- Every call of the sequence sets the bound to its argument and changes
nothing else. -/
def EachSetsBound (F : VvpFile) (gUnroll : Nat) (ks : List Nat) : Prop :=
  ∀ done k, done ++ [k] <+: ks →
    ∃ ls, updateVvpCalls gUnroll (done ++ [k]) F.lines = some ls ∧ F.BoundSet k ls

/-- The sequence has the effect of its last call. -/
def LastCallDecides (F : VvpFile) (gUnroll : Nat) (ks : List Nat) : Prop :=
  ∀ k ∈ ks.getLast?, updateVvpCalls gUnroll ks F.lines = updateVvp gUnroll k F.lines

theorem withBound_withBound (F : VvpFile) (j k : Nat) :
    (F.withBound j).withBound k = F.withBound k := rfl

theorem updateVvpCalls_of_harmless {F : VvpFile} {gUnroll : Nat} {ks : List Nat}
    (h : ∀ old ∈ boundsBefore F.bound ks, Harmless gUnroll F old) {k : Nat}
    (hk : k ∈ ks.getLast?) :
    updateVvpCalls gUnroll ks F.lines = some (F.withBound k).lines := by
  induction ks generalizing F with
  | nil => simp at hk
  | cons j ks ih =>
      have hfirst : updateVvp gUnroll j F.lines = some (F.withBound j).lines :=
        (F.updateVvp_eq_some_iff gUnroll j).mpr (h _ List.mem_cons_self)
      rw [updateVvpCalls, List.foldlM_cons, hfirst]
      cases ks with
      | nil =>
          cases Option.some.inj hk
          rfl
      | cons j' ks =>
          rw [List.getLast?_cons_cons] at hk
          have hrest : ∀ old ∈ boundsBefore (F.withBound j).bound (j' :: ks),
              Harmless gUnroll (F.withBound j) old :=
            fun old ho => h old (List.mem_cons_of_mem _ ho)
          rw [← withBound_withBound F j k]
          exact ih hrest hk

theorem harmless_of_eachSetsBound {F : VvpFile} {gUnroll : Nat} {ks : List Nat}
    (h : F.EachSetsBound gUnroll ks) :
    ∀ old ∈ boundsBefore F.bound ks, Harmless gUnroll F old := by
  induction ks generalizing F with
  | nil => simp [boundsBefore]
  | cons k ks ih =>
      have hstep : updateVvp gUnroll k F.lines = some (F.withBound k).lines := by
        obtain ⟨ls, hls, hset⟩ := h [] k (by simp)
        have hone : updateVvp gUnroll k F.lines = some ls := by
          simpa [updateVvpCalls] using hls
        exact (F.boundSet_iff gUnroll k).mp ⟨ls, hone, hset⟩
      have hrest : (F.withBound k).EachSetsBound gUnroll ks := by
        intro done k' hpre
        obtain ⟨ls, hls, hset⟩ := h (k :: done) k' (by simpa using hpre)
        rw [List.cons_append, updateVvpCalls, List.foldlM_cons, hstep] at hls
        exact ⟨ls, hls, hset⟩
      intro old hold
      rcases List.mem_cons.mp hold with rfl | hold
      · exact (F.updateVvp_eq_some_iff gUnroll k).mp hstep
      · exact ih hrest old hold

theorem boundsBefore_mono {old b : Line} {ks' ks : List Nat} (hpre : ks' <+: ks)
    (h : old ∈ boundsBefore b ks') : old ∈ boundsBefore b ks := by
  induction ks' generalizing b ks with
  | nil => simp [boundsBefore] at h
  | cons k ks' ih =>
      obtain ⟨rest, rfl⟩ := hpre
      rcases List.mem_cons.mp h with rfl | h
      · exact List.mem_cons_self
      · exact List.mem_cons_of_mem _ (ih (List.prefix_append _ _) h)

/-- **Sequences of `update_vvp`.** The calls set the bound and nothing else, and
amount to the last one, exactly when every bound in force before a call is
harmless for the other lines of the file. -/
theorem updateVvpCalls_ok_iff (F : VvpFile) (gUnroll : Nat) (ks : List Nat) :
    (F.EachSetsBound gUnroll ks ∧ F.LastCallDecides gUnroll ks) ↔
      ∀ old ∈ boundsBefore F.bound ks, Harmless gUnroll F old := by
  constructor
  · rintro ⟨heach, -⟩
    exact harmless_of_eachSetsBound heach
  · intro h
    refine ⟨fun done k hpre => ?_, fun k hk => ?_⟩
    · have hprefix : ∀ old ∈ boundsBefore F.bound (done ++ [k]), Harmless gUnroll F old :=
        fun old ho => h old (boundsBefore_mono hpre ho)
      exact ⟨_, updateVvpCalls_of_harmless hprefix (by simp), F.declFor k, rfl,
        F.declFor_tokens k⟩
    · have hone : updateVvp gUnroll k F.lines = some (F.withBound k).lines := by
        refine (F.updateVvp_eq_some_iff gUnroll k).mpr (h _ ?_)
        cases ks with
        | nil => simp at hk
        | cons j ks => exact List.mem_cons_self
      rw [updateVvpCalls_of_harmless h hk, hone]

end VvpFile

/-! ## A declaration and a delay with the same number -/

/-- A file whose clock process waits 5 time units and whose input memory has
bound 5. -/
def delayFile : VvpFile where
  before := []
  decl := "v0x5555559d6bc0 .array \"_conc_ram\", 5 0, 31 0; ".toList
  after := ["    %delay 5, 0;".toList]
  pre := ["v0x5555559d6bc0".toList, ".array".toList]
  bound := "5".toList
  post := ["0,".toList, "31".toList, "0;".toList]
  decl_tokens := by decide
  pre_free := by decide
  post_free := by decide
  others := by decide

/-- With `g_unroll = 50` the call `update_vvp(7)` on `delayFile` damages the
delay instruction. -/
theorem updateVvp_damages_delay :
    updateVvp 50 7 delayFile.lines =
        some ["v0x5555559d6bc0 .array \"_conc_ram\", 7 0, 31 0; ".toList,
          "    %delay 5, 0;500  %delay 5, 0;".toList] ∧
      ¬ delayFile.EachSetsBound 50 [7] := by
  refine ⟨by decide, fun h => ?_⟩
  have hharmless := VvpFile.harmless_of_eachSetsBound h
  have hkept := (hharmless delayFile.bound List.mem_cons_self).2 _ List.mem_cons_self
  exact absurd hkept (by decide)

end Conquest
