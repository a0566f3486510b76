import Mathlib.Data.List.Nodup
import Mathlib.Data.List.Perm.Basic
import Mathlib.Data.List.TakeWhile
import Conquest.Explore.StepCoverage

/-!
# Ranking — the candidates in the order of the network

`find_next_cfg` lists the untaken alternatives and lets the network rank all
branches of the design. `DQN_sort.py` writes the ids to a file; the list is then
rebuilt from the ids that `readActionsFromFile` finds there.
-/

namespace Conquest

open Text

/-! ## Rebuilding a list from keys -/

section Rebuild

variable {α κ : Type*} [DecidableEq α] [DecidableEq κ]

/-- A key brings every element that has it, each time it comes. -/
theorem count_flatMap_filter (key : α → κ) (keys : List κ) (l : List α) (a : α) :
    (keys.flatMap fun k => l.filter fun b => key b = k).count a =
      keys.count (key a) * l.count a := by
  induction keys with
  | nil => simp
  | cons k keys ih =>
      rw [List.flatMap_cons, List.count_append, ih, List.count_cons]
      by_cases hk : key a = k
      · rw [List.count_filter (by simpa using hk), if_pos (by simpa using hk.symm)]
        ring
      · have hnot : a ∉ l.filter fun b => key b = k := fun hmem =>
          hk (by simpa using (List.mem_filter.mp hmem).2)
        rw [List.count_eq_zero_of_not_mem hnot, if_neg (by simpa using Ne.symm hk)]
        ring

/-- **Permutation.** The list is rebuilt as it was, up to order, exactly when each
of its keys comes once. -/
theorem flatMap_filter_perm_iff (key : α → κ) (keys : List κ) (l : List α) :
    (keys.flatMap fun k => l.filter fun b => key b = k).Perm l ↔
      ∀ a ∈ l, keys.count (key a) = 1 := by
  rw [List.perm_iff_count]
  refine forall_congr' fun a => ?_
  rw [count_flatMap_filter]
  constructor
  · intro h hmem
    exact Nat.eq_of_mul_eq_mul_right (List.count_pos_iff.mpr hmem) (by rw [h, one_mul])
  · intro h
    by_cases hmem : a ∈ l
    · rw [h hmem, one_mul]
    · rw [List.count_eq_zero_of_not_mem hmem, mul_zero]

end Rebuild

/-! ## The ranking file -/

/-- `isspace`. -/
def isSpace (c : Char) : Bool := [' ', '\t', '\n', '\x0b', '\x0c', '\r'].contains c

/-- The sign before a numeral, and the rest. -/
def readSign : List Char → Bool × List Char
  | [] => (false, [])
  | c :: text =>
      if c = '-' then (true, text) else if c = '+' then (false, text) else (false, c :: text)

/-- `iss >> number` of an `unsigned int`: the number and what follows it, unless
the stream fails. -/
def readUnsigned (text : List Char) : Option (Nat × List Char) :=
  let (negative, text) := readSign (text.dropWhile isSpace)
  let digits := text.takeWhile Char.isDigit
  let number := Nat.ofDigitChars 10 digits 0
  if digits = [] ∨ 2 ^ 32 ≤ number then none
  else some (if negative then (2 ^ 32 - number) % 2 ^ 32 else number,
    text.dropWhile Char.isDigit)

/-- `if (iss.peek() == ',') iss.ignore()`. -/
def skipComma : List Char → List Char
  | [] => []
  | c :: text => if c = ',' then text else c :: text

def readActions : Nat → List Char → List Nat
  | 0, _ => []
  | fuel + 1, text =>
      match readUnsigned text with
      | none => []
      | some (number, rest) => number :: readActions fuel (skipComma rest)

/-- `readActionsFromFile`, of a file that may be missing. Every number takes at
least one character of the first line. -/
def readActionsFromFile : Option (List Char) → List Nat
  | none => []
  | some content =>
      let line := content.takeWhile (· ≠ '\n')
      readActions line.length line

theorem length_skipComma_le (text : List Char) : (skipComma text).length ≤ text.length := by
  cases text with
  | nil => exact le_rfl
  | cons c text =>
      rw [skipComma]
      split
      · exact Nat.le_succ _
      · exact le_rfl

theorem length_readSign_le (text : List Char) : (readSign text).2.length ≤ text.length := by
  cases text with
  | nil => exact le_rfl
  | cons c text =>
      rw [readSign]
      split
      · exact Nat.le_succ _
      · split
        · exact Nat.le_succ _
        · exact le_rfl

theorem length_readUnsigned_lt {text rest : List Char} {number : Nat}
    (h : readUnsigned text = some (number, rest)) : rest.length < text.length := by
  unfold readUnsigned at h
  dsimp only at h
  split at h
  · cases h
  · rename_i hdigits
    obtain ⟨-, rfl⟩ := Prod.mk.inj (Option.some.inj h)
    have hsign := length_readSign_le (text.dropWhile isSpace)
    have hspace := (List.dropWhile_suffix isSpace (l := text)).length_le
    have hparts := congrArg List.length
      (List.takeWhile_append_dropWhile (p := Char.isDigit) (l := (readSign (text.dropWhile isSpace)).2))
    have hsome := List.length_pos_iff.mpr (not_or.mp hdigits).1
    rw [List.length_append] at hparts
    omega

/-- More rounds than characters read nothing more. -/
theorem readActions_fuel {fuel fuel' : Nat} {text : List Char} (h : text.length ≤ fuel)
    (h' : text.length ≤ fuel') : readActions fuel text = readActions fuel' text := by
  have hnil : ∀ fuel, readActions fuel [] = [] := by
    intro fuel
    cases fuel <;> rfl
  induction fuel generalizing fuel' text with
  | zero =>
      obtain rfl := List.length_eq_zero_iff.mp (Nat.le_zero.mp h)
      rw [hnil, hnil]
  | succ fuel ih =>
      cases fuel' with
      | zero =>
          obtain rfl := List.length_eq_zero_iff.mp (Nat.le_zero.mp h')
          rw [hnil, hnil]
      | succ fuel' =>
          rw [readActions, readActions]
          split
          · rfl
          · rename_i number rest hread
            have hlt := length_readUnsigned_lt hread
            have hskip := length_skipComma_le rest
            have heq : readActions fuel (skipComma rest) = readActions fuel' (skipComma rest) :=
              ih (by omega) (by omega)
            rw [heq]

/-! ## The file that the network writes -/

/-- What `DQN_sort.py` writes. -/
def networkFile (sortedBranchList : List Nat) : List Char :=
  sortedBranchList.flatMap fun number => toDec number ++ [',']

theorem readUnsigned_toDec {n : Nat} (hn : n < 2 ^ 32) (rest : List Char) :
    readUnsigned (toDec n ++ ',' :: rest) = some (n, ',' :: rest) := by
  obtain ⟨c, cs, hcs⟩ := List.exists_cons_of_ne_nil (toDec_ne_nil n)
  have hdigit : ∀ c' ∈ c :: cs, c'.isDigit := fun c' hc' =>
    isDigit_of_mem_toDec (n := n) (hcs ▸ hc')
  have hc : c.isDigit := hdigit c List.mem_cons_self
  have hne : ∀ c', c'.isDigit = false → c ≠ c' := by
    rintro c' hc' rfl
    rw [hc] at hc'
    cases hc'
  have hspace : isSpace c = false := by
    rw [isSpace, List.contains_eq_mem, decide_eq_false_iff_not]
    simp only [List.mem_cons, List.not_mem_nil, or_false, not_or]
    exact ⟨hne _ rfl, hne _ rfl, hne _ rfl, hne _ rfl, hne _ rfl, hne _ rfl⟩
  have htake : (c :: cs ++ ',' :: rest).takeWhile Char.isDigit = c :: cs := by
    rw [List.takeWhile_append_of_pos hdigit]
    simp
  have hdrop : (c :: cs ++ ',' :: rest).dropWhile Char.isDigit = ',' :: rest := by
    rw [List.dropWhile_append_of_pos hdigit]
    simp
  have hvalue : Nat.ofDigitChars 10 (c :: cs) 0 = n := by
    rw [← hcs]
    exact Nat.ofDigitChars_ten_toDigits
  have hsign : readSign ((c :: cs ++ ',' :: rest).dropWhile isSpace) =
      (false, c :: cs ++ ',' :: rest) := by
    rw [List.cons_append, List.dropWhile_cons_of_neg (by simp [hspace]), readSign,
      if_neg (hne _ rfl), if_neg (hne _ rfl)]
  have hgood : ¬ (c :: cs = [] ∨ 2 ^ 32 ≤ n) := by
    rintro (h | h)
    · cases h
    · omega
  rw [hcs, readUnsigned, hsign]
  dsimp only
  rw [htake, hdrop, hvalue, if_neg hgood]
  rfl

/-- **The ids come through the file.** -/
theorem readActionsFromFile_networkFile {ids : List Nat} (h : ∀ id ∈ ids, id < 2 ^ 32) :
    readActionsFromFile (some (networkFile ids)) = ids := by
  have hfuel : ∀ fuel, (networkFile ids).length ≤ fuel →
      readActions fuel (networkFile ids) = ids := by
    induction ids with
    | nil =>
        intro fuel _
        cases fuel <;> rfl
    | cons id ids ih =>
        intro fuel hle
        have hline : networkFile (id :: ids) = toDec id ++ ',' :: networkFile ids := by
          rw [networkFile, List.flatMap_cons, List.append_assoc]
          rfl
        rw [hline, List.length_append, List.length_cons] at hle
        cases fuel with
        | zero => omega
        | succ fuel =>
            rw [hline, readActions, readUnsigned_toDec (h id List.mem_cons_self)]
            dsimp only
            rw [skipComma, if_pos rfl,
              ih (fun id' hid' => h id' (List.mem_cons_of_mem _ hid')) fuel (by omega)]
  have hline : (networkFile ids).takeWhile (· ≠ '\n') = networkFile ids := by
    refine List.takeWhile_eq_self_iff.mpr fun c hc => ?_
    obtain ⟨id, -, hc⟩ := List.mem_flatMap.mp hc
    refine decide_eq_true fun hnl => ?_
    rw [hnl] at hc
    rcases List.mem_append.mp hc with hc | hc
    · exact toDec_free rfl id hc
    · exact absurd hc (by decide)
  rw [readActionsFromFile, hline]
  exact hfuel _ le_rfl

/-! ## The candidates -/

section Candidates

variable {S : Type} (d : Design S)

/-- The untaken alternatives of all branch records with these clocks. -/
def Session.untaken (beginClk endClk : Nat) (x : Session S) : List (Candidate S) :=
  ((x.stack.filterMap Constraint.record?).filter fun r =>
    beginClk ≤ r.clock && r.clock ≤ endClk).flatMap (x.alternatives d)

variable {d}

theorem Session.cnst_of_mem_alternatives {x : Session S} {r : Record S} {cand : Candidate S}
    (h : cand ∈ x.alternatives d r) : cand.cnst = r := by
  unfold Session.alternatives at h
  split at h
  · obtain ⟨br, -, rfl⟩ := List.mem_map.mp (List.mem_filter.mp h).1
    rfl
  · cases h

theorem Session.filter_alternatives (x : Session S) (p : Record S → Bool)
    (records : List (Record S)) :
    ((records.flatMap (x.alternatives d)).filter fun cand => p cand.cnst) =
      (records.filter p).flatMap (x.alternatives d) := by
  induction records with
  | nil => rfl
  | cons r records ih =>
      rw [List.flatMap_cons, List.filter_append, ih]
      by_cases hp : p r
      · rw [List.filter_cons_of_pos hp, List.flatMap_cons, List.filter_eq_self.mpr]
        exact fun cand hcand => by rwa [cnst_of_mem_alternatives hcand]
      · rw [List.filter_cons_of_neg hp, List.filter_eq_nil_iff.mpr, List.nil_append]
        exact fun cand hcand => by rwa [cnst_of_mem_alternatives hcand]

/-- The bottom of the stack has no record of a later clock. -/
theorem filter_dropWhile_clock (stack : List (Constraint S)) (p : Record S → Bool)
    (hzero : ∀ r : Record S, r.clock = 0 → p r = false) :
    ((stack.dropWhile fun c => c.clock = 0).filterMap Constraint.record?).filter p =
      (stack.filterMap Constraint.record?).filter p := by
  induction stack with
  | nil => rfl
  | cons c stack ih =>
      by_cases hc : c.clock = 0
      · rw [List.dropWhile_cons_of_pos (by simpa using hc), ih]
        cases c with
        | clk n => rfl
        | record r =>
            rw [List.filterMap_cons_some (rfl : (Constraint.record r).record? = some r),
              List.filter_cons_of_neg (by simpa using hzero r hc)]
      · rw [List.dropWhile_cons_of_neg (by simpa using hc)]

/-- Skipping the records of clock 0 drops no candidate. -/
theorem Session.branches_eq_untaken (x : Session S) (initClk endClk : Nat) :
    x.branches d (initClk + 1) endClk = x.untaken d (initClk + 1) endClk := by
  rw [branches, untaken, ← filter_dropWhile_clock, ← filter_alternatives]
  intro r hr
  simp [hr]

theorem Answer.rank_perm_self_iff (a : Answer S) (cands : List (Candidate S)) :
    (a.rank cands).Perm cands ↔ ∀ cand ∈ cands, a.actionList.count cand.br.id = 1 := by
  classical
  rw [← flatMap_filter_perm_iff fun cand : Candidate S => cand.br.id]
  exact List.Perm.congr_left (a.perm _) _

/-- **What the ranking keeps.** The candidates of the loop are the untaken
alternatives exactly when the file has the id of each of them once. -/
theorem Answer.rank_perm_iff (d : Design S) (x : Session S) (a : Answer S)
    (file : Option (List Char)) (initClk endClk : Nat) :
    ({ a with actionList := readActionsFromFile file }.rank
        (x.branches d (initClk + 1) endClk)).Perm (x.untaken d (initClk + 1) endClk) ↔
      ∀ cand ∈ x.untaken d (initClk + 1) endClk,
        (readActionsFromFile file).count cand.br.id = 1 := by
  rw [x.branches_eq_untaken, rank_perm_self_iff]

/-- The file of the network does for a design of at most 348 records. -/
theorem Answer.rank_networkFile_perm_iff (d : Design S) (x : Session S) (a : Answer S)
    {ids : List Nat} (hids : ids.Perm (List.range 348)) (initClk endClk : Nat) :
    ({ a with actionList := readActionsFromFile (some (networkFile ids)) }.rank
        (x.branches d (initClk + 1) endClk)).Perm (x.untaken d (initClk + 1) endClk) ↔
      ∀ cand ∈ x.untaken d (initClk + 1) endClk, cand.br.id < 348 := by
  have hread : readActionsFromFile (some (networkFile ids)) = ids :=
    readActionsFromFile_networkFile fun id hid => by
      have hlt := List.mem_range.mp (hids.mem_iff.mp hid)
      omega
  rw [x.branches_eq_untaken, rank_perm_self_iff, hread]
  refine forall₂_congr fun cand _ => ?_
  rw [hids.count_eq, ← List.mem_range]
  exact ⟨fun h => List.count_pos_iff.mp (h ▸ Nat.one_pos),
    fun h => List.count_eq_one_of_mem List.nodup_range h⟩

/-- Without the file the loop has no candidate. -/
theorem else_rank_missing :
    ¬ ({ elseAnswer with actionList := readActionsFromFile none }.rank
        (elseEnd.branches elseDesign (0 + 1) 1)).Perm (elseEnd.untaken elseDesign (0 + 1) 1) := by
  rw [← elseEnd.branches_eq_untaken, Answer.rank_perm_self_iff, else_branches]
  intro h
  exact absurd (h elseCand List.mem_cons_self) (by decide)

end Candidates

end Conquest
