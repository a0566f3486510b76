import Mathlib.Data.List.Forall2
import Conquest.Explore.StepCoverage
import Conquest.Smt.Number

/-!
# Skip — records that mention the reset

An assignment or a branch is left out of the instrumentation when its printed
form contains the name of the reset signal. The print is an S-expression, so
that the name is found where it is part of a word: of an operator, a constant, an
index or the name of any signal. The expressions in `_index` are not printed.
-/

namespace Conquest

open Bv Text

variable {S : Type}

/-! ## Expressions with their indices -/

/-- An `SMTExpr` whose leaves have the expression in `_index`, if there is one. -/
inductive IndexedExpr (S : Type) where
  | leaf (l : SMTLeaf S) (index : List (IndexedExpr S))
  | node (cls : SMTClass) (exprList : List (IndexedExpr S))

namespace IndexedExpr

theorem induct {motive : IndexedExpr S → Prop}
    (hleaf : ∀ l index, (∀ e ∈ index, motive e) → motive (.leaf l index))
    (hnode : ∀ cls es, (∀ e ∈ es, motive e) → motive (.node cls es)) (e : IndexedExpr S) :
    motive e :=
  @IndexedExpr.rec S motive (fun es => ∀ e ∈ es, motive e) hleaf hnode
    (fun _ h => absurd h List.not_mem_nil)
    (fun _ _ he hes => List.forall_mem_cons.mpr ⟨he, hes⟩) e

section Fold

variable {β : Type} (leaf : SMTLeaf S → List β → β) (node : SMTClass → List β → β)

mutual

/-- What is computed along the tree. -/
def fold : IndexedExpr S → β
  | .leaf l index => leaf l (foldList index)
  | .node cls es => node cls (foldList es)

def foldList : List (IndexedExpr S) → List β
  | [] => []
  | e :: es => e.fold :: foldList es

end

theorem foldList_eq_map (es : List (IndexedExpr S)) :
    foldList leaf node es = es.map (fold leaf node) := by
  induction es with
  | nil => rfl
  | cons e es ih => rw [foldList, ih, List.map_cons]

theorem fold_leaf (l : SMTLeaf S) (index : List (IndexedExpr S)) :
    (IndexedExpr.leaf l index).fold leaf node = leaf l (index.map (fold leaf node)) := by
  rw [fold, foldList_eq_map]

theorem fold_node (cls : SMTClass) (es : List (IndexedExpr S)) :
    (IndexedExpr.node cls es).fold leaf node = node cls (es.map (fold leaf node)) := by
  rw [fold, foldList_eq_map]

end Fold

end IndexedExpr

/-! ## Printing -/

/-- An S-expression of parts. -/
def sexp (parts : List Line) : Line := '(' :: ([' '].intercalate parts ++ [')'])

/-- `<<` of an `int`. -/
def printInt (n : Int) : Line := if n < 0 then '-' :: toDec n.natAbs else toDec n.natAbs

section Print

variable (decl : S → SigDecl) (name : S → Line)

def SMTNumber.print (n : SMTNumber) : Line :=
  if n.valueBin.length % 4 ≠ 0 then '0' :: 'b' :: n.valueBin
  else '0' :: 'h' :: valueHex n.valueBin

def SMTSignal.print (sig : SMTSignal S) : Line :=
  if sig.isWhole decl then name sig.parent ++ [' ']
  else sexp ["bv-extract".toList, printInt sig.msb, printInt sig.lsb, name sig.parent ++ [' ']]

def SMTArray.print (arr : SMTArray S) : Line :=
  if arr.isIndexTerm then sexp [[], name arr.parent, name arr.indexTerm, []]
  else name arr.parent ++ ' ' :: (toDec arr.arrayIndex ++ [' '])

/-- `print` of a leaf; `SMTUnspecified` ends the program after it. -/
def SMTLeaf.print : SMTLeaf S → Line
  | .string str => str.toList
  | .unspecified => "_UNSPECIFIED_".toList
  | .number n => n.print
  | .signal sig => sig.print decl name
  | .array arr => arr.print name

/-- `print` of an `SMTConcat` from the prints of its `expr_list`. -/
def printConcat (rep : Nat) (es : List Line) : Line :=
  let body := if es.length = 1 then es.flatten else sexp ("bv-concat".toList :: es)
  if rep ≠ 1 then sexp ["bv-repeat".toList, body, toDec rep] else body

def CustOperand.text : CustOperand → Line
  | .and => "and".toList
  | .ne => "/=".toList
  | .true => "true".toList

def CustOperand.print (operand : CustOperand) (es : List Line) : Line :=
  if es.isEmpty then operand.text else sexp (operand.text :: es)

def SMTUnary.print (u : SMTUnary) (es : List Line) : Line :=
  let body := sexp (u.opcode.toList :: es)
  if u.isInverted then sexp ["bv-not".toList, body] else body

def SMTBinary.print (b : SMTBinary) (es : List Line) : Line :=
  let body := sexp (b.opcode.toList :: es)
  let body := if b.isBool then sexp ["bool-to-bv".toList, body] else body
  if b.isInverted then sexp ["bv-not".toList, body] else body

/-- `SMTLogic::get_opcode`. -/
def SMTLogic.text (l : SMTLogic) : Line :=
  match l.opcode with
  | '&' => if l.isInverted then "bv-nand".toList else "bv-and".toList
  | '|' => if l.isInverted then "bv-nor".toList else "bv-or".toList
  | _ => if l.isInverted then "bv-xnor".toList else "bv-xor".toList

def SMTLogic.print (l : SMTLogic) (es : List Line) : Line := sexp (l.text :: es)

/-- `print` of an `SMTTernary`. -/
def printTernary : List Line → Line
  | [] => []
  | c :: es => sexp ("ite".toList :: sexp [['='], c, ['0', 'b', '1']] :: es)

def SMTClass.print : SMTClass → List Line → Line
  | .concat rep => printConcat rep
  | .custom operand => operand.print
  | .unary u => u.print
  | .binary b => b.print
  | .logic l => l.print
  | .ternary => printTernary

def IndexedExpr.print : IndexedExpr S → Line :=
  fold (fun l _ => l.print decl name) SMTClass.print

/-- `SMTAssign::print`. -/
def printAssign (lval rval : IndexedExpr S) (id : Nat) : Line :=
  sexp ["assert".toList, sexp [['='], lval.print decl name, [], [], rval.print decl name]] ++
    ' ' :: ';' :: (toDec id ++ ['\n'])

/-! ## The words of a print -/

def SMTNumber.words (n : SMTNumber) : List Line := [n.print]

def SMTSignal.words (sig : SMTSignal S) : List Line :=
  if sig.isWhole decl then [name sig.parent]
  else ["bv-extract".toList, printInt sig.msb, printInt sig.lsb, name sig.parent]

def SMTArray.words (arr : SMTArray S) : List Line :=
  name arr.parent ::
    if arr.isIndexTerm then [name arr.indexTerm] else [toDec arr.arrayIndex]

def SMTLeaf.words : SMTLeaf S → List Line
  | .string str => [str.toList]
  | .unspecified => ["_UNSPECIFIED_".toList]
  | .number n => n.words
  | .signal sig => sig.words decl name
  | .array arr => arr.words name

def concatWords (rep count : Nat) : List Line :=
  (if count = 1 then [] else ["bv-concat".toList]) ++
    if rep ≠ 1 then ["bv-repeat".toList, toDec rep] else []

def SMTUnary.words (u : SMTUnary) : List Line :=
  u.opcode.toList :: if u.isInverted then ["bv-not".toList] else []

def SMTBinary.words (b : SMTBinary) : List Line :=
  b.opcode.toList :: ((if b.isBool then ["bool-to-bv".toList] else []) ++
    if b.isInverted then ["bv-not".toList] else [])

def ternaryWords (count : Nat) : List Line :=
  if count = 0 then [] else ["ite".toList, ['='], ['0', 'b', '1']]

/-- The words that a node prints besides those of its operands. -/
def SMTClass.words (cls : SMTClass) (count : Nat) : List Line :=
  match cls with
  | .concat rep => concatWords rep count
  | .custom operand => [operand.text]
  | .unary u => u.words
  | .binary b => b.words
  | .logic l => [l.text]
  | .ternary => ternaryWords count

/-- The words that an expression prints; those of its indices are none of them. -/
def IndexedExpr.words : IndexedExpr S → List Line :=
  fold (fun l _ => l.words decl name) fun cls es => cls.words es.length ++ es.flatten

/-- The words that a record prints. -/
def assignWords (lval rval : IndexedExpr S) (id : Nat) : List Line :=
  ["assert".toList, ['='], toDec id] ++ lval.words decl name ++ rval.words decl name

end Print

/-! ## A name in a print -/

/-- A name that no blank, parenthesis or semicolon splits, as any identifier. -/
structure IsWord (pat : Line) : Prop where
  ne_nil : pat ≠ []
  blank : ' ' ∉ pat
  opening : '(' ∉ pat
  closing : ')' ∉ pat
  semicolon : ';' ∉ pat
  newline : '\n' ∉ pat

/-- The name is part of one of the words. -/
def OccursIn (pat : Line) (words : List Line) : Prop := ∃ w ∈ words, pat <:+: w

section Occurs

variable {pat : Line}

theorem occursIn_append {ws ws' : List Line} :
    OccursIn pat (ws ++ ws') ↔ OccursIn pat ws ∨ OccursIn pat ws' := by
  simp only [OccursIn, List.mem_append, or_and_right, exists_or]

theorem occursIn_cons {w : Line} {ws : List Line} :
    OccursIn pat (w :: ws) ↔ pat <:+: w ∨ OccursIn pat ws := by
  simp [OccursIn]

theorem occursIn_nil : ¬ OccursIn pat [] := by
  simp [OccursIn]

theorem occursIn_flatten {wss : List (List Line)} :
    OccursIn pat wss.flatten ↔ ∃ ws ∈ wss, OccursIn pat ws := by
  simp only [OccursIn, List.mem_flatten]
  constructor
  · rintro ⟨w, ⟨ws, hws, hw⟩, h⟩
    exact ⟨ws, hws, w, hw, h⟩
  · rintro ⟨ws, hws, w, hw, h⟩
    exact ⟨w, ⟨ws, hws, hw⟩, h⟩

variable (hpat : IsWord pat)

include hpat

theorem IsWord.infix_sexp (parts : List Line) : pat <:+: sexp parts ↔ OccursIn pat parts := by
  have hopen := infix_append_sep (l := []) (r := [' '].intercalate parts ++ [')']) hpat.opening
    hpat.ne_nil
  have hclose := infix_append_sep (l := [' '].intercalate parts) (r := []) hpat.closing
    hpat.ne_nil
  rw [List.nil_append, List.infix_nil, or_iff_right hpat.ne_nil] at hopen
  rw [List.infix_nil, or_iff_left hpat.ne_nil] at hclose
  exact hopen.trans (hclose.trans (infix_intercalate_iff hpat.blank hpat.ne_nil))

theorem IsWord.infix_blank (w : Line) : pat <:+: w ++ [' '] ↔ pat <:+: w := by
  rw [infix_append_sep hpat.blank hpat.ne_nil, List.infix_nil, or_iff_left hpat.ne_nil]

theorem IsWord.not_infix_nil : ¬ pat <:+: [] := fun h => hpat.ne_nil (List.infix_nil.mp h)

/-- The texts hold the name where their words do. -/
def PrintsWords (pat : Line) (texts : List Line) (wss : List (List Line)) : Prop :=
  List.Forall₂ (fun text ws => pat <:+: text ↔ OccursIn pat ws) texts wss

omit hpat in
theorem PrintsWords.occursIn {texts : List Line} {wss : List (List Line)}
    (h : PrintsWords pat texts wss) :
    OccursIn pat texts ↔ OccursIn pat wss.flatten := by
  rw [occursIn_flatten]
  induction h with
  | nil => simp [OccursIn]
  | cons hhead _ ih =>
      rw [occursIn_cons, ih, hhead]
      simp

omit hpat in
theorem occursIn_singleton (w : Line) : OccursIn pat [w] ↔ pat <:+: w := by
  rw [occursIn_cons, or_iff_left occursIn_nil]

theorem SMTSignal.infix_print (decl : S → SigDecl) (name : S → Line) (sig : SMTSignal S) :
    pat <:+: sig.print decl name ↔ OccursIn pat (sig.words decl name) := by
  unfold SMTSignal.print SMTSignal.words
  split
  · rw [occursIn_singleton]
    exact hpat.infix_blank _
  · rw [hpat.infix_sexp]
    simp only [occursIn_cons, hpat.infix_blank]

theorem SMTArray.infix_print (name : S → Line) (arr : SMTArray S) :
    pat <:+: arr.print name ↔ OccursIn pat (arr.words name) := by
  unfold SMTArray.print SMTArray.words
  split
  · rw [hpat.infix_sexp]
    simp only [occursIn_cons, hpat.not_infix_nil, occursIn_nil, false_or, or_false]
  · rw [infix_append_sep hpat.blank hpat.ne_nil, hpat.infix_blank]
    simp only [occursIn_cons, occursIn_nil, or_false]

theorem SMTLeaf.infix_print (decl : S → SigDecl) (name : S → Line) (l : SMTLeaf S) :
    pat <:+: l.print decl name ↔ OccursIn pat (l.words decl name) := by
  cases l with
  | string str => exact (occursIn_singleton _).symm
  | unspecified => exact (occursIn_singleton _).symm
  | number n => exact (occursIn_singleton _).symm
  | signal sig => exact SMTSignal.infix_print hpat decl name sig
  | array arr => exact SMTArray.infix_print hpat name arr

theorem infix_printConcat (rep : Nat) (texts : List Line) :
    pat <:+: printConcat rep texts ↔
      OccursIn pat (concatWords rep texts.length) ∨ OccursIn pat texts := by
  have hbody : (pat <:+: if texts.length = 1 then texts.flatten
        else sexp ("bv-concat".toList :: texts)) ↔
      OccursIn pat (if texts.length = 1 then [] else ["bv-concat".toList]) ∨
        OccursIn pat texts := by
    split
    · -- one operand is printed as it is
      rename_i hone
      obtain ⟨text, rfl⟩ := List.length_eq_one_iff.mp hone
      simp [OccursIn]
    · rw [hpat.infix_sexp, occursIn_cons, occursIn_singleton]
  unfold printConcat concatWords
  dsimp only
  rw [occursIn_append]
  by_cases hrep : rep ≠ 1
  · rw [if_pos hrep, if_pos hrep, hpat.infix_sexp]
    simp only [occursIn_cons, occursIn_nil, or_false, hbody]
    tauto
  · rw [if_neg hrep, if_neg hrep, hbody, or_iff_left occursIn_nil]

theorem CustOperand.infix_print (operand : CustOperand) (texts : List Line) :
    pat <:+: operand.print texts ↔ pat <:+: operand.text ∨ OccursIn pat texts := by
  unfold CustOperand.print
  split
  · rename_i hnil
    rw [List.isEmpty_iff.mp hnil, or_iff_left occursIn_nil]
  · rw [hpat.infix_sexp, occursIn_cons]

/-- A wrapper around a print adds its word. -/
theorem IsWord.infix_wrap (wrapped : Bool) (word body : Line) :
    (pat <:+: if wrapped then sexp [word, body] else body) ↔
      OccursIn pat (if wrapped then [word] else []) ∨ pat <:+: body := by
  cases wrapped with
  | true =>
      rw [if_pos rfl, if_pos rfl, hpat.infix_sexp, occursIn_cons, occursIn_singleton,
        occursIn_singleton]
  | false =>
      rw [if_neg Bool.false_ne_true, if_neg Bool.false_ne_true, or_iff_right occursIn_nil]

theorem SMTUnary.infix_print (u : SMTUnary) (texts : List Line) :
    pat <:+: u.print texts ↔ OccursIn pat u.words ∨ OccursIn pat texts := by
  unfold SMTUnary.print SMTUnary.words
  dsimp only
  rw [hpat.infix_wrap, hpat.infix_sexp, occursIn_cons, occursIn_cons]
  tauto

theorem SMTBinary.infix_print (b : SMTBinary) (texts : List Line) :
    pat <:+: b.print texts ↔ OccursIn pat b.words ∨ OccursIn pat texts := by
  unfold SMTBinary.print SMTBinary.words
  dsimp only
  rw [hpat.infix_wrap, hpat.infix_wrap, hpat.infix_sexp, occursIn_cons, occursIn_cons,
    occursIn_append]
  tauto

theorem infix_printTernary (texts : List Line) :
    pat <:+: printTernary texts ↔
      OccursIn pat (ternaryWords texts.length) ∨ OccursIn pat texts := by
  cases texts with
  | nil =>
      refine iff_of_false hpat.not_infix_nil ?_
      rintro (h | h)
      · exact occursIn_nil h
      · exact occursIn_nil h
  | cons c texts =>
      unfold printTernary ternaryWords
      rw [if_neg (by rw [List.length_cons]; omega)]
      simp only [hpat.infix_sexp, occursIn_cons, occursIn_nil, or_false]
      tauto

theorem SMTClass.infix_print (cls : SMTClass) {texts : List Line} {wss : List (List Line)}
    (h : PrintsWords pat texts wss) :
    pat <:+: cls.print texts ↔ OccursIn pat (cls.words wss.length ++ wss.flatten) := by
  have hlength : texts.length = wss.length := List.Forall₂.length_eq h
  rw [occursIn_append, ← h.occursIn, ← hlength]
  cases cls with
  | concat rep => exact infix_printConcat hpat rep texts
  | custom operand =>
      rw [show SMTClass.words (.custom operand) texts.length = [operand.text] from rfl,
        occursIn_singleton]
      exact operand.infix_print hpat texts
  | unary u => exact u.infix_print hpat texts
  | binary b => exact b.infix_print hpat texts
  | logic l =>
      rw [show SMTClass.words (.logic l) texts.length = [l.text] from rfl, occursIn_singleton,
        ← occursIn_cons]
      exact hpat.infix_sexp _
  | ternary => exact infix_printTernary hpat texts

/-- **Words.** The print of an expression holds the name where a word of it does. -/
theorem IndexedExpr.infix_print (decl : S → SigDecl) (name : S → Line) (e : IndexedExpr S) :
    pat <:+: e.print decl name ↔ OccursIn pat (e.words decl name) := by
  induction e using IndexedExpr.induct with
  | hleaf l index ih =>
      rw [print, words, fold_leaf, fold_leaf]
      exact SMTLeaf.infix_print hpat decl name l
  | hnode cls es ih =>
      have hprints : PrintsWords pat (es.map (IndexedExpr.print decl name))
          (es.map (IndexedExpr.words decl name)) := by
        unfold PrintsWords
        rw [List.forall₂_map_left_iff, List.forall₂_map_right_iff]
        exact List.forall₂_same.mpr ih
      rw [print, words, fold_node, fold_node]
      exact SMTClass.infix_print hpat cls hprints

theorem infix_printAssign (decl : S → SigDecl) (name : S → Line) (lval rval : IndexedExpr S)
    (id : Nat) : pat <:+: printAssign decl name lval rval id ↔
      OccursIn pat (assignWords decl name lval rval id) := by
  have hend : pat <:+: ';' :: (toDec id ++ ['\n']) ↔ pat <:+: toDec id := by
    have hsemi := infix_append_sep (l := []) (r := toDec id ++ ['\n']) hpat.semicolon hpat.ne_nil
    rw [List.nil_append, List.infix_nil, or_iff_right hpat.ne_nil] at hsemi
    rw [hsemi, infix_append_sep hpat.newline hpat.ne_nil, List.infix_nil,
      or_iff_left hpat.ne_nil]
  unfold printAssign assignWords
  rw [infix_append_sep hpat.blank hpat.ne_nil, hend]
  simp only [hpat.infix_sexp, occursIn_append, occursIn_cons, occursIn_nil, or_false,
    hpat.not_infix_nil, false_or, IndexedExpr.infix_print hpat]
  tauto

end Occurs

/-! ## Mentions -/

section Mentions

variable [DecidableEq S]

/-- The leaf is the signal, or an element of an array that it indexes. -/
def SMTLeaf.isSignal (r : S) : SMTLeaf S → Bool
  | .signal sig => sig.parent = r
  | .array arr => arr.parent = r || (arr.isIndexTerm && arr.indexTerm = r)
  | _ => false

/-- The signal is mentioned, in an index or outside of one. -/
def IndexedExpr.mentions (r : S) : IndexedExpr S → Bool :=
  fold (fun l index => l.isSignal r || index.any id) fun _ es => es.any id

/-- The signal is mentioned outside of all indices. -/
def IndexedExpr.mentionsOutside (r : S) : IndexedExpr S → Bool :=
  fold (fun l _ => l.isSignal r) fun _ es => es.any id

/-- The name of a signal that a leaf is. -/
theorem SMTLeaf.mem_words (decl : S → SigDecl) (name : S → Line) {r : S} {l : SMTLeaf S}
    (h : l.isSignal r = true) : name r ∈ l.words decl name := by
  cases l with
  | string str => cases h
  | unspecified => cases h
  | number n => cases h
  | signal sig =>
      obtain rfl : sig.parent = r := of_decide_eq_true h
      show _ ∈ SMTSignal.words decl name sig
      unfold SMTSignal.words
      split <;> simp
  | array arr =>
      show _ ∈ SMTArray.words name arr
      unfold SMTArray.words
      simp only [isSignal, Bool.or_eq_true, Bool.and_eq_true, decide_eq_true_eq] at h
      rcases h with rfl | ⟨hterm, rfl⟩
      · exact List.mem_cons_self
      · rw [if_pos hterm]
        exact List.mem_cons_of_mem _ List.mem_cons_self

/-- A mention outside of the indices is printed. -/
theorem IndexedExpr.mem_words (decl : S → SigDecl) (name : S → Line) {r : S} (e : IndexedExpr S)
    (h : e.mentionsOutside r = true) : name r ∈ e.words decl name := by
  induction e using IndexedExpr.induct with
  | hleaf l index ih =>
      rw [mentionsOutside, fold_leaf] at h
      rw [words, fold_leaf]
      exact SMTLeaf.mem_words decl name h
  | hnode cls es ih =>
      rw [mentionsOutside, fold_node, List.any_map, List.any_eq_true] at h
      obtain ⟨e, he, hmention⟩ := h
      rw [words, fold_node]
      refine List.mem_append_right _ (List.mem_flatten.mpr ⟨e.words decl name, ?_, ?_⟩)
      · exact List.mem_map.mpr ⟨e, he, rfl⟩
      · exact ih e he hmention

/-! ## What is skipped -/

variable (decl : S → SigDecl) (name : S → Line) (opts : Options)

/-- The record is left out just when one of its sides mentions the signal. -/
def SkipsMentions (r : S) (lval rval : IndexedExpr S) (id : Nat) : Prop :=
  skipAssign opts (printAssign decl name lval rval id) = true ↔
    lval.mentions r = true ∨ rval.mentions r = true

/-- A record that mentions the signal does so outside of an index, or prints its
name by chance; one that does not has the name in no word. -/
def NameTells (r : S) (lval rval : IndexedExpr S) (id : Nat) : Prop :=
  if lval.mentions r ∨ rval.mentions r then
    (lval.mentionsOutside r ∨ rval.mentionsOutside r) ∨
      OccursIn (name r) (assignWords decl name lval rval id)
  else ¬ OccursIn (name r) (assignWords decl name lval rval id)

/-- **What `skip_assign` skips.** For a reset signal whose name is a word, a
record is left out of the instrumentation just when it mentions the signal, if
and only if a mention is one outside of the indices (or the name is part of
another word that is printed) and, without a mention, the name is part of no
word. -/
theorem skipAssign_exact_iff {r : S} (hreset : opts.resetSigName = name r)
    (hword : IsWord (name r)) (lval rval : IndexedExpr S) (id : Nat) :
    SkipsMentions decl name opts r lval rval id ↔ NameTells decl name r lval rval id := by
  have hskip : skipAssign opts (printAssign decl name lval rval id) = true ↔
      OccursIn (name r) (assignWords decl name lval rval id) := by
    rw [skipAssign, hreset, find_isSome_iff]
    exact infix_printAssign hword decl name lval rval id
  have hprinted : lval.mentionsOutside r = true ∨ rval.mentionsOutside r = true →
      OccursIn (name r) (assignWords decl name lval rval id) := by
    intro h
    unfold assignWords
    rw [occursIn_append, occursIn_append]
    rcases h with h | h
    · exact .inl (.inr ⟨name r, lval.mem_words decl name h, List.infix_rfl⟩)
    · exact .inr ⟨name r, rval.mem_words decl name h, List.infix_rfl⟩
  unfold SkipsMentions NameTells
  rw [hskip]
  split
  · rename_i hmention
    rw [iff_true_right hmention]
    constructor
    · intro hoccurs
      exact .inr hoccurs
    · rintro (hmention | hoccurs)
      · exact hprinted hmention
      · exact hoccurs
  · rename_i hmention
    rw [iff_false_right hmention]

end Mentions

/-! ## A name within a name -/

/-- The reset `rst`, and a register `first`. -/
inductive ResetSig where
  | rst | first
  deriving DecidableEq

def ResetSig.name : ResetSig → Line
  | .rst => ['r', 's', 't']
  | .first => ['f', 'i', 'r', 's', 't']

def resetDecl : ResetSig → SigDecl := fun _ => ⟨1, false, 1⟩

/-- A whole signal of one bit. -/
def ResetSig.expr (s : ResetSig) : IndexedExpr ResetSig := .leaf (.signal ⟨s, 0, 0, false⟩) []

def bitOne : IndexedExpr ResetSig := .leaf (.number ⟨['1']⟩) []

theorem isWord_rst : IsWord ResetSig.rst.name where
  ne_nil := by decide
  blank := by decide
  opening := by decide
  closing := by decide
  semicolon := by decide
  newline := by decide

/-- `first <= rst` mentions the reset, and is left out. -/
theorem rst_tells_iff :
    (SkipsMentions resetDecl ResetSig.name elseOptions .rst ResetSig.first.expr
        ResetSig.rst.expr 0 ↔
      NameTells resetDecl ResetSig.name .rst ResetSig.first.expr ResetSig.rst.expr 0) ∧
    NameTells resetDecl ResetSig.name .rst ResetSig.first.expr ResetSig.rst.expr 0 := by
  have hreset : elseOptions.resetSigName = ResetSig.name .rst := rfl
  refine ⟨skipAssign_exact_iff resetDecl ResetSig.name elseOptions hreset isWord_rst
    ResetSig.first.expr ResetSig.rst.expr 0, ?_⟩
  unfold NameTells
  rw [if_pos (by decide)]
  exact .inl (by decide)

/-- `first <= 1` does not mention the reset, and is left out as well. -/
theorem first_skipped :
    skipAssign elseOptions (printAssign resetDecl ResetSig.name ResetSig.first.expr bitOne 0) =
        true ∧
      ResetSig.first.expr.mentions .rst = false ∧ bitOne.mentions ResetSig.rst = false ∧
      ¬ SkipsMentions resetDecl ResetSig.name elseOptions .rst ResetSig.first.expr bitOne 0 := by
  have hskip : skipAssign elseOptions
      (printAssign resetDecl ResetSig.name ResetSig.first.expr bitOne 0) = true := by
    decide +kernel
  have hfirst : ResetSig.first.expr.mentions ResetSig.rst = false := by decide
  have hone : bitOne.mentions ResetSig.rst = false := by decide
  refine ⟨hskip, hfirst, hone, fun h => ?_⟩
  rcases h.mp hskip with hmention | hmention
  · rw [hfirst] at hmention
    cases hmention
  · rw [hone] at hmention
    cases hmention

end Conquest
