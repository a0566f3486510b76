import Mathlib.Data.List.Basic
import Mathlib.Logic.Function.Basic

/-!
# Bv — terms of a bit-vector solver and their values

Well-typed terms over booleans, bit-vectors of every width and functions
between bit-vectors, with their values under a valuation of the variables. The
functions of a solver's C interface work on untyped handles and return the null
term when the types do not fit: `TermT` is such a handle, and `mk…` are the
typed constructors with that check in front.
-/

namespace Bv

/-! ## Types and values -/

inductive Ty where
  | bool
  | bv (w : Nat)
  | fn (dom cod : Nat)
  deriving DecidableEq, Repr

/-- The values of a type. -/
abbrev Ty.Carrier : Ty → Type
  | .bool => Bool
  | .bv w => BitVec w
  | .fn d c => BitVec d → BitVec c

/-- Functions between bit-vectors are compared argument by argument. -/
instance decidableEqFn (d c : Nat) : DecidableEq (BitVec d → BitVec c) := fun f g =>
  decidable_of_iff (∀ i, f (BitVec.ofFin i) = g (BitVec.ofFin i))
    ⟨fun h => funext fun x => h x.toFin, fun h _ => h ▸ rfl⟩

instance Ty.decidableEqCarrier : (τ : Ty) → DecidableEq τ.Carrier
  | .bool => inferInstanceAs (DecidableEq Bool)
  | .bv w => inferInstanceAs (DecidableEq (BitVec w))
  | .fn d c => inferInstanceAs (DecidableEq (BitVec d → BitVec c))

/-- Functions from a bit-vector to one of the same width. -/
inductive Op1 where
  | neg | not
  deriving DecidableEq, Repr

/-- Reductions to one bit. -/
inductive Red where
  | and | or
  deriving DecidableEq, Repr

/-- Functions from two bit-vectors of one width to a third. -/
inductive Op2 where
  | add | sub | mul | sdiv | srem | and | or | xor | nand | nor | xnor | shl | lshr | ashr
  deriving DecidableEq, Repr

/-- Comparisons of two bit-vectors of one width. -/
inductive Rel where
  | slt | lt | sle | le | sgt | gt | sge | ge
  deriving DecidableEq, Repr

def Op1.apply {w : Nat} : Op1 → BitVec w → BitVec w
  | .neg, a => -a
  | .not, a => ~~~a

def Red.apply {w : Nat} : Red → BitVec w → BitVec 1
  | .and, a => BitVec.ofBool (a = BitVec.allOnes w)
  | .or, a => BitVec.ofBool (a ≠ 0)

/-- Division by zero is as in SMT-LIB. -/
def Op2.apply {w : Nat} : Op2 → BitVec w → BitVec w → BitVec w
  | .add, a, b => a + b
  | .sub, a, b => a - b
  | .mul, a, b => a * b
  | .sdiv, a, b => a.smtSDiv b
  | .srem, a, b => a.srem b
  | .and, a, b => a &&& b
  | .or, a, b => a ||| b
  | .xor, a, b => a ^^^ b
  | .nand, a, b => ~~~(a &&& b)
  | .nor, a, b => ~~~(a ||| b)
  | .xnor, a, b => ~~~(a ^^^ b)
  | .shl, a, b => a <<< b.toNat
  | .lshr, a, b => a >>> b.toNat
  | .ashr, a, b => a.sshiftRight b.toNat

def Rel.holds {w : Nat} : Rel → BitVec w → BitVec w → Bool
  | .slt, a, b => a.slt b
  | .lt, a, b => a.ult b
  | .sle, a, b => a.sle b
  | .le, a, b => a.ule b
  | .sgt, a, b => b.slt a
  | .gt, a, b => b.ult a
  | .sge, a, b => b.sle a
  | .ge, a, b => b.ule a

/-! ## Terms -/

/-- A valuation gives every variable of every type a value. -/
abbrev Valuation := (τ : Ty) → Nat → τ.Carrier

/-- Every variable zero. -/
def Valuation.zero : Valuation
  | .bool, _ => false
  | .bv _, _ => 0
  | .fn _ _, _ => fun _ => 0

inductive Term : Ty → Type
  | var (τ : Ty) (id : Nat) : Term τ
  | bool (b : Bool) : Term .bool
  | const {w : Nat} (x : BitVec w) : Term (.bv w)
  | not (a : Term .bool) : Term .bool
  | and (a b : Term .bool) : Term .bool
  | eq {τ : Ty} (a b : Term τ) : Term .bool
  | ite {τ : Ty} (c : Term .bool) (a b : Term τ) : Term τ
  | op1 {w : Nat} (f : Op1) (a : Term (.bv w)) : Term (.bv w)
  | op2 {w : Nat} (f : Op2) (a b : Term (.bv w)) : Term (.bv w)
  | red {w : Nat} (f : Red) (a : Term (.bv w)) : Term (.bv 1)
  | rel {w : Nat} (f : Rel) (a b : Term (.bv w)) : Term .bool
  | comp {w : Nat} (a b : Term (.bv w)) : Term (.bv 1)
  | ofBool (a : Term .bool) : Term (.bv 1)
  | extract {w : Nat} (lo len : Nat) (a : Term (.bv w)) : Term (.bv len)
  | concat {w v : Nat} (a : Term (.bv w)) (b : Term (.bv v)) : Term (.bv (w + v))
  | rep {w : Nat} (n : Nat) (a : Term (.bv w)) : Term (.bv (w * n))
  | zeroExtend {w : Nat} (n : Nat) (a : Term (.bv w)) : Term (.bv (w + n))
  | app {d c : Nat} (f : Term (.fn d c)) (i : Term (.bv d)) : Term (.bv c)
  | update {d c : Nat} (f : Term (.fn d c)) (i : Term (.bv d)) (x : Term (.bv c)) :
      Term (.fn d c)

/-- The value of a term. -/
@[simp] def Term.eval (ρ : Valuation) : {τ : Ty} → Term τ → τ.Carrier
  | _, .var τ id => ρ τ id
  | _, .bool b => b
  | _, .const x => x
  | _, .not a => !(a.eval ρ)
  | _, .and a b => a.eval ρ && b.eval ρ
  | _, .eq a b => decide (a.eval ρ = b.eval ρ)
  | _, .ite c a b => if c.eval ρ then a.eval ρ else b.eval ρ
  | _, .op1 f a => f.apply (a.eval ρ)
  | _, .op2 f a b => f.apply (a.eval ρ) (b.eval ρ)
  | _, .red f a => f.apply (a.eval ρ)
  | _, .rel f a b => f.holds (a.eval ρ) (b.eval ρ)
  | _, .comp a b => BitVec.ofBool (decide (a.eval ρ = b.eval ρ))
  | _, .ofBool a => BitVec.ofBool (a.eval ρ)
  | _, .extract lo len a => (a.eval ρ).extractLsb' lo len
  | _, .concat a b => a.eval ρ ++ b.eval ρ
  | _, .rep n a => (a.eval ρ).replicate n
  | _, .zeroExtend n a => (a.eval ρ).setWidth _
  | _, .app f i => f.eval ρ (i.eval ρ)
  | _, .update f i x => Function.update (f.eval ρ) (i.eval ρ) (x.eval ρ)

/-! ## Handles -/

/-- A handle of the solver's interface; `none` is the null term. -/
abbrev TermT := Option (Sigma Term)

/-- The value of a handle, with its type. -/
def denote (ρ : Valuation) (t : TermT) : Option (Sigma Ty.Carrier) :=
  t.map fun s => ⟨s.1, s.2.eval ρ⟩

/-- The handle is a bit-vector term with the value `x`. -/
def Denotes {w : Nat} (ρ : Valuation) (t : TermT) (x : BitVec w) : Prop :=
  denote ρ t = some ⟨.bv w, x⟩

/-- The handle is a formula that holds. -/
def Holds (ρ : Valuation) (t : TermT) : Prop := denote ρ t = some ⟨.bool, true⟩

/-! ## Checked constructors -/

def mkVar (τ : Ty) (id : Nat) : TermT := some ⟨τ, .var τ id⟩

def mkBool (b : Bool) : TermT := some ⟨.bool, .bool b⟩

def mkConst {w : Nat} (x : BitVec w) : TermT := some ⟨.bv w, .const x⟩

def mkNot : TermT → TermT
  | some ⟨.bool, a⟩ => some ⟨.bool, .not a⟩
  | _ => none

def mkAnd2 : TermT → TermT → TermT
  | some ⟨.bool, a⟩, some ⟨.bool, b⟩ => some ⟨.bool, .and a b⟩
  | _, _ => none

/-- The conjunction of any number of formulas; of none, true. -/
def mkAnd (ts : List TermT) : TermT := ts.foldr mkAnd2 (mkBool true)

def mkEq : TermT → TermT → TermT
  | some ⟨τ, a⟩, some ⟨σ, b⟩ => if h : σ = τ then some ⟨.bool, .eq a (h ▸ b)⟩ else none
  | _, _ => none

def mkNeq (s t : TermT) : TermT := mkNot (mkEq s t)

def mkIte : TermT → TermT → TermT → TermT
  | some ⟨.bool, c⟩, some ⟨τ, a⟩, some ⟨σ, b⟩ =>
      if h : σ = τ then some ⟨τ, .ite c a (h ▸ b)⟩ else none
  | _, _, _ => none

/-- A function of a bit-vector term. -/
def onBv (k : {w : Nat} → Term (.bv w) → TermT) : TermT → TermT
  | some ⟨.bv _, a⟩ => k a
  | _ => none

/-- A function of two bit-vector terms of one width. -/
def onBv2 (k : {w : Nat} → Term (.bv w) → Term (.bv w) → TermT) : TermT → TermT → TermT
  | some ⟨.bv w, a⟩, some ⟨.bv v, b⟩ => if h : v = w then k a (h ▸ b) else none
  | _, _ => none

def mkOp1 (f : Op1) : TermT → TermT := onBv fun a => some ⟨_, .op1 f a⟩

def mkRed (f : Red) : TermT → TermT := onBv fun a => some ⟨_, .red f a⟩

def mkOp2 (f : Op2) : TermT → TermT → TermT := onBv2 fun a b => some ⟨_, .op2 f a b⟩

def mkRel (f : Rel) : TermT → TermT → TermT := onBv2 fun a b => some ⟨_, .rel f a b⟩

def mkComp : TermT → TermT → TermT := onBv2 fun a b => some ⟨_, .comp a b⟩

def mkOfBool : TermT → TermT
  | some ⟨.bool, a⟩ => some ⟨.bv 1, .ofBool a⟩
  | _ => none

/-- Bits `lo` to `hi`, which the argument must have. -/
def mkExtract (lo hi : Nat) : TermT → TermT :=
  onBv fun {w} a =>
    if lo ≤ hi ∧ hi < w then some ⟨_, .extract lo (hi - lo + 1) a⟩ else none

def mkConcat2 : TermT → TermT → TermT
  | some ⟨.bv w, a⟩, some ⟨.bv v, b⟩ => some ⟨.bv (w + v), .concat a b⟩
  | _, _ => none

/-- The concatenation of one or more terms, the first one leftmost. -/
def mkConcat : List TermT → TermT
  | [] => none
  | t :: ts => ts.foldl mkConcat2 t

def mkRep (n : Nat) : TermT → TermT :=
  onBv fun a => if 0 < n then some ⟨_, .rep n a⟩ else none

def mkZeroExtend (n : Nat) : TermT → TermT := onBv fun a => some ⟨_, .zeroExtend n a⟩

def mkApp : TermT → TermT → TermT
  | some ⟨.fn d _, f⟩, some ⟨.bv w, i⟩ =>
      if h : w = d then some ⟨.bv _, .app f (h ▸ i)⟩ else none
  | _, _ => none

def mkUpdate : TermT → TermT → TermT → TermT
  | some ⟨.fn d c, f⟩, some ⟨.bv w, i⟩, some ⟨.bv v, x⟩ =>
      if h : w = d ∧ v = c then some ⟨.fn d c, .update f (h.1 ▸ i) (h.2 ▸ x)⟩ else none
  | _, _, _ => none

/-! ## Values of well-typed handles -/

theorem denote_some (ρ : Valuation) {τ : Ty} (a : Term τ) :
    denote ρ (some ⟨τ, a⟩) = some ⟨τ, a.eval ρ⟩ := rfl

theorem Denotes.exists_term {ρ : Valuation} {t : TermT} {w : Nat} {x : BitVec w}
    (h : Denotes ρ t x) : ∃ a : Term (.bv w), t = some ⟨.bv w, a⟩ ∧ a.eval ρ = x := by
  unfold Denotes denote at h
  obtain ⟨⟨τ, a⟩, rfl, heq⟩ := Option.map_eq_some_iff.mp h
  cases heq
  exact ⟨a, rfl, rfl⟩

/-- An equality holds between handles of one type and one value. -/
theorem holds_mkEq_iff {ρ : Valuation} {s t : TermT} :
    Holds ρ (mkEq s t) ↔ denote ρ s = denote ρ t ∧ (denote ρ s).isSome := by
  rcases s with _ | ⟨τ, a⟩
  · simp [mkEq, Holds, denote]
  rcases t with _ | ⟨σ, b⟩
  · simp [mkEq, Holds, denote]
  by_cases hτ : σ = τ
  · subst hτ
    simp [mkEq, Holds, denote]
  · have hτ' : τ ≠ σ := fun h => hτ h.symm
    simp [mkEq, Holds, denote, hτ, hτ']

theorem holds_mkAnd2_iff {ρ : Valuation} {s t : TermT} :
    Holds ρ (mkAnd2 s t) ↔ Holds ρ s ∧ Holds ρ t := by
  rcases s with _ | ⟨τ, a⟩
  · simp [mkAnd2, Holds, denote]
  rcases t with _ | ⟨σ, b⟩
  · cases τ <;> simp [mkAnd2, Holds, denote]
  · cases τ <;> cases σ <;> simp [mkAnd2, Holds, denote]

theorem holds_foldl_mkAnd2_iff {ρ : Valuation} {α : Type} {f : α → TermT} {t : TermT}
    {xs : List α} :
    Holds ρ (xs.foldl (fun acc x => mkAnd2 acc (f x)) t) ↔
      Holds ρ t ∧ ∀ x ∈ xs, Holds ρ (f x) := by
  induction xs generalizing t with
  | nil => simp
  | cons x xs ih =>
      rw [List.foldl_cons, ih, holds_mkAnd2_iff]
      simp [and_assoc]

/-- An equality needs operands of one type. -/
theorem mkEq_isSome_iff {t u : TermT} :
    (mkEq t u).isSome ↔ ∃ τ, ∃ a b : Term τ, t = some ⟨τ, a⟩ ∧ u = some ⟨τ, b⟩ := by
  constructor
  · intro h
    rcases t with _ | ⟨τ, a⟩
    · cases h
    rcases u with _ | ⟨υ, b⟩
    · cases h
    by_cases heq : υ = τ
    · subst heq
      exact ⟨υ, a, b, rfl, rfl⟩
    · simp [mkEq, heq] at h
  · rintro ⟨τ, a, b, rfl, rfl⟩
    simp [mkEq]

/-- With a term, the constraint compares the two values. -/
theorem holds_mkEq_of_isSome {ρ : Valuation} {t u : TermT}
    (h : (mkEq t u).isSome) :
    Holds ρ (mkEq t u) ↔ denote ρ u = denote ρ t := by
  obtain ⟨τ, a, b, rfl, rfl⟩ := mkEq_isSome_iff.mp h
  rw [holds_mkEq_iff, eq_comm]
  exact and_iff_left rfl

theorem holds_mkNeq_of_isSome {ρ : Valuation} {t u : TermT}
    (h : (mkEq t u).isSome) :
    Holds ρ (mkNeq t u) ↔ denote ρ u ≠ denote ρ t := by
  obtain ⟨τ, a, b, rfl, rfl⟩ := mkEq_isSome_iff.mp h
  rw [ne_eq, ← holds_mkEq_of_isSome h]
  simp [mkNeq, mkEq, mkNot, Holds, denote]

theorem holds_mkAnd_iff {ρ : Valuation} {ts : List TermT} :
    Holds ρ (mkAnd ts) ↔ ∀ t ∈ ts, Holds ρ t := by
  induction ts with
  | nil => simp [mkAnd, mkBool, Holds, denote]
  | cons t ts ih =>
      rw [mkAnd, List.foldr_cons, holds_mkAnd2_iff, ← mkAnd, ih, List.forall_mem_cons]

/-- A formula compared with `true`. -/
theorem holds_mkEq_true_iff {ρ : Valuation} {t : TermT} :
    Holds ρ (mkEq t (mkBool true)) ↔ Holds ρ t := by
  rw [holds_mkEq_iff]
  constructor
  · exact fun h => h.1
  · intro h
    refine ⟨h, ?_⟩
    rw [Holds] at h
    rw [h]
    rfl

theorem not_denotes_none {ρ : Valuation} {w : Nat} (x : BitVec w) : ¬ Denotes ρ none x :=
  fun h => by cases h

/-- A handle has one value. -/
theorem Denotes.inj {ρ : Valuation} {t : TermT} {w : Nat} {x y : BitVec w}
    (hx : Denotes ρ t x) (hy : Denotes ρ t y) : x = y := by
  unfold Denotes at hx hy
  simpa using hx.symm.trans hy

theorem onBv2_some {k : {w : Nat} → Term (.bv w) → Term (.bv w) → TermT} {w : Nat}
    (a b : Term (.bv w)) : onBv2 k (some ⟨.bv w, a⟩) (some ⟨.bv w, b⟩) = k a b := by
  simp only [onBv2, dif_pos]

/-- The interface refuses operands of different widths. -/
theorem onBv2_eq_none {k : {w : Nat} → Term (.bv w) → Term (.bv w) → TermT} {w v : Nat}
    (a : Term (.bv w)) (b : Term (.bv v)) (h : v ≠ w) :
    onBv2 k (some ⟨.bv w, a⟩) (some ⟨.bv v, b⟩) = none := by
  simp only [onBv2, dif_neg h]

theorem Denotes.op1 {ρ : Valuation} {t : TermT} {w : Nat} {x : BitVec w} (f : Op1)
    (h : Denotes ρ t x) : Denotes ρ (mkOp1 f t) (f.apply x) := by
  obtain ⟨a, rfl, rfl⟩ := h.exists_term
  rfl

theorem Denotes.op2 {ρ : Valuation} {s t : TermT} {w : Nat} {x y : BitVec w} (f : Op2)
    (hs : Denotes ρ s x) (ht : Denotes ρ t y) : Denotes ρ (mkOp2 f s t) (f.apply x y) := by
  obtain ⟨a, rfl, rfl⟩ := hs.exists_term
  obtain ⟨b, rfl, rfl⟩ := ht.exists_term
  rw [mkOp2, onBv2_some]
  rfl

theorem Denotes.comp {ρ : Valuation} {s t : TermT} {w : Nat} {x y : BitVec w}
    (hs : Denotes ρ s x) (ht : Denotes ρ t y) :
    Denotes ρ (mkComp s t) (BitVec.ofBool (decide (x = y))) := by
  obtain ⟨a, rfl, rfl⟩ := hs.exists_term
  obtain ⟨b, rfl, rfl⟩ := ht.exists_term
  rw [mkComp, onBv2_some]
  rfl

/-- A comparison, wrapped into one bit. -/
theorem Denotes.relBit {ρ : Valuation} {s t : TermT} {w : Nat} {x y : BitVec w} (f : Rel)
    (hs : Denotes ρ s x) (ht : Denotes ρ t y) :
    Denotes ρ (mkOfBool (mkRel f s t)) (BitVec.ofBool (f.holds x y)) := by
  obtain ⟨a, rfl, rfl⟩ := hs.exists_term
  obtain ⟨b, rfl, rfl⟩ := ht.exists_term
  rw [mkRel, onBv2_some]
  rfl

theorem Denotes.extract {ρ : Valuation} {t : TermT} {w lo n : Nat} {x : BitVec w}
    (h : Denotes ρ t x) (hlt : lo + n < w) :
    Denotes ρ (mkExtract lo (lo + n) t) (x.extractLsb' lo (n + 1)) := by
  obtain ⟨a, rfl, rfl⟩ := h.exists_term
  rw [mkExtract, onBv, if_pos ⟨Nat.le_add_right lo n, hlt⟩, Nat.add_sub_cancel_left]
  rfl

theorem denotes_const (ρ : Valuation) {w : Nat} (x : BitVec w) : Denotes ρ (mkConst x) x := rfl

theorem Denotes.red {ρ : Valuation} {t : TermT} {w : Nat} {x : BitVec w} (f : Red)
    (h : Denotes ρ t x) : Denotes ρ (mkRed f t) (f.apply x) := by
  obtain ⟨a, rfl, rfl⟩ := h.exists_term
  rfl

theorem Denotes.rep {ρ : Valuation} {t : TermT} {w n : Nat} {x : BitVec w}
    (h : Denotes ρ t x) (hn : 0 < n) : Denotes ρ (mkRep n t) (x.replicate n) := by
  obtain ⟨a, rfl, rfl⟩ := h.exists_term
  rw [mkRep, onBv, if_pos hn]
  rfl

theorem Denotes.concat2 {ρ : Valuation} {s t : TermT} {w v : Nat} {x : BitVec w}
    {y : BitVec v} (hs : Denotes ρ s x) (ht : Denotes ρ t y) :
    Denotes ρ (mkConcat2 s t) (x ++ y) := by
  obtain ⟨a, rfl, rfl⟩ := hs.exists_term
  obtain ⟨b, rfl, rfl⟩ := ht.exists_term
  rfl

theorem Denotes.ite_eq {ρ : Valuation} {c d s t : TermT} {v w : Nat} {i j : BitVec v}
    {x y : BitVec w} (hc : Denotes ρ c i) (hd : Denotes ρ d j) (hs : Denotes ρ s x)
    (ht : Denotes ρ t y) : Denotes ρ (mkIte (mkEq c d) s t) (if i = j then x else y) := by
  obtain ⟨a, rfl, rfl⟩ := hc.exists_term
  obtain ⟨b, rfl, rfl⟩ := hd.exists_term
  obtain ⟨a', rfl, rfl⟩ := hs.exists_term
  obtain ⟨b', rfl, rfl⟩ := ht.exists_term
  simp [mkEq, mkIte, Denotes, denote]

/-- An equality of two bit-vectors. -/
theorem Denotes.holds_mkEq_iff_eq {ρ : Valuation} {s t : TermT} {w : Nat} {x y : BitVec w}
    (hs : Denotes ρ s x) (ht : Denotes ρ t y) : Holds ρ (mkEq s t) ↔ x = y := by
  obtain ⟨a, rfl, rfl⟩ := hs.exists_term
  obtain ⟨b, rfl, rfl⟩ := ht.exists_term
  simp [mkEq, Holds, denote]

/-- A handle has the value at every way of writing its width. -/
theorem Denotes.setWidth {ρ : Valuation} {t : TermT} {w v : Nat} {x : BitVec w}
    (h : Denotes ρ t x) (hw : w = v) : Denotes ρ t (x.setWidth v) := by
  subst hw
  rwa [BitVec.setWidth_eq]

/-- A bit-vector is no formula. -/
theorem not_holds_mkOp2 {ρ : Valuation} {f : Op2} {s t : TermT} : ¬ Holds ρ (mkOp2 f s t) := by
  intro h
  rcases s with _ | ⟨_ | w | ⟨d, c⟩, a⟩
  · cases h
  · cases h
  · rcases t with _ | ⟨_ | v | ⟨d, c⟩, b⟩
    · cases h
    · cases h
    · by_cases hv : v = w
      · subst hv
        rw [mkOp2, onBv2_some] at h
        cases h
      · rw [mkOp2, onBv2_eq_none a b hv] at h
        cases h
    · cases h
  · cases h

theorem Denotes.op2_width {ρ : Valuation} {s t : TermT} {w v u : Nat} {x : BitVec w}
    {y : BitVec v} {z : BitVec u} {f : Op2} (hs : Denotes ρ s x) (ht : Denotes ρ t y)
    (h : Denotes ρ (mkOp2 f s t) z) : v = w := by
  obtain ⟨a, rfl, rfl⟩ := hs.exists_term
  obtain ⟨b, rfl, rfl⟩ := ht.exists_term
  by_contra hne
  rw [mkOp2, onBv2_eq_none a b hne] at h
  exact not_denotes_none z h

/-! ## Handles with the same value

A checked constructor sees only the types and the values of its arguments. -/

/-- The two handles are null, or have one type and one value. -/
theorem denote_eq_cases {ρ ρ' : Valuation} {s t : TermT} (h : denote ρ s = denote ρ' t) :
    (s = none ∧ t = none) ∨
      ∃ (τ : Ty) (a b : Term τ), s = some ⟨τ, a⟩ ∧ t = some ⟨τ, b⟩ ∧ a.eval ρ = b.eval ρ' := by
  rcases s with _ | ⟨τ, a⟩ <;> rcases t with _ | ⟨σ, b⟩
  · exact .inl ⟨rfl, rfl⟩
  · cases h
  · cases h
  · rw [denote_some, denote_some, Option.some.injEq, Sigma.mk.injEq] at h
    obtain ⟨rfl, hval⟩ := h
    exact .inr ⟨τ, a, b, rfl, rfl, eq_of_heq hval⟩

section Congr

variable {ρ ρ' : Valuation} {s s' t t' c c' : TermT}

theorem mkNot_congr (h : denote ρ s = denote ρ' s') :
    denote ρ (mkNot s) = denote ρ' (mkNot s') := by
  rcases denote_eq_cases h with ⟨rfl, rfl⟩ | ⟨τ, a, a', rfl, rfl, ha⟩
  · rfl
  · cases τ <;> simp [mkNot, denote, ha]

theorem onBv_congr {k : {w : Nat} → Term (.bv w) → TermT}
    (hk : ∀ {w : Nat} (a a' : Term (.bv w)), a.eval ρ = a'.eval ρ' →
      denote ρ (k a) = denote ρ' (k a'))
    (h : denote ρ s = denote ρ' s') : denote ρ (onBv k s) = denote ρ' (onBv k s') := by
  rcases denote_eq_cases h with ⟨rfl, rfl⟩ | ⟨τ, a, a', rfl, rfl, ha⟩
  · rfl
  · cases τ with
    | bool => rfl
    | fn d c => rfl
    | bv w => exact hk a a' ha

theorem onBv2_congr {k : {w : Nat} → Term (.bv w) → Term (.bv w) → TermT}
    (hk : ∀ {w : Nat} (a a' b b' : Term (.bv w)), a.eval ρ = a'.eval ρ' →
      b.eval ρ = b'.eval ρ' → denote ρ (k a b) = denote ρ' (k a' b'))
    (hs : denote ρ s = denote ρ' s') (ht : denote ρ t = denote ρ' t') :
    denote ρ (onBv2 k s t) = denote ρ' (onBv2 k s' t') := by
  rcases denote_eq_cases hs with ⟨rfl, rfl⟩ | ⟨τ, a, a', rfl, rfl, ha⟩
  · cases t <;> cases t' <;> rfl
  · rcases denote_eq_cases ht with ⟨rfl, rfl⟩ | ⟨σ, b, b', rfl, rfl, hb⟩
    · cases τ <;> rfl
    · cases τ <;> cases σ <;> try rfl
      rename_i w v
      by_cases hv : v = w
      · subst hv
        rw [onBv2_some, onBv2_some]
        exact hk a a' b b' ha hb
      · rw [onBv2_eq_none a b hv, onBv2_eq_none a' b' hv]
        rfl

theorem mkOp1_congr (f : Op1) (h : denote ρ s = denote ρ' s') :
    denote ρ (mkOp1 f s) = denote ρ' (mkOp1 f s') :=
  onBv_congr (fun a a' ha => by simp [denote, ha]) h

theorem mkRed_congr (f : Red) (h : denote ρ s = denote ρ' s') :
    denote ρ (mkRed f s) = denote ρ' (mkRed f s') :=
  onBv_congr (fun a a' ha => by simp [denote, ha]) h

theorem mkRep_congr (n : Nat) (h : denote ρ s = denote ρ' s') :
    denote ρ (mkRep n s) = denote ρ' (mkRep n s') :=
  onBv_congr (fun a a' ha => by by_cases hn : 0 < n <;> simp [denote, ha, hn]) h

theorem mkExtract_congr (lo hi : Nat) (h : denote ρ s = denote ρ' s') :
    denote ρ (mkExtract lo hi s) = denote ρ' (mkExtract lo hi s') := by
  refine onBv_congr (fun {w} a a' ha => ?_) h
  by_cases hbits : lo ≤ hi ∧ hi < w <;> simp [denote, ha, hbits]

theorem mkOp2_congr (f : Op2) (hs : denote ρ s = denote ρ' s') (ht : denote ρ t = denote ρ' t') :
    denote ρ (mkOp2 f s t) = denote ρ' (mkOp2 f s' t') :=
  onBv2_congr (fun a a' b b' ha hb => by simp [denote, ha, hb]) hs ht

theorem mkRel_congr (f : Rel) (hs : denote ρ s = denote ρ' s') (ht : denote ρ t = denote ρ' t') :
    denote ρ (mkRel f s t) = denote ρ' (mkRel f s' t') :=
  onBv2_congr (fun a a' b b' ha hb => by simp [denote, ha, hb]) hs ht

theorem mkComp_congr (hs : denote ρ s = denote ρ' s') (ht : denote ρ t = denote ρ' t') :
    denote ρ (mkComp s t) = denote ρ' (mkComp s' t') :=
  onBv2_congr (fun a a' b b' ha hb => by simp [denote, ha, hb]) hs ht

theorem mkOfBool_congr (h : denote ρ s = denote ρ' s') :
    denote ρ (mkOfBool s) = denote ρ' (mkOfBool s') := by
  rcases denote_eq_cases h with ⟨rfl, rfl⟩ | ⟨τ, a, a', rfl, rfl, ha⟩
  · rfl
  · cases τ <;> simp [mkOfBool, denote, ha]

theorem mkAnd2_congr (hs : denote ρ s = denote ρ' s') (ht : denote ρ t = denote ρ' t') :
    denote ρ (mkAnd2 s t) = denote ρ' (mkAnd2 s' t') := by
  rcases denote_eq_cases hs with ⟨rfl, rfl⟩ | ⟨τ, a, a', rfl, rfl, ha⟩
  · cases t <;> cases t' <;> rfl
  · rcases denote_eq_cases ht with ⟨rfl, rfl⟩ | ⟨σ, b, b', rfl, rfl, hb⟩
    · cases τ <;> rfl
    · cases τ <;> cases σ <;> simp [mkAnd2, denote, ha, hb]

theorem mkConcat2_congr (hs : denote ρ s = denote ρ' s') (ht : denote ρ t = denote ρ' t') :
    denote ρ (mkConcat2 s t) = denote ρ' (mkConcat2 s' t') := by
  rcases denote_eq_cases hs with ⟨rfl, rfl⟩ | ⟨τ, a, a', rfl, rfl, ha⟩
  · cases t <;> cases t' <;> rfl
  · rcases denote_eq_cases ht with ⟨rfl, rfl⟩ | ⟨σ, b, b', rfl, rfl, hb⟩
    · cases τ <;> rfl
    · cases τ <;> cases σ <;> simp [mkConcat2, denote, ha, hb]

theorem mkEq_congr (hs : denote ρ s = denote ρ' s') (ht : denote ρ t = denote ρ' t') :
    denote ρ (mkEq s t) = denote ρ' (mkEq s' t') := by
  rcases denote_eq_cases hs with ⟨rfl, rfl⟩ | ⟨τ, a, a', rfl, rfl, ha⟩
  · cases t <;> cases t' <;> rfl
  · rcases denote_eq_cases ht with ⟨rfl, rfl⟩ | ⟨σ, b, b', rfl, rfl, hb⟩
    · rfl
    · by_cases hτ : σ = τ
      · subst hτ
        simp [mkEq, denote, ha, hb]
      · simp [mkEq, denote, hτ]

theorem mkIte_congr (hc : denote ρ c = denote ρ' c') (hs : denote ρ s = denote ρ' s')
    (ht : denote ρ t = denote ρ' t') : denote ρ (mkIte c s t) = denote ρ' (mkIte c' s' t') := by
  rcases denote_eq_cases hc with ⟨rfl, rfl⟩ | ⟨υ, e, e', rfl, rfl, he⟩
  · cases s <;> cases s' <;> cases t <;> cases t' <;> rfl
  rcases denote_eq_cases hs with ⟨rfl, rfl⟩ | ⟨τ, a, a', rfl, rfl, ha⟩
  · cases υ <;> cases t <;> cases t' <;> rfl
  rcases denote_eq_cases ht with ⟨rfl, rfl⟩ | ⟨σ, b, b', rfl, rfl, hb⟩
  · cases υ <;> rfl
  cases υ <;> try rfl
  by_cases hτ : σ = τ
  · subst hτ
    simp [mkIte, denote, he, ha, hb]
  · simp [mkIte, denote, hτ]

theorem mkApp_congr (hs : denote ρ s = denote ρ' s') (ht : denote ρ t = denote ρ' t') :
    denote ρ (mkApp s t) = denote ρ' (mkApp s' t') := by
  rcases denote_eq_cases hs with ⟨rfl, rfl⟩ | ⟨τ, a, a', rfl, rfl, ha⟩
  · cases t <;> cases t' <;> rfl
  · rcases denote_eq_cases ht with ⟨rfl, rfl⟩ | ⟨σ, b, b', rfl, rfl, hb⟩
    · cases τ <;> rfl
    · cases τ <;> cases σ <;> try rfl
      rename_i d c w
      by_cases hw : w = d
      · subst hw
        simp [mkApp, denote, ha, hb]
      · simp [mkApp, denote, hw]

/-- Lists of handles with the same values. -/
theorem mkAnd_congr {ts ts' : List TermT}
    (h : List.Forall₂ (fun t t' => denote ρ t = denote ρ' t') ts ts') :
    denote ρ (mkAnd ts) = denote ρ' (mkAnd ts') := by
  induction h with
  | nil => rfl
  | cons hhead _ ih => exact mkAnd2_congr hhead ih

theorem mkConcat_congr {ts ts' : List TermT}
    (h : List.Forall₂ (fun t t' => denote ρ t = denote ρ' t') ts ts') :
    denote ρ (mkConcat ts) = denote ρ' (mkConcat ts') := by
  have hfold : ∀ {ts ts' : List TermT},
      List.Forall₂ (fun t t' => denote ρ t = denote ρ' t') ts ts' →
      ∀ {s s' : TermT}, denote ρ s = denote ρ' s' →
        denote ρ (ts.foldl mkConcat2 s) = denote ρ' (ts'.foldl mkConcat2 s') := by
    intro ts ts' h
    induction h with
    | nil => exact fun hs => hs
    | cons hhead _ ih => exact fun hs => ih (mkConcat2_congr hs hhead)
  cases h with
  | nil => rfl
  | cons hhead htail => exact hfold htail hhead

end Congr

end Bv
