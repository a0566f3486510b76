import Conquest.Explore.StepCoverage

/-!
# History — the alternatives that were explored

The exploration remembers where it was by sums: every branch record adds the
random number of its id, times its position on the stack, to a running sum, and
the sums of all beginnings of all simulations go into `path_hash_map`, with the
sums of the alternatives that `find_next_cfg` accepted. A beginning is given here
by the ids and positions of its branch records. What was explored is in the set,
so that nothing is accepted twice; what is in the set was explored unless two
beginnings have one sum.
-/

namespace Conquest

open Bv Run

variable {S : Type}

/-! ## Trails -/

/-- The ids and stack indices of branch records, in order. -/
abbrev Trail := List (Nat × Nat)

/-- What the branch record adds to the running sum. -/
def Design.trailStep (d : Design S) (s : Nat × Nat) : BitVec 32 :=
  d.hashTable (s.1 % 16384) * BitVec.ofNat 32 s.2

/-- The running sum after the records. -/
def Design.trailHash (d : Design S) (t : Trail) : BitVec 32 :=
  t.foldl (fun hash s => hash + d.trailStep s) 0

def Constraint.branch? : Constraint S → Option (Nat × Nat)
  | .clk _ => none
  | .record r => if r.obj.isBranch then some (r.obj.id, r.index) else none

def trail (stack : List (Constraint S)) : Trail := stack.filterMap Constraint.branch?

/-- The trail of an alternative of the stack. -/
def Session.altTrail (x : Session S) (cand : Candidate S) : Trail :=
  trail (x.stack.take cand.cnst.index) ++ [(cand.br.id, cand.cnst.index)]

/-- The branch record that a line of the log puts at position `i`. -/
def Design.logStep (d : Design S) (i : Nat) : LogRecord → Trail
  | .assign id => if (d.getAssign id).any SMTAssign.isBranch then [(id, i)] else []
  | _ => []

/-- The entries that a line of the log puts on the stack. -/
def LogRecord.entryCount : LogRecord → Nat
  | .state _ _ => 0
  | _ => 1

/-- The trail of a log whose first entry has position `i`. -/
def Design.logTrail (d : Design S) : Nat → List LogRecord → Trail
  | _, [] => []
  | i, r :: log => d.logStep i r ++ d.logTrail (i + r.entryCount) log

section Trails

variable {d : Design S}

theorem Design.trailHash_append (d : Design S) (t : Trail) (s : Nat × Nat) :
    d.trailHash (t ++ [s]) = d.trailHash t + d.trailStep s := by
  rw [trailHash, List.foldl_append]
  rfl

theorem trail_append (stack entries : List (Constraint S)) :
    trail (stack ++ entries) = trail stack ++ trail entries := List.filterMap_append

theorem Session.altTrail_ne_nil (x : Session S) (cand : Candidate S) : x.altTrail cand ≠ [] :=
  List.append_ne_nil_of_right_ne_nil _ (List.cons_ne_nil _ _)

theorem altPathHash_eq {x : Session S} {cand : Candidate S}
    (h : cand.cnst.hashValue = d.trailHash (trail (x.stack.take cand.cnst.index))) :
    Session.altPathHash d cand = d.trailHash (x.altTrail cand) := by
  rw [Session.altPathHash, h, Session.altTrail, Design.trailHash_append]
  rfl

end Trails

/-! ## What a simulation adds -/

section Scanned

variable [DecidableEq S] {d : Design S}

/-- The running sum and those of the records are sums of trails. -/
structure Session.Hashed (d : Design S) (x : Session S) : Prop where
  running : x.hashValue = d.trailHash (trail x.stack)
  recorded : ∀ (i : Nat) (r : Record S), x.stack[i]? = some (.record r) →
    r.obj.isBranch = true → r.hashValue = d.trailHash (trail (x.stack.take i))

/-- The sums in the set are those from before and those of new beginnings. -/
def Session.Adds (d : Design S) (x : Session S) (added : Trail) (y : Session S) : Prop :=
  ∀ hash, hash ∈ y.pathHashMap ↔ hash ∈ x.pathHashMap ∨
    ∃ t, t ≠ [] ∧ t <+: added ∧ hash = d.trailHash (trail x.stack ++ t)

omit [DecidableEq S] in
theorem Session.Hashed.push {x y : Session S} (h : Hashed d x) {c : Constraint S}
    (hstack : y.stack = x.stack ++ [c])
    (hrunning : y.hashValue = d.trailHash (trail x.stack ++ trail [c]))
    (hc : ∀ r, c = .record r → r.obj.isBranch = true → r.hashValue = x.hashValue) :
    Hashed d y := by
  refine ⟨?_, fun i r hi hbranch => ?_⟩
  · rw [hrunning, hstack, trail_append]
  · rw [hstack] at hi ⊢
    by_cases hlt : i < x.stack.length
    · rw [List.getElem?_append_left hlt] at hi
      rw [List.take_append_of_le_length hlt.le]
      exact h.recorded i r hi hbranch
    · rw [List.getElem?_append_right (by omega), List.getElem?_singleton] at hi
      split at hi
      · rename_i hzero
        have hlength : i = x.stack.length := by omega
        rw [hc r (Option.some.inj hi) hbranch, h.running, hlength, List.take_left]
      · cases hi

theorem Session.hashes_createConstraint {clock : Nat} {assign : SMTAssign S} {x y : Session S}
    {r : Record S} (h : x.createConstraint d clock assign = some (r, y)) :
    if assign.isBranch then
      r.hashValue = x.hashValue ∧
        y.hashValue = x.hashValue + d.trailStep (assign.id, x.stack.length) ∧
        y.pathHashMap = x.pathHashMap.insert y.hashValue
    else y.hashValue = x.hashValue ∧ y.pathHashMap = x.pathHashMap := by
  obtain ⟨-, rfl, ⟨hbranch, rfl⟩ | ⟨hassign, rfl⟩⟩ := createConstraint_cases h
  · rw [if_pos hbranch, if_pos hbranch]
    exact ⟨rfl, rfl, rfl⟩
  · rw [if_neg (Bool.eq_false_iff.mp hassign)]
    exact ⟨rfl, rfl⟩

omit [DecidableEq S] in
/-- Nothing is added. -/
theorem Session.Adds.nil {x y : Session S} (h : y.pathHashMap = x.pathHashMap) :
    Adds d x [] y := by
  intro hash
  rw [h]
  refine (or_iff_left ?_).symm
  rintro ⟨t, hne, hprefix, -⟩
  exact hne (List.prefix_nil.mp hprefix)

omit [DecidableEq S] in
theorem Session.Adds.trans {x y z : Session S} {t t' : Trail} (hy : Adds d x t y)
    (hz : Adds d y t' z) (htrail : trail y.stack = trail x.stack ++ t) :
    Adds d x (t ++ t') z := by
  intro hash
  rw [hz, hy, or_assoc]
  refine or_congr_right ?_
  constructor
  · rintro (⟨u, hne, hprefix, hhash⟩ | ⟨u, hne, hprefix, hhash⟩)
    · exact ⟨u, hne, hprefix.trans (List.prefix_append _ _), hhash⟩
    · refine ⟨t ++ u, ?_, (List.prefix_append_right_inj t).mpr hprefix, ?_⟩
      · exact List.append_ne_nil_of_right_ne_nil _ hne
      · rw [hhash, htrail, List.append_assoc]
  · rintro ⟨u, hne, hprefix, hhash⟩
    rcases List.prefix_or_prefix_of_prefix hprefix (List.prefix_append t t') with
      hshort | ⟨v, rfl⟩
    · exact .inl ⟨u, hne, hshort, hhash⟩
    · have hrest : v <+: t' := (List.prefix_append_right_inj t).mp hprefix
      by_cases hv : v = []
      · subst hv
        rw [List.append_nil] at hne hhash
        exact .inl ⟨t, hne, List.prefix_rfl, hhash⟩
      · refine .inr ⟨v, hv, hrest, ?_⟩
        rw [hhash, htrail, List.append_assoc]

omit [DecidableEq S] in
/-- One entry is added. -/
theorem Session.Adds.one {x y : Session S} {s : Nat × Nat}
    (h : y.pathHashMap = x.pathHashMap.insert (d.trailHash (trail x.stack ++ [s]))) :
    Adds d x [s] y := by
  intro hash
  rw [h, List.mem_insert_iff, or_comm]
  refine or_congr_right ?_
  constructor
  · intro heq
    exact ⟨_, List.cons_ne_nil _ _, List.prefix_rfl, heq⟩
  · rintro ⟨t, hne, hprefix, heq⟩
    rcases List.prefix_cons_iff.mp hprefix with rfl | ⟨u, rfl, hu⟩
    · exact absurd rfl hne
    · rw [List.prefix_nil.mp hu] at heq
      exact heq

omit [DecidableEq S] in
theorem Design.logStep_branch {assign : SMTAssign S} {id : Nat}
    (hassign : d.getAssign id = some assign) (hbranch : assign.isBranch = true) (n : Nat) :
    d.logStep n (.assign id) = [(id, n)] := by
  rw [logStep, hassign, Option.any_some, if_pos hbranch]

omit [DecidableEq S] in
theorem Design.logStep_assign {assign : SMTAssign S} {id : Nat}
    (hassign : d.getAssign id = some assign) (hbranch : assign.isBranch = false) (n : Nat) :
    d.logStep n (.assign id) = [] := by
  rw [logStep, hassign, Option.any_some, hbranch]
  rfl

omit [DecidableEq S] in
/-- A record leaves on the stack what its line of the log says. -/
theorem trail_record {r : Record S} (hobj : d.getAssign r.obj.id = some r.obj) :
    trail [Constraint.record r] = d.logStep r.index (.assign r.obj.id) := by
  cases hbranch : r.obj.isBranch with
  | true =>
      rw [Design.logStep_branch hobj hbranch]
      simp [trail, Constraint.branch?, hbranch]
  | false =>
      rw [Design.logStep_assign hobj hbranch]
      simp [trail, Constraint.branch?, hbranch]

/-- What one line of the log adds. -/
theorem Session.adds_read {clock : Nat} {x y : Session S} {r : LogRecord} (hx : Hashed d x)
    (h : x.read d clock r = some y) :
    Hashed d y ∧ Adds d x (d.logStep x.stack.length r) y ∧
      trail y.stack = trail x.stack ++ d.logStep x.stack.length r ∧
      y.stack.length = x.stack.length + r.entryCount := by
  cases r with
  | clock n =>
      cases h
      refine ⟨hx.push rfl ?_ ?_, .nil rfl, trail_append _ _, List.length_append⟩
      · show x.hashValue = d.trailHash (trail x.stack ++ [])
        rw [List.append_nil]
        exact hx.running
      · intro r hr
        cases hr
  | state stateName value =>
      cases h
      exact ⟨hx, .nil rfl, (List.append_nil _).symm, rfl⟩
  | assign id =>
      obtain ⟨assign, hassign, h⟩ := Option.bind_eq_some_iff.mp h
      obtain ⟨⟨r, z⟩, hz, heq⟩ := Option.map_eq_some_iff.mp h
      obtain rfl := d.getAssign_id hassign
      have hcreated := created_of_createConstraint hz
      have hhashes := hashes_createConstraint hz
      have hstack : y.stack = x.stack ++ [.record r] := by
        rw [← heq, ← hcreated.stack]
      have hhash : y.hashValue = z.hashValue := by rw [← heq]
      have hmap : y.pathHashMap = z.pathHashMap := by rw [← heq]
      have hlog : trail [Constraint.record r] = d.logStep x.stack.length (.assign assign.id) := by
        rw [trail_record (hcreated.obj.symm ▸ hassign), hcreated.obj, hcreated.index]
      have htrail : trail y.stack =
          trail x.stack ++ d.logStep x.stack.length (.assign assign.id) := by
        rw [hstack, trail_append, hlog]
      have hlength : y.stack.length = x.stack.length + 1 := by
        rw [hstack, List.length_append, List.length_singleton]
      cases hbranch : assign.isBranch with
      | true =>
          rw [if_pos hbranch] at hhashes
          obtain ⟨hrecord, hrunning, hinsert⟩ := hhashes
          rw [Design.logStep_branch hassign hbranch] at hlog htrail ⊢
          have hsum : z.hashValue =
              d.trailHash (trail x.stack ++ [(assign.id, x.stack.length)]) := by
            rw [hrunning, hx.running, Design.trailHash_append]
          refine ⟨hx.push hstack ?_ ?_, .one ?_, htrail, hlength⟩
          · rw [hhash, hsum, hlog]
          · intro r' hr' _
            cases hr'
            exact hrecord
          · rw [hmap, hinsert, hsum]
      | false =>
          rw [if_neg (Bool.eq_false_iff.mp hbranch)] at hhashes
          obtain ⟨hrunning, hsame⟩ := hhashes
          rw [Design.logStep_assign hassign hbranch] at hlog htrail ⊢
          refine ⟨hx.push hstack ?_ ?_, .nil (hmap.trans hsame), htrail, hlength⟩
          · rw [hhash, hrunning, hlog, List.append_nil]
            exact hx.running
          · intro r' hr' hr
            cases hr'
            rw [hcreated.obj, hbranch] at hr
            cases hr

/-- What a scan adds. -/
theorem Session.adds_scan {clock : Nat} {x y : Session S} {log : List LogRecord}
    (hx : Hashed d x) (h : scan d clock x log = some y) :
    Hashed d y ∧ Adds d x (d.logTrail x.stack.length (recorded x.simClk log)) y := by
  revert hx
  refine scan_induction (P := fun _ x log y => Hashed d x →
    Hashed d y ∧ Adds d x (d.logTrail x.stack.length (recorded x.simClk log)) y) ?_ ?_ h
  · intro clock x log hx
    rw [recorded_stop]
    exact ⟨hx, .nil rfl⟩
  · intro clock x r log z y hr hread hclk ih hx
    obtain ⟨hz, hadds, htrail, hlength⟩ := adds_read hx hread
    obtain ⟨hy, hrest⟩ := ih hz
    rw [hlength, hclk] at hrest
    rw [recorded_cons hr, Design.logTrail]
    exact ⟨hy, hadds.trans hrest htrail⟩

/-- The sums that a simulation adds are those of the beginnings of its trail. -/
theorem Session.adds_simulate {x y : Session S} {log : List LogRecord}
    (h : x.simulateBuildStack d log = some y) :
    Hashed d y ∧ ∀ hash, hash ∈ y.pathHashMap ↔ hash ∈ x.pathHashMap ∨
      ∃ t, t ≠ [] ∧ t <+: d.logTrail 0 (recorded x.simClk (.clock 0 :: log)) ∧
        hash = d.trailHash t := by
  obtain ⟨z, hscan, rfl⟩ := Option.map_eq_some_iff.mp h
  have hempty : Hashed d
      { x with
        sigs := x.sigs.clearAllVersions
        stack := []
        hashValue := 0
        isNewBlock := false } := by
    refine ⟨rfl, fun i r hi => ?_⟩
    simp at hi
  obtain ⟨hz, hadds⟩ := adds_scan hempty hscan
  exact ⟨⟨hz.running, hz.recorded⟩, hadds⟩

end Scanned

/-! ## Histories -/

/-- The trails of the simulations, and those of the alternatives accepted. -/
structure History where
  simulated : List Trail
  selected : List Trail
deriving DecidableEq

/-- A beginning of a simulation, or an alternative accepted. -/
def History.Explored (h : History) (t : Trail) : Prop :=
  t ∈ h.selected ∨ ∃ s ∈ h.simulated, t <+: s

/-- The trails of the logs that were read. -/
def Design.readTrails (d : Design S) (events : List Event) : List Trail :=
  events.filterMap fun
    | .read records => some (d.logTrail 0 records)
    | .accept _ _ => none

/-- The history after logs were read. -/
def History.read (d : Design S) (h : History) (events : List Event) : History :=
  { h with simulated := h.simulated ++ d.readTrails events }

namespace Search

variable [DecidableEq S]

/-- The alternative that `find_next_cfg` accepts in the next step. -/
def accepted (d : Design S) (x : Search S) (a : Answer S) : Option (Candidate S) :=
  match x.point with
  | .search _ initClk =>
      x.path.bind fun path =>
        (x.session.tryCandidates d a.check
          (a.rank (x.session.branches d (initClk + 1) (x.clk path)))).bind fun r =>
            r.1.map Prod.fst
  | _ => none

/-- What a step adds to the history. -/
def record (d : Design S) (x : Search S) (a : Answer S) (events : List Event) (h : History) :
    History :=
  { h.read d events with
    selected := h.selected ++ (x.accepted d a).toList.map x.session.altTrail }

/-- A step, and the history after it. -/
def recordStep (d : Design S) (opts : Options) (firstAssign : Nat → Nat) (s : Search S × History)
    (a : Answer S) : Option ((Search S × History) × List Event) :=
  (s.1.step d opts firstAssign a).map fun (y, events) => ((y, s.1.record d a events s.2), events)

end Search

/-- No history yet. -/
def History.empty : History where
  simulated := []
  selected := []

section Traced

variable [DecidableEq S] {d : Design S} {opts : Options} {firstAssign : Nat → Nat}

/-- The set holds the sums of what was explored. -/
def Session.Holds (d : Design S) (x : Session S) (h : History) : Prop :=
  ∀ hash, hash ∈ x.pathHashMap ↔ ∃ t, t ≠ [] ∧ h.Explored t ∧ d.trailHash t = hash

/-- The records on the stack have the sums of the trails before them. -/
structure Session.Summed (d : Design S) (x : Session S) : Prop where
  indexed : Indexed x.stack
  hash : ∀ (i : Nat) (r : Record S), x.stack[i]? = some (.record r) →
    r.obj.isBranch = true → r.hashValue = d.trailHash (trail (x.stack.take i))

/-- The set and the stack, as the history has them. -/
structure Session.Traced (d : Design S) (x : Session S) (h : History) : Prop where
  holds : x.Holds d h
  summed : x.Summed d

omit [DecidableEq S] in
theorem Session.Traced.congr {x y : Session S} {h : History} (hx : Traced d x h)
    (hmap : y.pathHashMap = x.pathHashMap) (hstack : y.stack = x.stack) : Traced d y h := by
  refine ⟨fun hash => ?_, ?_, ?_⟩
  · rw [hmap]
    exact hx.holds hash
  · rw [hstack]
    exact hx.summed.indexed
  · rw [hstack]
    exact hx.summed.hash

/-- A simulation adds the beginnings of its trail to both. -/
theorem Session.traced_simulate {x y : Session S} {h : History} {log : List LogRecord}
    (hx : x.Holds d h) (hsim : x.simulateBuildStack d log = some y) :
    Traced d y { h with
      simulated := h.simulated ++ [d.logTrail 0 (recorded x.simClk (.clock 0 :: log))] } := by
  obtain ⟨hhashed, hadds⟩ := adds_simulate hsim
  refine ⟨fun hash => ?_, indexed_of_simulate hsim, hhashed.recorded⟩
  rw [hadds, hx hash]
  constructor
  · rintro (⟨t, hne, hselected | ⟨s, hs, hprefix⟩, hhash⟩ | ⟨t, hne, hprefix, hhash⟩)
    · exact ⟨t, hne, .inl hselected, hhash⟩
    · exact ⟨t, hne, .inr ⟨s, List.mem_append_left _ hs, hprefix⟩, hhash⟩
    · exact ⟨t, hne, .inr ⟨_, List.mem_append_right _ List.mem_cons_self, hprefix⟩, hhash.symm⟩
  · rintro ⟨t, hne, hselected | ⟨s, hs, hprefix⟩, hhash⟩
    · exact .inl ⟨t, hne, .inl hselected, hhash⟩
    · rcases List.mem_append.mp hs with hs | hs
      · exact .inl ⟨t, hne, .inr ⟨s, hs, hprefix⟩, hhash⟩
      · rw [List.mem_singleton.mp hs] at hprefix
        exact .inr ⟨t, hne, hprefix, hhash.symm⟩

omit [DecidableEq S] in
/-- A branch record on the stack has the sum of the trail before it. -/
theorem Session.Summed.altPathHash_eq {x : Session S} (hx : Summed d x) {cand : Candidate S}
    (hcand : .record cand.cnst ∈ x.stack) (hbranch : cand.cnst.obj.isBranch = true) :
    altPathHash d cand = d.trailHash (x.altTrail cand) := by
  obtain ⟨i, hi⟩ := List.getElem?_of_mem hcand
  obtain rfl := hx.indexed i cand.cnst hi
  exact Conquest.altPathHash_eq (hx.hash _ _ hi hbranch)

namespace Search

variable {x y : Search S} {a : Answer S} {events : List Event} {h : History}

theorem traced_simulate (hx : x.session.Holds d h) (hsim : x.simulate d a = some (y, events)) :
    y.session.Traced d (h.read d events) := by
  obtain ⟨session, hsession, -, rfl, rfl⟩ := simulate_eq hsim
  exact Session.traced_simulate hx hsession

theorem traced_explore {path : Nat} (hx : x.session.Holds d h)
    (hsim : x.exploreOneStep d opts path a = some (y, events)) :
    y.session.Traced d (h.read d events) := by
  refine traced_simulate ?_ hsim
  exact hx

omit [DecidableEq S] in
theorem traced_errorCheck (hx : x.session.Traced d h) (hcheck : x.errorCheck d opts a = some y) :
    y.session.Traced d h := by
  obtain ⟨context, rfl⟩ := errorCheck_eq hcheck
  exact hx.congr rfl rfl

omit [DecidableEq S] in
theorem traced_checkTarget (target : Nat) (hx : x.session.Traced d h) :
    (x.checkTarget opts firstAssign target).session.Traced d h := by
  obtain ⟨targets, covered, uncovered, point, -, heq⟩ :=
    checkTarget_eq opts firstAssign target x
  rw [heq]
  exact hx.congr rfl rfl

omit [DecidableEq S] in
theorem read_nil (h : History) : h.read d [] = h := by
  show History.mk (h.simulated ++ []) h.selected = h
  rw [List.append_nil]

theorem record_of_none (hnone : x.accepted d a = none) :
    x.record d a events h = h.read d events := by
  rw [record, hnone]
  show History.mk _ (h.selected ++ []) = _
  rw [List.append_nil]
  rfl

theorem record_of_some {cand : Candidate S} {id clock : Nat} (hsome : x.accepted d a = some cand) :
    x.record d a [.accept id clock] h =
      { h with selected := h.selected ++ [x.session.altTrail cand] } := by
  rw [record, hsome]
  show History.mk (h.simulated ++ []) _ = _
  rw [List.append_nil]
  rfl

/-- Only `find_next_cfg` accepts. -/
theorem record_of_point {p : Point} (hpoint : x.point = p)
    (hp : ∀ target initClk, p ≠ .search target initClk) :
    x.record d a events h = h.read d events := by
  refine record_of_none ?_
  unfold accepted
  split
  · rename_i target initClk hsearch
    exact absurd (hpoint.symm.trans hsearch) (hp target initClk)
  · rfl

theorem accepted_eq {target initClk path : Nat} {found : Option (Candidate S × Valuation)}
    {session : Session S} (hpoint : x.point = .search target initClk) (hpath : x.path = some path)
    (htry : x.session.tryCandidates d a.check
      (a.rank (x.session.branches d (initClk + 1) (x.clk path))) = some (found, session)) :
    x.accepted d a = found.map Prod.fst := by
  unfold accepted
  rw [hpoint]
  dsimp only
  rw [hpath, Option.bind_some, htry, Option.bind_some]

omit [DecidableEq S] in
/-- A candidate is an alternative of a branch record, and not taken. -/
theorem not_taken_of_mem_branches {x : Session S} {cand : Candidate S} {beginClk endClk : Nat}
    (hcand : cand ∈ x.branches d beginClk endClk) :
    .record cand.cnst ∈ x.stack ∧ cand.cnst.obj.isBranch = true ∧ x.isPathTaken d cand = false := by
  have hstack := (Session.mem_branches hcand).1
  obtain ⟨r, -, halt⟩ := List.mem_flatMap.mp (List.mem_filter.mp hcand).1
  unfold Session.alternatives at halt
  split at halt
  · rename_i hbranch
    obtain ⟨hmem, htaken⟩ := List.mem_filter.mp halt
    obtain ⟨br, -, rfl⟩ := List.mem_map.mp hmem
    exact ⟨hstack, hbranch, by simpa using htaken⟩
  · exact absurd halt List.not_mem_nil

omit [DecidableEq S] in
/-- Accepting an alternative adds its sum. -/
theorem traced_accept {cand : Candidate S} {z : Search S} (haccept : x.accept d opts cand = some z)
    (hx : x.session.Traced d h) (hcand : .record cand.cnst ∈ x.session.stack)
    (hbranch : cand.cnst.obj.isBranch = true) :
    z.session.Traced d { h with selected := h.selected ++ [x.session.altTrail cand] } := by
  have hsum := hx.summed.altPathHash_eq hcand hbranch
  obtain ⟨session, hsession, rfl⟩ := Option.map_eq_some_iff.mp haccept
  have hkeeps : session.pathHashMap =
        x.session.pathHashMap.insert (d.trailHash (x.session.altTrail cand)) ∧
      session.stack = x.session.stack := by
    rw [← hsum]
    split at hsession
    · obtain rfl := Option.some.inj hsession
      exact ⟨rfl, rfl⟩
    · rw [Session.setCoveredClk_eq_some hsession]
      exact ⟨rfl, rfl⟩
  obtain ⟨hmap, hstack⟩ := hkeeps
  refine ⟨fun hash => ?_, ?_, ?_⟩
  · show hash ∈ session.pathHashMap ↔ _
    rw [hmap, List.mem_insert_iff, hx.holds hash]
    constructor
    · rintro (rfl | ⟨t, hne, hselected | hsimulated, hhash⟩)
      · exact ⟨_, x.session.altTrail_ne_nil cand,
          .inl (List.mem_append_right _ List.mem_cons_self), rfl⟩
      · exact ⟨t, hne, .inl (List.mem_append_left _ hselected), hhash⟩
      · exact ⟨t, hne, .inr hsimulated, hhash⟩
    · rintro ⟨t, hne, hselected | hsimulated, hhash⟩
      · rcases List.mem_append.mp hselected with hselected | hselected
        · exact .inr ⟨t, hne, .inl hselected, hhash⟩
        · rw [List.mem_singleton.mp hselected] at hhash
          exact .inl hhash.symm
      · exact .inr ⟨t, hne, .inr hsimulated, hhash⟩
  · show Indexed session.stack
    rw [hstack]
    exact hx.summed.indexed
  · intro i r (hi : session.stack[i]? = _) hr
    show r.hashValue = d.trailHash (trail (session.stack.take i))
    rw [hstack] at hi ⊢
    exact hx.summed.hash i r hi hr

/-- **The invariant.** After every step the set holds the sums of the history. -/
theorem traced_step (hx : x.session.Traced d h)
    (hstep : x.step d opts firstAssign a = some (y, events)) :
    y.session.Traced d (x.record d a events h) := by
  cases moves_of_step hstep with
  | random hpoint hlt hsim =>
      rw [record_of_point hpoint (by intro _ _ hp; cases hp)]
      exact (traced_simulate hx.holds hsim).congr rfl rfl
  | explore hpoint =>
      rw [record_of_point hpoint (by intro _ _ hp; cases hp), read_nil]
      exact hx.congr rfl rfl
  | finish hpoint =>
      rw [record_of_point hpoint (by intro _ _ hp; cases hp), read_nil]
      exact hx
  | skip hpoint =>
      rw [record_of_point hpoint (by intro _ _ hp; cases hp), read_nil]
      exact hx.congr rfl rfl
  | resume hpoint htargets hcovered hclosest hsim =>
      rw [record_of_point hpoint (by intro _ _ hp; cases hp)]
      refine (traced_simulate ?_ hsim).congr rfl rfl
      exact hx.holds
  | stay hpoint =>
      rw [record_of_point hpoint (by intro _ _ hp; cases hp), read_nil]
      exact hx.congr rfl rfl
  | iterate hpoint hpath hcheck hexplore =>
      rw [record_of_point hpoint (by intro _ _ hp; cases hp)]
      exact (traced_explore (traced_errorCheck hx hcheck).holds hexplore).congr rfl rfl
  | reject hpoint hpath htry =>
      have hnone := accepted_eq hpoint hpath htry
      obtain ⟨sigs, context, rfl⟩ := Session.tryCandidates_eq htry
      rw [record_of_none hnone, read_nil]
      exact hx.congr rfl rfl
  | accept hpoint hpath htry haccept =>
      have hsome := accepted_eq hpoint hpath htry
      obtain ⟨hcand, hbranch, -⟩ := not_taken_of_mem_branches
        (Answer.mem_rank (Session.tryCandidates_mem htry))
      obtain ⟨sigs, context, rfl⟩ := Session.tryCandidates_eq htry
      rw [record_of_some hsome]
      exact (traced_accept haccept (hx.congr rfl rfl) hcand hbranch).congr rfl rfl
  | confirm hpoint hsim =>
      rw [record_of_point hpoint (by intro _ _ hp; cases hp)]
      exact (traced_simulate hx.holds hsim).congr rfl rfl
  | cover hpoint hsim =>
      rw [record_of_point hpoint (by intro _ _ hp; cases hp)]
      exact (traced_simulate hx.holds hsim).congr rfl rfl
  | clear hpoint hsim =>
      rw [record_of_point hpoint (by intro _ _ hp; cases hp)]
      refine ⟨(traced_simulate hx.holds hsim).holds, ?_, ?_⟩
      · intro i r hi
        simp at hi
      · intro i r hi
        simp at hi
  | again hpoint hsim =>
      rw [record_of_point hpoint (by intro _ _ hp; cases hp)]
      refine traced_checkTarget _ ?_
      exact (traced_simulate hx.holds hsim).congr rfl rfl
  | restart hpoint hpath hexplore =>
      rw [record_of_point hpoint (by intro _ _ hp; cases hp)]
      exact traced_checkTarget _ (traced_explore hx.holds hexplore)

theorem mem_branches_of_accepted {cand : Candidate S} (haccept : x.accepted d a = some cand) :
    ∃ beginClk endClk, cand ∈ x.session.branches d beginClk endClk := by
  unfold accepted at haccept
  split at haccept
  · obtain ⟨path, -, haccept⟩ := Option.bind_eq_some_iff.mp haccept
    obtain ⟨⟨found, session⟩, htry, hfound⟩ := Option.bind_eq_some_iff.mp haccept
    obtain ⟨⟨cand, model⟩, rfl, rfl⟩ := Option.map_eq_some_iff.mp hfound
    exact ⟨_, _, Answer.mem_rank (Session.tryCandidates_mem htry)⟩
  · cases haccept

/-- Before the first simulation the stack and the set are empty. -/
theorem traced_run {printed : Nat → List Char} {session : Session S} {targets : List Nat}
    (hstack : session.stack = []) (hmap : session.pathHashMap = []) {answers : List (Answer S)}
    (hrun : observe (recordStep d opts firstAssign)
      (start d opts printed session targets, .empty) answers = some ((x, h), events)) :
    x.session.Traced d h := by
  have hstart : (start d opts printed session targets).session.Traced d .empty := by
    refine ⟨fun hash => ?_, fun i r hi => ?_, fun i r hi => ?_⟩
    · show hash ∈ session.pathHashMap ↔ _
      rw [hmap]
      refine iff_of_false List.not_mem_nil ?_
      rintro ⟨t, -, hselected | ⟨s, hs, -⟩, -⟩
      · exact absurd hselected List.not_mem_nil
      · exact absurd hs List.not_mem_nil
    · change session.stack[i]? = _ at hi
      rw [hstack] at hi
      simp at hi
    · change session.stack[i]? = _ at hi
      rw [hstack] at hi
      simp at hi
  refine observe_inv (fun s : Search S × History => s.1.session.Traced d s.2) (V := fun _ => True)
    hrun hstart (fun _ _ => trivial) ?_
  intro s a t events hs _ hstep
  obtain ⟨⟨y, events⟩, hy, heq⟩ := Option.map_eq_some_iff.mp hstep
  cases heq
  exact traced_step hs hy

end Search

/-! ## Nothing is selected twice -/

/-- **Selected once.** In every run of `step_coverage`, whatever the hash table,
the alternative that `find_next_cfg` accepts was accepted at no earlier time, and
no earlier simulation went the same way to the same position and took it. -/
theorem selected_once {printed : Nat → List Char} {session : Session S} {targets : List Nat}
    (hstack : session.stack = []) (hmap : session.pathHashMap = []) {answers : List (Answer S)}
    {x : Search S} {h : History} {events : List Event}
    (hrun : observe (Search.recordStep d opts firstAssign)
      (Search.start d opts printed session targets, .empty) answers = some ((x, h), events))
    {a : Answer S} {cand : Candidate S} (haccept : x.accepted d a = some cand) :
    x.session.altTrail cand ∉ h.selected ∧
      ∀ t ∈ h.simulated, ¬ x.session.altTrail cand <+: t := by
  have htraced := Search.traced_run hstack hmap hrun
  obtain ⟨beginClk, endClk, hmem⟩ := Search.mem_branches_of_accepted haccept
  obtain ⟨hcand, hbranch, htaken⟩ := Search.not_taken_of_mem_branches hmem
  have hnot : ¬ h.Explored (x.session.altTrail cand) := by
    intro hexplored
    have hsum := (htraced.holds _).mpr ⟨_, x.session.altTrail_ne_nil cand, hexplored, rfl⟩
    rw [← htraced.summed.altPathHash_eq hcand hbranch] at hsum
    rw [Session.isPathTaken, List.contains_eq_mem, decide_eq_false_iff_not] at htaken
    exact htaken hsum
  refine ⟨fun hselected => hnot (.inl hselected), fun t ht hprefix => ?_⟩
  exact hnot (.inr ⟨t, ht, hprefix⟩)

/-! ## What is discarded -/

/-- A candidate that `find_next_cfg` asks `is_path_taken` about. -/
structure Session.IsAlternative (d : Design S) (x : Session S) (cand : Candidate S) : Prop where
  mem_stack : .record cand.cnst ∈ x.stack
  isBranch : cand.cnst.obj.isBranch = true
  mem_branchList : cand.br.id ∈ d.branchList cand.cnst.obj.id
  ne : cand.br.id ≠ cand.cnst.obj.id
  getAssign : d.getAssign cand.br.id = some cand.br

/-- Only what was explored is discarded. -/
def Session.KeepsUnexplored (d : Design S) (x : Session S) (h : History) : Prop :=
  ∀ cand, x.IsAlternative d cand → x.isPathTaken d cand = true → h.Explored (x.altTrail cand)

/-- No alternative that was not explored has the sum of a trail that was. -/
def Session.SumsApart (d : Design S) (x : Session S) (h : History) : Prop :=
  ∀ cand, x.IsAlternative d cand → ¬ h.Explored (x.altTrail cand) →
    ∀ t, t ≠ [] → h.Explored t → d.trailHash t ≠ d.trailHash (x.altTrail cand)

/-- **Discarded means explored.** In every state of every run of `step_coverage`
only explored alternatives are discarded if and only if no other alternative of
the stack has the sum of an explored trail. -/
theorem discarded_explored_iff {printed : Nat → List Char} {session : Session S}
    {targets : List Nat} (hstack : session.stack = []) (hmap : session.pathHashMap = [])
    {answers : List (Answer S)} {x : Search S} {h : History} {events : List Event}
    (hrun : observe (Search.recordStep d opts firstAssign)
      (Search.start d opts printed session targets, .empty) answers = some ((x, h), events)) :
    x.session.KeepsUnexplored d h ↔ x.session.SumsApart d h := by
  have htraced := Search.traced_run hstack hmap hrun
  have htaken : ∀ cand, x.session.IsAlternative d cand →
      (x.session.isPathTaken d cand = true ↔
        ∃ t, t ≠ [] ∧ h.Explored t ∧ d.trailHash t = d.trailHash (x.session.altTrail cand)) := by
    intro cand hcand
    rw [Session.isPathTaken, List.contains_eq_mem, decide_eq_true_eq, htraced.holds,
      htraced.summed.altPathHash_eq hcand.mem_stack hcand.isBranch]
  constructor
  · intro hkeeps cand hcand hunexplored t hne hexplored hsum
    exact hunexplored (hkeeps cand hcand ((htaken cand hcand).mpr ⟨t, hne, hexplored, hsum⟩))
  · intro hapart cand hcand hpath
    obtain ⟨t, hne, hexplored, hsum⟩ := (htaken cand hcand).mp hpath
    by_contra hunexplored
    exact hapart cand hcand hunexplored t hne hexplored hsum

end Traced

/-! ## A sum that occurs twice -/

/-- The accepted alternative of the else arm's record, with the history before it. -/
theorem else_selected_once : ∃ x h events cand,
    observe (Search.recordStep elseDesign elseOptions fun _ => 0)
        (Search.start elseDesign elseOptions (fun _ => ['a']) elseSession [0], .empty)
        (List.replicate 4 elseAnswer) = some ((x, h), events) ∧
      Search.accepted elseDesign x elseAnswer = some cand ∧
      x.session.altTrail cand ∉ h.selected ∧
        ∀ t ∈ h.simulated, ¬ x.session.altTrail cand <+: t := by
  have hrun : ((observe (Search.recordStep elseDesign elseOptions fun _ => 0)
        (Search.start elseDesign elseOptions (fun _ => ['a']) elseSession [0], .empty)
        (List.replicate 4 elseAnswer)).bind fun r =>
          Search.accepted elseDesign r.1.1 elseAnswer).isSome = true := by
    decide +kernel
  obtain ⟨cand, hcand⟩ := Option.isSome_iff_exists.mp hrun
  obtain ⟨⟨⟨x, h⟩, events⟩, hx, haccept⟩ := Option.bind_eq_some_iff.mp hcand
  exact ⟨x, h, events, cand, hx, haccept, selected_once rfl rfl hx haccept⟩

/-- The design with a table in which one number is three times another. -/
def tripleDesign : Design Bool :=
  { elseDesign with hashTable := fun id => if id = 0 then 21 else 7 }

def tripleOptions : Options := { elseOptions with step := 2 }

/-- The random simulation of two clocks, which goes to the else arm in both. -/
def tripleRun : Option ((Search Bool × History) × List Event) :=
  observe (Search.recordStep tripleDesign tripleOptions fun _ => 0)
    (Search.start tripleDesign tripleOptions (fun _ => ['a']) elseSession [0], .empty) [elseAnswer]

/-- The alternative of the first clock, where it is on the stack. -/
def tripleCand (x : Session Bool) : Option (Candidate Bool) :=
  (x.stack[2]?.bind Constraint.record?).bind fun r =>
    (elseDesign.getAssign 0).map fun br => ⟨r, br⟩

theorem tripleRun_eq : ∃ x h events cand, tripleRun = some ((x, h), events) ∧
    x.session.stack[2]? = some (.record cand.cnst) ∧ elseDesign.getAssign 0 = some cand.br ∧
    cand.cnst.obj.isBranch = true ∧ cand.cnst.obj.id = 2 ∧
    x.session.isPathTaken tripleDesign cand = true ∧ x.session.altTrail cand = [(0, 2)] ∧
    h = ⟨[[(2, 2), (2, 4)]], []⟩ := by
  have hrun : (tripleRun.bind fun r => (tripleCand r.1.1.session).map fun cand =>
      decide (cand.cnst.obj.isBranch = true ∧ cand.cnst.obj.id = 2 ∧
        r.1.1.session.isPathTaken tripleDesign cand = true ∧
        r.1.1.session.altTrail cand = [(0, 2)] ∧ r.1.2 = ⟨[[(2, 2), (2, 4)]], []⟩)) =
          some true := by
    decide +kernel
  obtain ⟨⟨⟨x, h⟩, events⟩, hx, hcand⟩ := Option.bind_eq_some_iff.mp hrun
  obtain ⟨cand, hcand, heq⟩ := Option.map_eq_some_iff.mp hcand
  obtain ⟨r, hr, hmap⟩ := Option.bind_eq_some_iff.mp hcand
  obtain ⟨br, hbr, rfl⟩ := Option.map_eq_some_iff.mp hmap
  obtain ⟨c, hc, hrecord⟩ := Option.bind_eq_some_iff.mp hr
  obtain ⟨hbranch, hid, htaken, htrail, hhistory⟩ := of_decide_eq_true heq
  cases c with
  | clk n => cases hrecord
  | record r' =>
      obtain rfl := Option.some.inj hrecord
      exact ⟨x, h, events, _, hx, hc, hbr, hbranch, hid, htaken, htrail, hhistory⟩

/-- After one simulation an arm that nothing has taken is discarded: `21 * 2` is
`7 * 2 + 7 * 4`. -/
theorem triple_discarded : ∃ x h events, tripleRun = some ((x, h), events) ∧
    ¬ x.session.KeepsUnexplored tripleDesign h := by
  obtain ⟨x, h, events, cand, hrun, hstack, hbr, hbranch, hid, htaken, htrail, rfl⟩ := tripleRun_eq
  refine ⟨x, _, events, hrun, fun hkeeps => ?_⟩
  have hzero : cand.br.id = 0 := elseDesign.getAssign_id hbr
  have hcand : x.session.IsAlternative tripleDesign cand := by
    refine ⟨List.mem_of_getElem? hstack, hbranch, ?_, ?_, ?_⟩
    · rw [hid, hzero]
      decide
    · rw [hid, hzero]
      decide
    · rw [hzero]
      exact hbr
  rcases hkeeps cand hcand htaken with hselected | ⟨s, hs, hprefix⟩
  · exact absurd hselected List.not_mem_nil
  · rw [List.mem_singleton.mp hs, htrail] at hprefix
    exact absurd hprefix (by decide)

/-- The condition fails there. -/
theorem triple_apart_iff : ∃ x h events, tripleRun = some ((x, h), events) ∧
    (x.session.KeepsUnexplored tripleDesign h ↔ x.session.SumsApart tripleDesign h) := by
  obtain ⟨x, h, events, cand, hrun, -⟩ := tripleRun_eq
  exact ⟨x, h, events, hrun, discarded_explored_iff rfl rfl hrun⟩

end Conquest
