import Conquest.Explore.Targets
import Conquest.PathData

/-!
# Rows — the inputs of the exploration

The exploration with the data it moves around: every path object has rows, the
random ones of a step are appended to them, and `find_next_cfg` cuts them at the
clock of a candidate and writes the model into them. Before each simulation one
of these is dumped to `data.mem`. The rows of a path are as many as its clocks,
and `g_sim_clk` is their number at every simulation but one.
-/

namespace Conquest

open Bv Run Text

variable {S : Type}

/-! ## Data -/

/-- An answer with the numbers that `rand` returns and the lines of `model.log`. -/
structure DataAnswer (S : Type) extends Answer S where
  rand : Nat → Nat
  modelLog : List Line

/-- `g_data`, `g_data_step`, the data of the path objects, and the rows of
`data.mem`. -/
structure Rows where
  gData : PathData
  gDataStep : PathData
  pathData : Nat → PathData
  dataMem : List Line

namespace Rows

variable (opts : Options) (enableObsPadding : Bool) (firstAssign : Nat → Nat)

/-- The rows that `explore_one_step` appends to a path and dumps. -/
def exploreOneStep (path : Nat) (rand : Nat → Nat) (m : Rows) : Option Rows :=
  (m.gDataStep.generate opts.step enableObsPadding rand).bind fun step =>
    ((m.pathData path).connectPath step).map fun data =>
      { m with
        gDataStep := step
        pathData := Function.update m.pathData path data
        dataMem := data.inputVector }

/-- The closest path of the first target, when it is simulated again. -/
def resumed (x : Search S) : Option Nat :=
  match x.session.targetList with
  | [] => none
  | target :: _ =>
      if x.isCovered firstAssign target then none
      else if x.closestPath target = x.path then none
      else x.closestPath target

/-- The data of a step up to the call of `simulate_build_stack`, if it has one. -/
def dump (x : Search S) (a : DataAnswer S) (m : Rows) : Option Rows :=
  match x.point with
  | .random i =>
      if i < opts.randomSimNum then
        (m.gData.generate opts.step enableObsPadding a.rand).map fun data =>
          { m with gData := data, dataMem := data.inputVector }
      else some m
  | .pick =>
      match resumed firstAssign x with
      | none => some m
      | some path => some { m with dataMem := (m.pathData path).inputVector }
  | .iterate _ => x.path.bind fun path => m.exploreOneStep opts enableObsPadding path a.rand
  | .restart _ => x.path.bind fun path => m.exploreOneStep opts enableObsPadding path a.rand
  | _ => some m

/-- The data of the candidates: the path, cut at the clock of the last one that
was tried, with the values of the model when it is accepted. -/
def tryCandidates (path : Nat) (cands : List (Candidate S)) (accepted : Option Nat)
    (modelLog : List Line) (m : Rows) : Option Rows :=
  match accepted with
  | some clock =>
      ((m.gDataStep.intercept (m.pathData path) 0 clock).updateInputVectors clock modelLog).map
        fun data => { m with gDataStep := data, dataMem := data.inputVector }
  | none =>
      match cands.getLast? with
      | none => some m
      | some cand =>
          some { m with gDataStep := m.gDataStep.intercept (m.pathData path) 0 cand.cnst.clock }

/-- The clock of the accepted candidate. -/
def acceptedClock : Point → Option Nat
  | .confirm _ clock => some clock
  | _ => none

/-- The data of the step to `y` from there on: candidates, and new paths. -/
def save (d : Design S) (x : Search S) (a : DataAnswer S) (y : Search S) (m : Rows) :
    Option Rows :=
  match x.point with
  | .random i =>
      if i < opts.randomSimNum then
        some { m with pathData := Function.update m.pathData x.pathCount m.gData }
      else some m
  | .search _ initClk =>
      x.path.bind fun path =>
        m.tryCandidates path (a.rank (x.session.branches d (initClk + 1) (x.clk path)))
          (acceptedClock y.point) a.modelLog
  | .again _ _ =>
      let data :=
        match y.point with
        | .restart _ => m.gDataStep.clearPath
        | _ => m.gDataStep
      some { m with pathData := Function.update m.pathData x.pathCount data }
  | _ => some m

def step (d : Design S) (x : Search S) (a : DataAnswer S) (y : Search S) (m : Rows) :
    Option Rows :=
  (m.dump opts enableObsPadding firstAssign x a).bind fun m => m.save opts d x a y

/-- The data at the start, with the ports of the design. -/
def start (ports : CTDataMem) (dataMem : List Line) : Rows where
  gData := .new ports
  gDataStep := .new ports
  pathData := fun _ => .new ports
  dataMem := dataMem

end Rows

/-! ## Steps with data -/

/-- `step_coverage` with its data. -/
def Search.stepRows [DecidableEq S] (d : Design S) (opts : Options) (enableObsPadding : Bool)
    (firstAssign : Nat → Nat) (s : Search S × Rows) (a : DataAnswer S) :
    Option ((Search S × Rows) × List Event) :=
  (s.1.step d opts firstAssign a.toAnswer).bind fun (y, events) =>
    (s.2.step opts enableObsPadding firstAssign d s.1 a y).map fun m => ((y, m), events)

/-! ## The rows of the paths -/

/-- The invariant of the data. -/
structure Rows.Inv (ports : CTDataMem) (opts : Options) (x : Search S) (m : Rows) : Prop where
  gData : m.gData.Formed ports
  gDataStep : m.gDataStep.Formed ports
  paths : ∀ p < x.pathCount, (m.pathData p).Formed ports ∧ (m.pathData p).clk = x.clk p ∧
    (m.pathData p).step = opts.step
  path : ∀ p, x.path = some p → p < x.pathCount
  closest : ∀ target p, x.closestPath target = some p → p < x.pathCount
  point :
    match x.point with
    | .random _ => x.session.simClk = opts.step
    | .search _ _ => m.gDataStep.step = opts.step
    | .confirm _ clock | .again _ clock =>
        m.gDataStep.step = opts.step ∧ m.gDataStep.clk = clock ∧ x.session.simClk = clock ∧
          m.dataMem = m.gDataStep.inputVector
    | _ => True

/-- The values of the model have the widths of their ports. -/
def DataAnswer.Fits (ports : CTDataMem) (a : DataAnswer S) : Prop :=
  ∃ items, a.modelLog = listingLines items ∧ PathData.Fitting ports items

section Inv

variable {ports : CTDataMem} {opts : Options} {x : Search S} {m : Rows}

/-- The data after `explore_one_step` of the path object `path`. -/
structure Rows.Extended (ports : CTDataMem) (opts : Options) (x : Search S) (m : Rows)
    (path : Nat) (m' : Rows) : Prop where
  gData : m'.gData = m.gData
  gDataStep : m'.gDataStep.Formed ports
  step : m'.gDataStep.step = opts.step
  other : ∀ p, p ≠ path → m'.pathData p = m.pathData p
  formed : (m'.pathData path).Formed ports
  clk : (m'.pathData path).clk = x.clk path + opts.step
  pathStep : (m'.pathData path).step = opts.step
  dataMem : m'.dataMem = (m'.pathData path).inputVector

theorem Rows.Inv.extended (h : m.Inv ports opts x) (hwidth : 1 ≤ ports.width)
    (hstep : 1 ≤ opts.step) {path : Nat} (hpath : path < x.pathCount) (pad : Bool)
    (rand : Nat → Nat) :
    ∃ m', m.exploreOneStep opts pad path rand = some m' ∧ m.Extended ports opts x path m' := by
  obtain ⟨step, hgenerate, hformed, hstepEq, hclkEq⟩ :=
    h.gDataStep.generate hstep hwidth pad rand
  obtain ⟨hpathFormed, hpathClk, hpathStep⟩ := h.paths path hpath
  obtain ⟨data, hconnect, hdata, hdataStep, hdataClk⟩ :=
    hpathFormed.connectPath hformed (hclkEq.trans hstepEq.symm) (hpathStep.trans hstepEq.symm)
  refine ⟨{ m with
      gDataStep := step
      pathData := Function.update m.pathData path data
      dataMem := data.inputVector }, ?_, ?_⟩
  · rw [Rows.exploreOneStep, hgenerate, Option.bind_some, hconnect, Option.map_some]
  · refine ⟨rfl, hformed, hstepEq, fun p hp => Function.update_of_ne hp _ _, ?_, ?_, ?_, ?_⟩
    all_goals dsimp only
    all_goals rw [Function.update_self]
    · exact hdata
    · rw [hdataClk, hpathClk, hpathStep]
    · rw [hdataStep, hpathStep]

/-- The paths after one was extended. -/
theorem Rows.Extended.paths {path : Nat} {m' : Rows} (h : m.Extended ports opts x path m')
    (hinv : m.Inv ports opts x) {p : Nat} (hp : p < x.pathCount) :
    (m'.pathData p).Formed ports ∧
      (m'.pathData p).clk =
        Function.update x.clk path (x.clk path + opts.step) p ∧
      (m'.pathData p).step = opts.step := by
  by_cases heq : p = path
  · subst heq
    rw [Function.update_self]
    exact ⟨h.formed, h.clk, h.pathStep⟩
  · rw [h.other p heq, Function.update_of_ne heq]
    exact hinv.paths p hp

/-- A new path object. -/
theorem Rows.paths_new {clk : Nat → Nat} {pathData : Nat → PathData} {n c : Nat} {data : PathData}
    (h : ∀ p < n, (pathData p).Formed ports ∧ (pathData p).clk = clk p ∧
      (pathData p).step = opts.step)
    (hdata : data.Formed ports) (hclk : data.clk = c) (hstep : data.step = opts.step) :
    ∀ p < n + 1, (Function.update pathData n data p).Formed ports ∧
      (Function.update pathData n data p).clk = Function.update clk n c p ∧
      (Function.update pathData n data p).step = opts.step := by
  intro p hp
  by_cases heq : p = n
  · subst heq
    rw [Function.update_self, Function.update_self]
    exact ⟨hdata, hclk, hstep⟩
  · rw [Function.update_of_ne heq, Function.update_of_ne heq]
    exact h p (by omega)

/-- The alternative was simulated, and its data are those of a new path object. -/
theorem Rows.Inv.newPath (h : m.Inv ports opts x) {data : PathData} {c : Nat} {y : Search S}
    (hdata : data.Formed ports) (hclk : data.clk = c) (hstep : data.step = opts.step)
    (hcount : y.pathCount = x.pathCount + 1)
    (hclks : y.clk = Function.update x.clk x.pathCount c) (hpath : y.path = some x.pathCount)
    (hclosest : y.closestPath = x.closestPath)
    (hpoint : y.point = .pick ∨ ∃ target, y.point = .restart target ∨ y.point = .iterate target) :
    Rows.Inv ports opts y
      { m with pathData := Function.update m.pathData x.pathCount data } where
  gData := h.gData
  gDataStep := h.gDataStep
  paths := by
    rw [hcount, hclks]
    exact paths_new h.paths hdata hclk hstep
  path := by
    intro p hp
    rw [hpath] at hp
    obtain rfl := Option.some.inj hp
    rw [hcount]
    exact Nat.lt_succ_self _
  closest := by
    intro target p hp
    rw [hclosest] at hp
    rw [hcount]
    exact Nat.lt_succ_of_lt (h.closest target p hp)
  point := by
    rcases hpoint with hy | ⟨target, hy | hy⟩
    · rw [hy]
      trivial
    · rw [hy]
      trivial
    · rw [hy]
      trivial

/-- Candidates at clocks that the path has, none of which is accepted. -/
theorem Rows.tryCandidates_none {path : Nat} (hdata : m.gDataStep.Formed ports)
    (hpath : (m.pathData path).Formed ports) {cands : List (Candidate S)}
    (hcands : ∀ cand ∈ cands, cand.cnst.clock ≤ (m.pathData path).clk) (modelLog : List Line) :
    ∃ data, m.tryCandidates path cands none modelLog = some { m with gDataStep := data } ∧
      data.Formed ports := by
  simp only [Rows.tryCandidates]
  cases hlast : cands.getLast? with
  | none => exact ⟨m.gDataStep, rfl, hdata⟩
  | some cand =>
      exact ⟨_, rfl, hpath.intercept (hcands cand (List.mem_of_getLast? hlast)) m.gDataStep⟩

/-- The candidate that is accepted: the values of the model fit into the rows. -/
theorem Rows.tryCandidates_some {path clock : Nat} (hlaid : ports.WellLaid)
    (hpath : (m.pathData path).Formed ports) (hclock : clock ≤ (m.pathData path).clk)
    {items : List ModelItem} (hfits : PathData.Fitting ports items) (cands : List (Candidate S)) :
    ∃ data, m.tryCandidates path cands (some clock) (listingLines items) =
        some { m with gDataStep := data, dataMem := data.inputVector } ∧
      data.Formed ports ∧ data.step = m.gDataStep.step ∧ data.clk = clock := by
  obtain ⟨data, hupdate, hformed, hstep, hclk⟩ :=
    (hpath.intercept hclock m.gDataStep).updateInputVectors hlaid (Nat.le_refl clock) hfits
  refine ⟨data, ?_, hformed, hstep, hclk⟩
  rw [Rows.tryCandidates, hupdate]
  rfl

variable [DecidableEq S] {d : Design S} {firstAssign : Nat → Nat} {y : Search S}
  {a : DataAnswer S} {events : List Event}

/-- **One step.** The data of a step are there, and the rows stay well-formed. -/
theorem Rows.Inv.step (h : m.Inv ports opts x) (hlaid : ports.WellLaid) (hwidth : 1 ≤ ports.width)
    (hstep : 1 ≤ opts.step) (hfits : a.Fits ports) (pad : Bool)
    (hmoves : x.Moves d opts firstAssign a.toAnswer y events) :
    ∃ m', m.step opts pad firstAssign d x a y = some m' ∧ m'.Inv ports opts y := by
  have hpoint := h.point
  -- the invariant is carried through by position: `g_data`, `g_data_step`, the
  -- rows of the paths, the selected and the closest paths, the point
  cases hmoves with
  | random hx hlt hsim =>
      obtain ⟨session, -, hclk, rfl, -⟩ := Search.simulate_eq hsim
      obtain ⟨data, hgenerate, hdata, hdataStep, hdataClk⟩ :=
        h.gData.generate hstep hwidth pad a.rand
      rw [hx] at hpoint
      refine ⟨{ m with
        gData := data
        dataMem := data.inputVector
        pathData := Function.update m.pathData x.pathCount data },
        by simp [Rows.step, dump, save, hx, hlt, hgenerate], hdata, h.gDataStep,
        paths_new h.paths hdata hdataClk hdataStep, ?_, ?_, hclk.trans hpoint⟩
      · rintro p ⟨⟩
        exact Nat.lt_succ_self _
      · intro target p hp
        dsimp only [Search.updateAllClosestPaths] at hp
        split at hp
        · cases hp
          exact Nat.lt_succ_self _
        · exact Nat.lt_succ_of_lt (h.closest target p hp)
  | explore hx hge hpath =>
      refine ⟨m, by simp [Rows.step, dump, save, hx, hge], h.gData, h.gDataStep, h.paths, h.path,
        h.closest, trivial⟩
  | finish hx htargets =>
      refine ⟨m, by simp [Rows.step, dump, save, resumed, hx, htargets], h.gData, h.gDataStep,
        h.paths, h.path, h.closest, trivial⟩
  | skip hx htargets hcovered =>
      refine ⟨m, by simp [Rows.step, dump, save, resumed, hx, htargets, hcovered], h.gData,
        h.gDataStep, h.paths, h.path, h.closest, trivial⟩
  | resume hx htargets hcovered hclosest hsim =>
      obtain ⟨session, -, -, rfl, -⟩ := Search.simulate_eq hsim
      obtain ⟨p, hp⟩ := Option.isSome_iff_exists.mp hclosest.1
      rw [hp] at hclosest
      refine ⟨{ m with dataMem := (m.pathData p).inputVector },
        by simp [Rows.step, dump, save, resumed, hx, htargets, hcovered, hp, hclosest.2],
        h.gData, h.gDataStep, h.paths, fun q hq => h.closest _ q hq, h.closest, trivial⟩
  | stay hx htargets hcovered hclosest =>
      have hnone : resumed firstAssign x = none := by
        simp only [resumed, htargets, hcovered, Bool.false_eq_true, if_false]
        split
        · rfl
        · rename_i hne
          exact Option.not_isSome_iff_eq_none.mp fun hsome => hclosest ⟨hsome, hne⟩
      exact ⟨m, by simp [Rows.step, dump, save, hx, hnone], h.gData, h.gDataStep, h.paths, h.path,
        h.closest, trivial⟩
  | iterate hx hpath hcheck hsim =>
      obtain ⟨context, rfl⟩ := Search.errorCheck_eq hcheck
      obtain ⟨session', -, -, rfl, -⟩ := Search.exploreOneStep_eq hsim
      have hlt := h.path _ hpath
      obtain ⟨m', hm', hext⟩ := h.extended hwidth hstep hlt pad a.rand
      refine ⟨m', by simp [Rows.step, dump, save, hx, hpath, hm'], hext.gData ▸ h.gData,
        hext.gDataStep, fun p hp => hext.paths h hp, h.path, h.closest, hext.step⟩
  | @reject target initClk path session hx hpath htry =>
      obtain ⟨hformed, hclk, -⟩ := h.paths path (h.path path hpath)
      have hcands : ∀ cand ∈ a.rank (x.session.branches d (initClk + 1) (x.clk path)),
          cand.cnst.clock ≤ (m.pathData path).clk := by
        intro cand hcand
        rw [hclk]
        exact (Session.clock_of_mem_branches (Answer.mem_rank hcand)).2
      obtain ⟨data, hdata, hdataFormed⟩ :=
        tryCandidates_none h.gDataStep hformed hcands a.modelLog
      refine ⟨{ m with gDataStep := data }, ?_, h.gData, hdataFormed, h.paths, nofun, h.closest,
        trivial⟩
      simp only [Rows.step, dump, save, hx, hpath, acceptedClock, Option.bind_some]
      exact hdata
  | @accept target initClk path cand model session z hx hpath htry haccept =>
      obtain rfl := Search.accept_eq haccept
      obtain ⟨hformed, hclk, -⟩ := h.paths path (h.path path hpath)
      have hclock := (Session.clock_of_mem_branches
        (Answer.mem_rank (Session.tryCandidates_mem htry))).2
      obtain ⟨items, hlisting, hfitting⟩ := hfits
      obtain ⟨data, hdata, hdataFormed, hdataStep, hdataClk⟩ := tryCandidates_some hlaid hformed
        (hclk.symm ▸ hclock) hfitting
        (a.rank (x.session.branches d (initClk + 1) (x.clk path)))
      rw [hx] at hpoint
      refine ⟨{ m with gDataStep := data, dataMem := data.inputVector }, ?_, h.gData, hdataFormed,
        h.paths, h.path, h.closest, hdataStep.trans hpoint, hdataClk, rfl, rfl⟩
      simp only [Rows.step, dump, save, hx, hpath, acceptedClock, Option.bind_some, hlisting]
      exact hdata
  | confirm hx hsim =>
      obtain ⟨session, -, hclk, rfl, -⟩ := Search.simulate_eq hsim
      rw [hx] at hpoint
      obtain ⟨hs, hc, hsimClk, hmem⟩ := hpoint
      exact ⟨m, by simp [Rows.step, dump, save, hx], h.gData, h.gDataStep, h.paths, h.path,
        h.closest, hs, hc, hclk.trans hsimClk, hmem⟩
  | cover hx hsim hlong =>
      obtain ⟨session, -, -, rfl, -⟩ := Search.simulate_eq hsim
      rw [hx] at hpoint
      obtain ⟨hs, hc, -, -⟩ := hpoint
      exact ⟨{ m with pathData := Function.update m.pathData x.pathCount m.gDataStep },
        by simp [Rows.step, dump, save, hx],
        h.newPath h.gDataStep hc hs rfl rfl rfl rfl (.inl rfl)⟩
  | clear hx hsim hlong =>
      obtain ⟨session, -, -, rfl, -⟩ := Search.simulate_eq hsim
      rw [hx] at hpoint
      obtain ⟨hs, hc, -, -⟩ := hpoint
      -- `ClearPath` sets the path object that was just made back to clock 0
      exact ⟨{ m with pathData := Function.update m.pathData x.pathCount m.gDataStep.clearPath },
        by simp [Rows.step, dump, save, hx],
        h.newPath h.gDataStep.clearPath rfl hs rfl (Function.update_idem _ _ _) rfl rfl
          (.inr ⟨_, .inl rfl⟩)⟩
  | @again target clock z _ hx hsim =>
      obtain ⟨session, -, -, rfl, -⟩ := Search.simulate_eq hsim
      rw [hx] at hpoint
      obtain ⟨hs, hc, -, -⟩ := hpoint
      obtain ⟨targets, covered, uncovered, point, hnext, heq⟩ :=
        Search.checkTarget_eq opts firstAssign target
          (Search.newPath clock { x with session := session })
      rw [heq]
      refine ⟨{ m with pathData := Function.update m.pathData x.pathCount m.gDataStep }, ?_,
        h.newPath h.gDataStep hc hs rfl rfl rfl rfl (hnext.imp_right fun hy => ⟨target, .inr hy⟩)⟩
      rcases hnext with rfl | rfl <;> simp [Rows.step, dump, save, hx]
  | @restart target path z _ hx hpath hsim =>
      obtain ⟨session, -, -, rfl, -⟩ := Search.exploreOneStep_eq hsim
      obtain ⟨m', hm', hext⟩ := h.extended hwidth hstep (h.path path hpath) pad a.rand
      obtain ⟨targets, covered, uncovered, point, hnext, heq⟩ :=
        Search.checkTarget_eq opts firstAssign target
          { x with
            clk := Function.update x.clk path (x.clk path + opts.step)
            session := session }
      rw [heq]
      refine ⟨m', by simp [Rows.step, dump, save, hx, hpath, hm'], hext.gData ▸ h.gData,
        hext.gDataStep, fun p hp => hext.paths h hp, h.path, h.closest, ?_⟩
      rcases hnext with rfl | rfl <;> trivial

omit [DecidableEq S] in
theorem Rows.inv_start {printed : Nat → List Char} {session : Session S} {targets : List Nat}
    (hrows : ports.inputVector = []) (dataMem : List Line) :
    (Rows.start ports dataMem).Inv ports opts (Search.start d opts printed session targets) where
  gData := PathData.formed_new hrows
  gDataStep := PathData.formed_new hrows
  paths := fun _ hp => absurd hp (Nat.not_lt_zero _)
  path := nofun
  closest := nofun
  point := rfl

end Inv

/-! ## Runs -/

section Runs

variable [DecidableEq S] {d : Design S} {opts : Options} {enableObsPadding : Bool}
  {firstAssign : Nat → Nat} {printed : Nat → List Char} {session : Session S}
  {targets : List Nat} {dataMem : List Line}
  {answers : List (DataAnswer S)}

theorem Rows.inv_stepRows {ports : CTDataMem} {s t : Search S × Rows} {a : DataAnswer S}
    {events : List Event} (h : s.2.Inv ports opts s.1) (hlaid : ports.WellLaid)
    (hwidth : 1 ≤ ports.width) (hstep : 1 ≤ opts.step) (hfits : a.Fits ports)
    (ht : Search.stepRows d opts enableObsPadding firstAssign s a = some (t, events)) :
    t.2.Inv ports opts t.1 := by
  obtain ⟨⟨y, events'⟩, hy, ht⟩ := Option.bind_eq_some_iff.mp ht
  obtain ⟨m, hm, heq⟩ := Option.map_eq_some_iff.mp ht
  cases heq
  obtain ⟨m', hm', hinv⟩ :=
    h.step hlaid hwidth hstep hfits enableObsPadding (Search.moves_of_step hy)
  obtain rfl : m = m' := Option.some.inj (hm.symm.trans hm')
  exact hinv

/-- **The rows of the paths.** In every state that a run of `step_coverage`
reaches, the data of every path are `clk` rows of `width` digits, and no
operation of the next step reads or writes outside them. -/
theorem stepCoverage_rows {calls : List (Line × Nat)} (hcalls : ∀ c ∈ calls, 1 ≤ c.2)
    (hwidth : 1 ≤ (CTDataMem.layout calls).width) (hstep : 1 ≤ opts.step)
    (hfits : ∀ a ∈ answers, a.Fits (CTDataMem.layout calls)) {x : Search S} {m : Rows}
    {events : List Event}
    (h : observe (Search.stepRows d opts enableObsPadding firstAssign)
      (Search.start d opts printed session targets,
        Rows.start (CTDataMem.layout calls) dataMem) answers = some ((x, m), events)) :
    (m.gData.Formed (CTDataMem.layout calls) ∧ m.gDataStep.Formed (CTDataMem.layout calls) ∧
      ∀ p < x.pathCount, (m.pathData p).Formed (CTDataMem.layout calls)) ∧
    ∀ a : DataAnswer S, a.Fits (CTDataMem.layout calls) →
      (x.step d opts firstAssign a.toAnswer).isSome →
        (Search.stepRows d opts enableObsPadding firstAssign (x, m) a).isSome := by
  have hlaid := CTDataMem.wellLaid_layout hcalls
  have hinv : m.Inv (CTDataMem.layout calls) opts x :=
    observe_inv (fun s : Search S × Rows => s.2.Inv (CTDataMem.layout calls) opts s.1) h
      (Rows.inv_start (CTDataMem.inputVector_layout calls) dataMem) hfits
      fun s a t es hs ha ht => Rows.inv_stepRows hs hlaid hwidth hstep ha ht
  refine ⟨⟨hinv.gData, hinv.gDataStep, fun p hp => (hinv.paths p hp).1⟩, fun a ha hsome => ?_⟩
  obtain ⟨⟨y, events'⟩, hy⟩ := Option.isSome_iff_exists.mp hsome
  obtain ⟨m', hm', -⟩ :=
    hinv.step hlaid hwidth hstep ha enableObsPadding (Search.moves_of_step hy)
  rw [Search.stepRows, hy, Option.bind_some]
  dsimp only
  rw [hm']
  rfl

/-- `g_sim_clk` at the call of `simulate_build_stack` in the step, if it has one. -/
def Search.calledWith (d : Design S) (opts : Options) (firstAssign : Nat → Nat) (x : Search S)
    (a : Answer S) : Option Nat :=
  match x.point with
  | .random i => if i < opts.randomSimNum then some x.session.simClk else none
  | .pick => (Rows.resumed firstAssign x).map fun _ => x.session.simClk
  | .iterate _ =>
      x.path.bind fun path => (x.errorCheck d opts a).map fun _ => x.clk path + opts.step
  | .confirm _ _ | .again _ _ => some x.session.simClk
  | .restart _ => x.path.map fun path => x.clk path + opts.step
  | .search _ _ | .done => none

/-- Where the step simulates, `data.mem` has as many rows as `g_sim_clk` says. -/
def Driven (d : Design S) (opts : Options) (enableObsPadding : Bool) (firstAssign : Nat → Nat)
    (s : Search S × Rows) (a : DataAnswer S) : Prop :=
  ∀ n m, s.1.calledWith d opts firstAssign a.toAnswer = some n →
    s.2.dump opts enableObsPadding firstAssign s.1 a = some m → n = m.dataMem.length

/-- When a closest path is simulated again, the last simulation was of as many
clocks. -/
def ResumesInStep (firstAssign : Nat → Nat) (x : Search S) : Prop :=
  x.point = .pick → ∀ path, Rows.resumed firstAssign x = some path →
    x.session.simClk = x.clk path

omit [DecidableEq S] in
theorem Rows.resumed_eq {x : Search S} {path : Nat} (h : resumed firstAssign x = some path) :
    ∃ target, x.closestPath target = some path := by
  unfold resumed at h
  split at h
  · cases h
  · rename_i target targets _
    split at h
    · cases h
    · split at h
      · cases h
      · exact ⟨target, h⟩

omit [DecidableEq S] in
/-- One step. -/
theorem Rows.Inv.driven_iff {ports : CTDataMem} {s : Search S × Rows} {a : DataAnswer S}
    (h : s.2.Inv ports opts s.1) (hwidth : 1 ≤ ports.width) (hstep : 1 ≤ opts.step) :
    Driven d opts enableObsPadding firstAssign s a ↔ ResumesInStep firstAssign s.1 := by
  obtain ⟨x, m⟩ := s
  have hpoint := h.point
  unfold Driven ResumesInStep Search.calledWith dump
  dsimp only at h hpoint ⊢
  -- the rows that `explore_one_step` dumps are those of the extended path
  have hexplore : ∀ path m', x.path = some path →
      m.exploreOneStep opts enableObsPadding path a.rand = some m' →
      x.clk path + opts.step = m'.dataMem.length := by
    intro path m' hpath hm'
    obtain ⟨m'', hm'', hext⟩ := h.extended hwidth hstep (h.path path hpath) enableObsPadding a.rand
    obtain rfl := Option.some.inj (hm'.symm.trans hm'')
    rw [hext.dataMem, hext.formed.length, hext.clk]
  cases hx : x.point with
  | random i =>
      rw [hx] at hpoint
      refine iff_of_true ?_ nofun
      intro n m' hn hm'
      dsimp only at hn hm'
      split at hn
      · rename_i hlt
        cases hn
        rw [if_pos hlt] at hm'
        obtain ⟨data, hdata, rfl⟩ := Option.map_eq_some_iff.mp hm'
        obtain ⟨data', hdata', hformed, -, hclk⟩ :=
          h.gData.generate hstep hwidth enableObsPadding a.rand
        obtain rfl := Option.some.inj (hdata.symm.trans hdata')
        exact hpoint.trans (hclk.symm.trans hformed.length.symm)
      · cases hn
  | pick =>
      -- the one point whose rows and clocks come from different simulations
      dsimp only
      constructor
      · intro hdriven _ path hpath
        rw [hpath] at hdriven
        have hrows := hdriven _ _ rfl rfl
        obtain ⟨target, hclosest⟩ := Rows.resumed_eq hpath
        obtain ⟨hformed, hclk, -⟩ := h.paths path (h.closest target path hclosest)
        exact hrows.trans (hformed.length.trans hclk)
      · intro hresumes n m' hn hm'
        obtain ⟨path, hpath, rfl⟩ := Option.map_eq_some_iff.mp hn
        rw [hpath] at hm'
        cases hm'
        obtain ⟨target, hclosest⟩ := Rows.resumed_eq hpath
        obtain ⟨hformed, hclk, -⟩ := h.paths path (h.closest target path hclosest)
        exact (hresumes rfl path hpath).trans (hclk.symm.trans hformed.length.symm)
  | iterate target =>
      refine iff_of_true ?_ nofun
      intro n m' hn hm'
      obtain ⟨path, hpath, hn⟩ := Option.bind_eq_some_iff.mp hn
      obtain ⟨_, -, rfl⟩ := Option.map_eq_some_iff.mp hn
      dsimp only at hm'
      rw [hpath] at hm'
      exact hexplore path m' hpath hm'
  | restart target =>
      refine iff_of_true ?_ nofun
      intro n m' hn hm'
      obtain ⟨path, hpath, rfl⟩ := Option.map_eq_some_iff.mp hn
      dsimp only at hm'
      rw [hpath] at hm'
      exact hexplore path m' hpath hm'
  | confirm target clock =>
      rw [hx] at hpoint
      refine iff_of_true ?_ nofun
      rintro n m' ⟨⟩ ⟨⟩
      obtain ⟨-, hclk, hsimClk, hmem⟩ := hpoint
      rw [hmem, h.gDataStep.length, hclk, hsimClk]
  | again target clock =>
      rw [hx] at hpoint
      refine iff_of_true ?_ nofun
      rintro n m' ⟨⟩ ⟨⟩
      obtain ⟨-, hclk, hsimClk, hmem⟩ := hpoint
      rw [hmem, h.gDataStep.length, hclk, hsimClk]
  | search target initClk => exact iff_of_true nofun nofun
  | done => exact iff_of_true nofun nofun

/-- **The driven clocks.** In a run of `step_coverage`, `data.mem` has as many rows
as `g_sim_clk` says at every simulation, if and only if whenever the closest path
of a target is simulated again, the last simulation was of as many clocks as
that path has. -/
theorem stepCoverage_driven_iff {calls : List (Line × Nat)} (hcalls : ∀ c ∈ calls, 1 ≤ c.2)
    (hwidth : 1 ≤ (CTDataMem.layout calls).width) (hstep : 1 ≤ opts.step)
    (hfits : ∀ a ∈ answers, a.Fits (CTDataMem.layout calls)) :
    ObservedSteps (Search.stepRows d opts enableObsPadding firstAssign)
        (Driven d opts enableObsPadding firstAssign)
        (Search.start d opts printed session targets,
          Rows.start (CTDataMem.layout calls) dataMem) answers ↔
      ObservedSteps (Search.stepRows d opts enableObsPadding firstAssign)
        (fun s _ => ResumesInStep firstAssign s.1)
        (Search.start d opts printed session targets,
          Rows.start (CTDataMem.layout calls) dataMem) answers := by
  have hlaid := CTDataMem.wellLaid_layout hcalls
  exact observedSteps_iff (fun s : Search S × Rows => s.2.Inv (CTDataMem.layout calls) opts s.1)
    (Rows.inv_start (CTDataMem.inputVector_layout calls) dataMem) hfits
    (fun s a hs _ => hs.driven_iff hwidth hstep)
    fun s a t es hs ha _ ht => Rows.inv_stepRows hs hlaid hwidth hstep ha ht

end Runs

/-! ## A path that is simulated again -/

def resumeOptions : Options := { nestedOptions with step := 2 }

theorem three_clock_lt : 3 < 2 ^ 32 := by decide

theorem a_chars : ∀ c ∈ ['a'], c ≠ ' ' ∧ c ≠ '(' := by decide

theorem one_ne_nil : ['1'] ≠ [] := List.cons_ne_nil _ _

theorem one_bits : ∀ c ∈ ['1'], c = '0' ∨ c = '1' := by decide

def resumeItems : List ModelItem :=
  [.entry ⟨['a'], 3, ['1'], a_chars, three_clock_lt, one_ne_nil, one_bits⟩]

/-- `a` is zero in all clocks. -/
def resumeAnswer : DataAnswer Bool :=
  { elseAnswer with
    log := [.clock 1, .assign 2, .clock 2, .assign 2, .clock 3, .assign 2, .clock 4, .assign 2,
      .clock 5]
    isCloser := fun _ => true
    rand := fun _ => 0
    modelLog := listingLines resumeItems }

/-- `a` is one in clock 3, as in the model. -/
def takenAnswer : DataAnswer Bool :=
  { resumeAnswer with
    log := [.clock 1, .assign 2, .clock 2, .assign 2, .clock 3, .assign 0, .assign 1, .assign 4,
      .clock 4] }

/-- A random simulation, the alternative that is found with it for the first
target, and its simulation. -/
def resumeAnswers : List (DataAnswer Bool) :=
  List.replicate 5 resumeAnswer ++ List.replicate 2 takenAnswer

def resumePorts : List (Line × Nat) := [("a".toList, 1), ("__obs".toList, 1)]

def resumeStart : Search Bool × Rows :=
  (Search.start nestedDesign resumeOptions (fun _ => ['a']) nestedSession [0, 3],
    Rows.start (CTDataMem.layout resumePorts) [])

theorem resume_fits : resumeAnswer.Fits (CTDataMem.layout resumePorts) := by
  refine ⟨resumeItems, rfl, fun e he sig hsig => ?_⟩
  obtain rfl := List.mem_singleton.mp he
  have hport : (CTDataMem.layout resumePorts).inPorts "a".toList = some ⟨0, 0, 1⟩ := by decide
  obtain rfl := Option.some.inj (hport.symm.trans hsig)
  rfl

theorem resumeAnswers_fit : ∀ a ∈ resumeAnswers ++ [resumeAnswer],
    a.Fits (CTDataMem.layout resumePorts) := by
  intro a ha
  simp only [resumeAnswers, List.mem_append, List.mem_replicate, List.mem_singleton] at ha
  rcases ha with (⟨-, rfl⟩ | ⟨-, rfl⟩) | rfl
  · exact resume_fits
  · exact resume_fits
  · exact resume_fits

/-- Seven steps lead to the second target, whose closest path has four rows; the
last simulation was of three clocks. -/
theorem resume_run :
    ∃ s events, observe (Search.stepRows nestedDesign resumeOptions true id) resumeStart
        resumeAnswers = some (s, events) ∧
      s.1.calledWith nestedDesign resumeOptions id resumeAnswer.toAnswer = some 3 ∧
      (s.2.dump resumeOptions true id s.1 resumeAnswer).map (fun m => m.dataMem.length) =
        some 4 := by
  have hrun : (observe (Search.stepRows nestedDesign resumeOptions true id) resumeStart
      resumeAnswers).map (fun r =>
        (r.1.1.calledWith nestedDesign resumeOptions id resumeAnswer.toAnswer,
          (r.1.2.dump resumeOptions true id r.1.1 resumeAnswer).map fun m => m.dataMem.length)) =
      some (some 3, some 4) := by decide +kernel
  obtain ⟨⟨s, events⟩, hs, heq⟩ := Option.map_eq_some_iff.mp hrun
  obtain ⟨hcalled, hdump⟩ := Prod.mk.inj heq
  exact ⟨s, events, hs, hcalled, hdump⟩

/-- The rows in that run. -/
theorem resume_rows :
    ∃ s events, observe (Search.stepRows nestedDesign resumeOptions true id) resumeStart
        resumeAnswers = some (s, events) ∧
      (s.2.gData.Formed (CTDataMem.layout resumePorts) ∧
        s.2.gDataStep.Formed (CTDataMem.layout resumePorts) ∧
        ∀ p < s.1.pathCount, (s.2.pathData p).Formed (CTDataMem.layout resumePorts)) ∧
      ∀ a : DataAnswer Bool, a.Fits (CTDataMem.layout resumePorts) →
        (s.1.step nestedDesign resumeOptions id a.toAnswer).isSome →
          (Search.stepRows nestedDesign resumeOptions true id s a).isSome := by
  obtain ⟨s, events, hs, -⟩ := resume_run
  exact ⟨s, events, hs, @stepCoverage_rows _ _ _ _ _ _ _ _ _ _ _ resumePorts
    (by decide) (by decide) (by decide)
    (fun a ha => resumeAnswers_fit a (List.mem_append_left _ ha)) _ _ _ hs⟩

theorem resume_driven_iff :
    ObservedSteps (Search.stepRows nestedDesign resumeOptions true id)
        (Driven nestedDesign resumeOptions true id) resumeStart (resumeAnswers ++ [resumeAnswer]) ↔
      ObservedSteps (Search.stepRows nestedDesign resumeOptions true id)
        (fun s _ => ResumesInStep id s.1) resumeStart (resumeAnswers ++ [resumeAnswer]) :=
  @stepCoverage_driven_iff _ _ _ _ _ _ _ _ _ _ _ resumePorts (by decide) (by decide) (by decide)
    resumeAnswers_fit

/-- The eighth step dumps four rows and reads three clocks. -/
theorem resume_not_driven :
    ¬ ObservedSteps (Search.stepRows nestedDesign resumeOptions true id)
      (Driven nestedDesign resumeOptions true id) resumeStart (resumeAnswers ++ [resumeAnswer]) := by
  intro h
  obtain ⟨s, events, hs, hcalled, hdump⟩ := resume_run
  have hdriven := h.of_observe hs
  obtain ⟨m, hm, hlength⟩ := Option.map_eq_some_iff.mp hdump
  have hrows := hdriven 3 m hcalled hm
  omega

end Conquest
