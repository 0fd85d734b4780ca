import CallTargets.Proofs.CutoffOrigin
import CallTargets.Proofs.EnteredCallees
import CallTargets.Proofs.SinglePass

/-!
# Edges that were cut off

An edge that is cut off has been recorded at its call just before.  From there on it is only
lost if a later visit of a block starts from different pointers, takes the callee for another
function and so replaces the exit of the block by one without this edge.  As long as no visit in
the bodies under analysis takes back just this callee of just this call, the edge travels to the
exit of the block, to the summary of its body, through all callers and to the tables; what becomes
of other edges does not matter.  In functions without loops no block is visited twice, so there
every edge arrives.
-/

namespace CallTargets

open Store (Grows WellFormed)

namespace Store

/-- If the first store records `x` as a callee of the call, the second records it too. -/
def Carries (call : ValueId) (x : Loc) (s t : Store) : Prop :=
  x ∈ s.stored (.callees call) → x ∈ t.stored (.callees call)

instance (call : ValueId) (x : Loc) (s t : Store) : Decidable (Carries call x s t) :=
  inferInstanceAs (Decidable (_ → _))

variable {call : ValueId} {x : Loc} {s t u : Store}

theorem Carries.refl (s : Store) : Carries call x s s := id

theorem Carries.trans (hst : Carries call x s t) (htu : Carries call x t u) :
    Carries call x s u := fun hx => htu (hst hx)

theorem Grows.carries (h : Grows s t) : Carries call x s t := h call x

end Store

open Store (Carries)

variable {p : Program} {c : Config} {root f : FuncId} {path : List FuncId} {m : Moment}
  {call : ValueId} {x : Loc}

/-- While the root is analysed, no visit of a block in one of the bodies on the path takes the
callee `x` away from the call, if an earlier visit of the block had it at the end. -/
def Steady (p : Program) (c : Config) (root : FuncId) (path : List FuncId) (call : ValueId)
    (x : Loc) : Prop :=
  ∀ f below init progress progress' g b state state', f :: below <:+ path →
    Happens p c root (f :: below) (.resting init progress) →
    FlowGraph.ofFunction p f = .ok (some g) → Solver.next? g progress.pending = some b →
    (Solver.visit g (storeVisitor p c (enterBody p c)) init progress b).outcome
      { path := f :: below } = .ok progress' →
    progress.states[b]? = some state → progress'.states[b]? = some state' →
    Carries call x state.exit state'.exit

theorem Steady.caller (h : Steady p c root (f :: path) call x) : Steady p c root path call x :=
  fun g below init progress progress' graph b state state' hsuffix =>
    h g below init progress progress' graph b state state' (hsuffix.trans (List.suffix_cons f path))

/-! ## From a moment to the end of the run -/

/-- The analysis comes to an end from a moment on, and if `x` has been recorded at the call by
then, this is part of `summary`. -/
inductive Moment.Feeds (p : Program) (c : Config) (call : ValueId) (x : Loc) (summary : Store) :
    List FuncId → Moment → Prop where
  | entered {f : FuncId} {path : List FuncId} {init : Store} {states : BlockStates Store}
      (hends : plainForward p f Store.join (transferAt p c (f :: path)) Store.height init =
        .ok states) (hcarries : Carries call x (summarize states) summary) :
      Feeds p c call x summary (f :: path) (.entered init)
  | resting {f : FuncId} {path : List FuncId} {init : Store} {g : FlowGraph} {fuel : Nat}
      {progress : Solver.Progress Store} {states : BlockStates Store}
      (hg : FlowGraph.ofFunction p f = .ok (some g))
      (hends : Solver.plainRun g Store.join (transferAt p c (f :: path)) init fuel progress =
        .ok states) (hcarries : Carries call x (summarize states) summary) :
      Feeds p c call x summary (f :: path) (.resting init progress)
  | merging (path : List FuncId) (entry : Store) : Feeds p c call x summary path (.merging entry)
  | within {path : List FuncId} {s s' : Store} {rest : List ValueId}
      (hends : rest.foldlM (fun s v => stepAt p c path v s) s = .ok s')
      (hcarries : Carries call x s' summary) : Feeds p c call x summary path (.within s rest)
  | calling {path : List FuncId} {s before s' : Store} {inner callee : ValueId}
      {args : List ValueId} {inst : Inst} {funcs : FuncSet} (hs : s.WellFormed p c)
      (hinst : p.inst? inner = .ok (some inst)) (hop : inst.op = .call callee args)
      (hfuncs : Call.candidates p c s callee = .ok funcs)
      (hbefore : Call.recordTargets p inner s funcs.toList = .ok before)
      (hends : stepAt p c path inner s = .ok s') (hcarries : Carries call x s' summary) :
      Feeds p c call x summary path (.calling inner args funcs.toList before)

theorem Solver.exists_visit_of_plainRun {ε D : Type} [DecidableEq D] {g : FlowGraph}
    {merge : D → D → D} {transfer : ValueId → D → Failing ε D} {init : D} {fuel : Nat}
    {progress : Progress D} {states : BlockStates D} {b : BlockId}
    (h : plainRun g merge transfer init fuel progress = .ok states)
    (hb : next? g progress.pending = some b) :
    ∃ progress' fuel', plainVisit g merge transfer init progress b = .ok progress' ∧
      plainRun g merge transfer init fuel' progress' = .ok states := by
  cases fuel with
  | zero =>
      simp only [plainRun, hb] at h
      cases h
  | succ fuel =>
      simp only [plainRun, hb] at h
      obtain ⟨progress', hvisit, h⟩ := bind_eq_ok_iff.mp h
      exact ⟨progress', fuel, hvisit, h⟩

namespace Moment.Feeds

variable {summary init : Store} {g : FlowGraph}

theorem start {pending : Std.ExtTreeSet BlockId}
    (h : Feeds p c call x summary (f :: path) (.entered init))
    (hg : FlowGraph.ofFunction p f = .ok (some g))
    (hpending : Solver.pushAll g ∅ g.layout = .ok pending) :
    Feeds p c call x summary (f :: path) (.resting init ⟨pending, ∅⟩) := by
  cases h with
  | entered hends hcarries =>
      obtain ⟨g?, hg?, hends⟩ := bind_eq_ok_iff.mp hends
      rw [Failing.ofExcept_eq_ok_iff, hg] at hg?
      cases hg?
      obtain ⟨pending', hpending', hends⟩ := bind_eq_ok_iff.mp hends
      rw [Failing.ofExcept_eq_ok_iff, hpending] at hpending'
      cases hpending'
      exact .resting hg hends hcarries

theorem visit {progress : Solver.Progress Store} {b : BlockId}
    (h : Feeds p c call x summary (f :: path) (.resting init progress))
    (hg : FlowGraph.ofFunction p f = .ok (some g))
    (hb : Solver.next? g progress.pending = some b) :
    ∃ progress', Solver.plainVisit g Store.join (transferAt p c (f :: path)) init progress b =
      .ok progress' ∧ Feeds p c call x summary (f :: path) (.resting init progress') := by
  cases h with
  | resting hg' hends hcarries =>
      rw [hg] at hg'
      cases hg'
      obtain ⟨progress', fuel', hplain, hends⟩ := Solver.exists_visit_of_plainRun hends hb
      exact ⟨progress', hplain, .resting hg hends hcarries⟩

theorem next {s : Store} {v : ValueId} {rest : List ValueId}
    (h : Feeds p c call x summary path (.within s (v :: rest))) :
    ∃ s', stepAt p c path v s = .ok s' ∧ Feeds p c call x summary path (.within s' rest) := by
  cases h with
  | within hends hcarries =>
      rw [List.foldlM_cons] at hends
      obtain ⟨s', hs', hends⟩ := bind_eq_ok_iff.mp hends
      exact ⟨s', hs', .within hends hcarries⟩

end Moment.Feeds

/-- What the exit of a visited block records at the call is part of the summary of its body,
unless a later visit takes it away. -/
theorem Steady.carries_summarize (hsteady : Steady p c root (f :: path) call x) {init : Store}
    {g : FlowGraph} {fuel : Nat} {progress : Solver.Progress Store} {states : BlockStates Store}
    {b : BlockId} {state : BlockState Store}
    (h : Happens p c root (f :: path) (.resting init progress))
    (hg : FlowGraph.ofFunction p f = .ok (some g)) (hstate : progress.states[b]? = some state)
    (hends : Solver.plainRun g Store.join (transferAt p c (f :: path)) init fuel progress =
      .ok states) : Carries call x state.exit (summarize states) := by
  let Kept : Solver.Progress Store → Prop := fun progress =>
    Happens p c root (f :: path) (.resting init progress) ∧
      ∃ state', progress.states[b]? = some state' ∧ Carries call x state.exit state'.exit
  have hstep : ∀ progress y progress', Kept progress →
      Solver.next? g progress.pending = some y →
      Solver.plainVisit g Store.join (transferAt p c (f :: path)) init progress y =
        .ok progress' → Kept progress' := by
    rintro progress y progress' ⟨hrest, known, hknown, hcarries⟩ hy hplain
    have hvisit := (visit_outcome hrest.isPath g init progress y).trans hplain
    refine ⟨hrest.visit hg hy hvisit, ?_⟩
    rcases Solver.plainVisit_cases hplain with ⟨-, hstates, -⟩ | ⟨entry, exit, -, -, hstates, -⟩
    · exact ⟨known, hstates ▸ hknown, hcarries⟩
    · by_cases hyb : b = y
      · subst hyb
        have hnew : progress'.states[b]? = some ⟨entry, exit⟩ := by simp [hstates]
        refine ⟨_, hnew, hcarries.trans ?_⟩
        exact hsteady _ _ _ _ _ _ _ _ _ List.suffix_rfl hrest hg hy hvisit hknown hnew
      · refine ⟨known, ?_, hcarries⟩
        rw [hstates, Solver.getElem?_insert_of_ne hyb, hknown]
  obtain ⟨last, ⟨-, state', hstate', hcarries⟩, -, rfl⟩ :=
    Solver.plainRun_induction hstep ⟨h, state, hstate, .refl _⟩ hends
  exact hcarries.trans (Grows.exit_summarize hstate').carries

/-- In a successful run, what is recorded at the call at some moment is part of the summary of the
root, if no visit in the bodies on the path takes it back.  The induction follows the run; every
case hands the rest of the computation down, and what the parts of it record up. -/
theorem Happens.feeds (htables : p.Tables) {r : RootResult} (hr : freshRun p c root = .ok r)
    (h : Happens p c root path m) (hsteady : Steady p c root path call x) :
    m.Feeds p c call x r.summary path := by
  induction h with
  | root hfn =>
      obtain ⟨session', hrun⟩ := Halting.outcome_eq_ok_iff.mp hr
      obtain ⟨fn, -, -, hsummary, -⟩ := runBy_eq_ok hrun
      obtain ⟨-, -, hends⟩ := plainForward_of_run rfl hrun
      exact .entered hends (hsummary ▸ .refl _)
  | start h hg hpending ih => exact (ih hsteady).start hg hpending
  | visit h hg hb hvisit ih =>
      obtain ⟨progress', hplain, hfeeds⟩ := (ih hsteady).visit hg hb
      rw [visit_outcome h.isPath, hplain] at hvisit
      cases hvisit
      exact hfeeds
  | merge h hg hb hpreds hentry ih => exact .merging _ _
  | @begin f path init entry g b progress h hg hb hentry ih =>
      obtain ⟨progress', hplain, hfeeds⟩ := (ih hsteady).visit hg hb
      have hrest := h.visit hg hb ((visit_outcome h.isPath _ _ _ _).trans hplain)
      rw [entryState?_outcome h.isPath] at hentry
      rcases Solver.plainVisit_cases hplain with
        ⟨hnone, -⟩ | ⟨entry', exit, hsome, hexit, hstates, -⟩
      · rw [hnone] at hentry
        cases hentry
      · rw [hsome] at hentry
        cases hentry
        have hnew : progress'.states[b]? = some ⟨entry, exit⟩ := by simp [hstates]
        cases hfeeds with
        | resting hg' hends hcarries =>
            rw [hg] at hg'
            cases hg'
            apply Moment.Feeds.within (foldlM_of_mapError hexit)
            exact (hsteady.carries_summarize hrest hg hnew hends).trans hcarries
  | next h hstep ih =>
      obtain ⟨s', hs', hfeeds⟩ := (ih hsteady).next
      rw [hstep] at hs'
      cases hs'
      exact hfeeds
  | call h hinst hop hfuncs hbefore ih =>
      obtain ⟨s', hs', hfeeds⟩ := (ih hsteady).next
      cases hfeeds with
      | within hends hcarries =>
          have hwf := stepAt_wellFormed htables (h.holds htables) hs'
          have hgrows := foldlM_stepAt_grows htables
            (fun _ _ _ ht hstep => stepAt_grows htables h.isPath ht hstep) hwf hends
          exact .calling (h.holds htables) hinst hop hfuncs hbefore hs'
            (hgrows.carries.trans hcarries)
  | enter h hf hfn hbody hcutoff hcontext ih =>
      cases ih hsteady.caller with
      | calling hs hinst hop hfuncs hbefore hends hcarries =>
          obtain ⟨states, hstates, hinner⟩ := stepAt_enters htables h.isPath hs hinst hop hfuncs
            hbefore hends hf ⟨hfn, hbody, hcutoff⟩ hcontext
          have hnotMem := Call.notMem_of_cutoff?_eq_none hcutoff
          exact .entered (plainForward_of_bodyAt h.isPath hfn hnotMem hstates)
            (hinner.carries.trans hcarries)

/-! ## Functions without loops -/

/-- Between two visits of a body without loops, the blocks with states are behind all pending
ones. -/
theorem Happens.passes (hfree : ∀ f fn, p.function f = .ok fn → p.LoopFree fn)
    (h : Happens p c root path m) : ∀ init progress f rest g fn, m = .resting init progress →
      path = f :: rest → FlowGraph.ofFunction p f = .ok (some g) → FlowGraph.Of p f fn g →
      Solver.Covering p fn g progress ∧ Solver.Passes g progress := by
  induction h with
  | root | merge | begin | next | call | enter => exact fun _ _ _ _ _ _ hm => nomatch hm
  | start h hg hpending ih =>
      rintro _ _ _ _ g fn ⟨⟩ ⟨⟩ hg' hof
      rw [hg] at hg'
      cases hg'
      exact ⟨.start hof hpending, fun x hx => by simp at hx⟩
  | visit h hg hb hvisit ih =>
      rintro _ _ _ _ g fn ⟨⟩ ⟨⟩ hg' hof
      rw [hg] at hg'
      cases hg'
      obtain ⟨hcover, hpasses⟩ := ih _ _ _ _ _ fn rfl rfl hg hof
      obtain ⟨reached, hordered⟩ := hof.exists_ordered
      obtain ⟨session', hvisit⟩ := Halting.outcome_eq_ok_iff.mp hvisit
      have hlayout := hordered.layout_subset
      exact ⟨hcover.visit hof hlayout hvisit,
        hpasses.visit (hfree _ fn hof.function_eq) hof hcover hlayout hb hvisit⟩

theorem steady_of_loopFree (hfree : ∀ f fn, p.function f = .ok fn → p.LoopFree fn) :
    Steady p c root path call x := by
  intro f below init progress progress' g b state state' _ h hg hb hvisit hstate
  obtain ⟨fn, hof⟩ := FlowGraph.of_ofFunction hg
  have hpasses := (h.passes hfree _ _ _ _ _ fn rfl rfl hg hof).2
  exact absurd (Solver.mem_states_iff.mpr ⟨state, hstate⟩) (hpasses.notMem hb)

/-! ## The body of the root -/

/-- Whether the next visits of blocks of the root, `fuel` at most, all leave `x` recorded at the
call where it was. -/
def carriesOn (p : Program) (c : Config) (root : FuncId) (call : ValueId) (x : Loc)
    (g : FlowGraph) : (fuel : Nat) → Solver.Progress Store → Bool
  | 0, progress => (Solver.next? g progress.pending).isNone
  | fuel + 1, progress =>
    match Solver.next? g progress.pending with
    | none => true
    | some b =>
      match Solver.plainVisit g Store.join (transferAt p c [root]) ∅ progress b with
      | .error _ => true
      | .ok progress' =>
        (progress.states[b]?.all fun state => progress'.states[b]?.all fun state' =>
          decide (Carries call x state.exit state'.exit)) &&
        carriesOn p c root call x g fuel progress'

/-- The same for all visits of blocks of the root. -/
def rootCarries (p : Program) (c : Config) (root : FuncId) (call : ValueId) (x : Loc)
    (fuel : Nat) : Bool :=
  match FlowGraph.ofFunction p root with
  | .ok (some g) => (Solver.pushAll g ∅ g.layout).toOption.any fun pending =>
      carriesOn p c root call x g fuel ⟨pending, ∅⟩
  | _ => false

theorem carriesOn_step {g : FlowGraph} {fuel : Nat} {progress progress' : Solver.Progress Store}
    {b : BlockId} (h : carriesOn p c root call x g fuel progress = true)
    (hb : Solver.next? g progress.pending = some b)
    (hvisit : Solver.plainVisit g Store.join (transferAt p c [root]) ∅ progress b =
      .ok progress') :
    (∀ state state', progress.states[b]? = some state → progress'.states[b]? = some state' →
      Carries call x state.exit state'.exit) ∧
    ∃ fuel', carriesOn p c root call x g fuel' progress' = true := by
  cases fuel with
  | zero => simp [carriesOn, hb] at h
  | succ fuel =>
      simp only [carriesOn, hb, hvisit, Bool.and_eq_true] at h
      refine ⟨fun state state' hstate hstate' => ?_, fuel, h.2⟩
      simpa [hstate, hstate'] using h.1

theorem Happens.ne_nil (h : Happens p c root path m) : path ≠ [] := by
  induction h with
  | next h hstep ih => exact ih
  | call h hinst hop hfuncs hbefore ih => exact ih
  | _ => exact List.cons_ne_nil _ _

theorem Happens.entered_root {init : Store} (h : Happens p c root [root] (.entered init)) :
    init = ∅ := by
  cases h with
  | root hfn => rfl
  | enter h => exact absurd rfl h.ne_nil

theorem Happens.exists_carriesOn {g : FlowGraph} {fuel : Nat} {pending : Std.ExtTreeSet BlockId}
    (hg : FlowGraph.ofFunction p root = .ok (some g))
    (hpending : Solver.pushAll g ∅ g.layout = .ok pending)
    (hcheck : carriesOn p c root call x g fuel ⟨pending, ∅⟩ = true)
    (h : Happens p c root path m) : ∀ init progress, path = [root] → m = .resting init progress →
      init = ∅ ∧ ∃ fuel', carriesOn p c root call x g fuel' progress = true := by
  induction h with
  | root | merge | begin | next | call | enter => exact fun _ _ _ hm => nomatch hm
  | start h hg' hpending' =>
      rintro _ _ ⟨⟩ ⟨⟩
      rw [hg] at hg'
      cases hg'
      rw [hpending] at hpending'
      cases hpending'
      exact ⟨h.entered_root, fuel, hcheck⟩
  | visit h hg' hb hvisit ih =>
      rintro _ _ ⟨⟩ ⟨⟩
      rw [hg] at hg'
      cases hg'
      obtain ⟨rfl, fuel', hfuel⟩ := ih _ _ rfl rfl
      rw [visit_outcome h.isPath] at hvisit
      exact ⟨rfl, (carriesOn_step hfuel hb hvisit).2⟩

theorem steady_of_rootCarries {fuel : Nat} (hcheck : rootCarries p c root call x fuel = true) :
    Steady p c root [root] call x := by
  intro f below init progress progress' g b state state' hsuffix h hg hb hvisit hstate hstate'
  rcases List.suffix_cons_iff.mp hsuffix with heq | hnil
  · cases heq
    unfold rootCarries at hcheck
    rw [hg] at hcheck
    obtain ⟨pending, hpending, hcheck⟩ := eq_ok_of_toOption_any hcheck
    obtain ⟨rfl, fuel', hfuel⟩ := h.exists_carriesOn hg hpending hcheck _ _ rfl rfl
    rw [visit_outcome h.isPath] at hvisit
    exact (carriesOn_step hfuel hb hvisit).1 state state' hstate hstate'
  · cases List.suffix_nil.mp hnil

/-! ## Cutoffs and edges -/

theorem Results.not_target_of_all {res : Results} {g : FuncId}
    (h : (res.targets? call).all (fun callees => !callees.contains g) = true) :
    ¬ ∃ callees, res.targets? call = some callees ∧ g ∈ callees := by
  rintro ⟨callees, hcallees, hmem⟩
  simp [hcallees, Std.ExtTreeSet.contains_iff_mem.mpr hmem] at h

/-- The exit of a loop stores the address of one function through a pointer that the loop moves,
and then calls through the cell that may or may not have been overwritten by that. -/
def overwritten : List Step :=
  [.define "g" [] .void, .ret none, .define "main" [.int 1] .void, .block (.ofNat 1) "head",
    .block (.ofNat 1) "exit", .block (.ofNat 1) "body", .alloca "a" .ptr, .alloca "b" .ptr,
    .alloca "at" .ptr, .store (.ofNat 2) (.ofNat 5), .store (.ofNat 4) (.ofNat 6), .br (.ofNat 2),
    .positionAtEnd (.ofNat 2), .condBr (.ofNat 3) (.ofNat 4) (.ofNat 3),
    .positionAtEnd (.ofNat 4), .store (.ofNat 5) (.ofNat 6), .br (.ofNat 2),
    .positionAtEnd (.ofNat 3), .load "p" .ptr (.ofNat 6), .store (.ofNat 0) (.ofNat 13),
    .load "q" .ptr (.ofNat 5), .call "" .void (.ofNat 15) [], .ret none]

/-- On the first visit of the exit the call leads to `main`, and is cut off; on the second the
store overwrites both cells, and the edge is gone. -/
theorem cutoff_without_edge : ∃ built res, build overwritten = .ok built ∧
    (analyze built.program { storeUpdate := .strong }).outcome {} = .ok res ∧
    ⟨.ofNat 16, .ofNat 1, .recursive⟩ ∈ res.cutoffs ∧
    ¬ ∃ callees, res.targets? (.ofNat 16) = some callees ∧ .ofNat 1 ∈ callees := by
  obtain ⟨built, hbuilt, hanalyze⟩ : ∃ built, build overwritten = .ok built ∧
      ((analyze built.program { storeUpdate := .strong }).outcome {}).toOption.any (fun res =>
        res.cutoffs.contains ⟨.ofNat 16, .ofNat 1, .recursive⟩ &&
          (res.targets? (.ofNat 16)).all fun callees => !callees.contains (.ofNat 1)) = true :=
    ⟨_, rfl, by decide +kernel⟩
  obtain ⟨res, session, hres, hseen⟩ := Halting.eq_ok_of_outcome_any hanalyze
  obtain ⟨hk, hnone⟩ := (Bool.and_eq_true _ _).mp hseen
  exact ⟨built, res, hbuilt, Halting.outcome_eq_ok_iff.mpr ⟨session, hres⟩, hk,
    Results.not_target_of_all hnone⟩

theorem Happens.lists_callee (htables : p.Tables) {r : RootResult}
    (hr : freshRun p c root = .ok r) {args : List ValueId} {funcs : List FuncId} {before : Store}
    {fn : Function} (h : Happens p c root path (.calling call args funcs before)) (hf : f ∈ funcs)
    (hfn : p.function f = .ok fn) (hsteady : Steady p c root path call (.self fn.value)) :
    r.edges.targets.Lists call f := by
  obtain ⟨session', hrun⟩ := Halting.outcome_eq_ok_iff.mp hr
  obtain ⟨-, -, -, -, hedges⟩ := runBy_eq_ok hrun
  cases h.feeds htables hr hsteady with
  | calling hs hinst hop hfuncs hbefore hends hcarries =>
      obtain ⟨pointees, hpointees, hrecorded⟩ :=
        stepAt_records htables h.isPath hs hinst hop hends
      obtain ⟨pointees', hpointees', hmem⟩ := Call.mem_candidates hfuncs
      rw [hpointees] at hpointees'
      cases hpointees'
      obtain ⟨y, hy, hyf, hintrinsic⟩ := (hmem f).mp (Std.ExtTreeSet.mem_toList.mp hf)
      obtain ⟨fn', hfn', hvalue⟩ := htables.function_of_asFunction? hyf
      rw [hfn] at hfn'
      cases hfn'
      have hstored := hrecorded y hy f hyf hintrinsic
      rw [← hvalue] at hyf hstored
      obtain ⟨site, hsite⟩ := Edges.siteOf_of_inst? hinst
      exact (Edges.hold_of_stored hedges hsite (hcarries hstored) hyf).target

/-- In programs that were built step by step, a cutoff of a successful analysis was an edge when
it was met: some root has come to the call with the callee among its recorded targets.  Wherever
a root comes to the call in this way, the edge is one of the result, too, if no visit of a block
in the bodies under analysis at that moment takes back just this callee of just this call after
an earlier visit of the block has recorded it.  So a cutoff always is an edge of the result in a
program whose functions have no loops. -/
theorem cutoffs_were_edges {steps : List Step} {built : Built} (hbuilt : build steps = .ok built)
    {c : Config} {res : Results} (hres : (analyze built.program c).outcome {} = .ok res)
    {k : Cutoff} (hk : k ∈ res.cutoffs) :
    (∃ root path args funcs before fn, IsRoot built.program c root ∧
      Happens built.program c root path (.calling k.call args funcs before) ∧
      k.callee ∈ funcs ∧ Call.cutoff? c path k.callee = some k.reason ∧
      built.program.function k.callee = .ok fn ∧
      .self fn.value ∈ before.values (.callees k.call)) ∧
    (∀ root path args funcs before fn, IsRoot built.program c root →
      Happens built.program c root path (.calling k.call args funcs before) →
      k.callee ∈ funcs → built.program.function k.callee = .ok fn →
      Steady built.program c root path k.call (.self fn.value) →
      ∃ callees, res.targets? k.call = some callees ∧ k.callee ∈ callees) ∧
    ((∀ f fn, built.program.function f = .ok fn → built.program.LoopFree fn) →
      ∃ callees, res.targets? k.call = some callees ∧ k.callee ∈ callees) := by
  have htables := tables_of_build hbuilt
  obtain ⟨hcombine, hruns⟩ := analyze_eq_ok hres
  obtain ⟨root, hroot, hmem⟩ := (hcombine.cutoffs k).mp hk
  obtain ⟨path, args, funcs, before, fn, hcalling, hf, hfn, -, hcutoff⟩ :=
    arises_of_mem_freshCutoffs hmem
  have hlisted : ∀ root path args funcs before fn, IsRoot built.program c root →
      Happens built.program c root path (.calling k.call args funcs before) →
      k.callee ∈ funcs → built.program.function k.callee = .ok fn →
      Steady built.program c root path k.call (.self fn.value) →
      ∃ callees, res.targets? k.call = some callees ∧ k.callee ∈ callees := by
    intro root path args funcs before fn hroot hcalling hf hfn hsteady
    obtain ⟨r, hr⟩ := hruns root hroot
    have hedge := hcalling.lists_callee htables hr hf hfn hsteady
    exact (hcombine.targets.callees k.call k.callee).mpr ⟨_, ⟨root, r, hroot, hr, rfl⟩, hedge⟩
  refine ⟨⟨root, path, args, funcs, before, fn, hroot, hcalling, hf, hcutoff, hfn, ?_⟩, hlisted,
    fun hfree => hlisted root path args funcs before fn hroot hcalling hf hfn
      (steady_of_loopFree hfree)⟩
  cases hcalling with
  | call h hinst hop hfuncs hbefore => exact Call.recordTargets_mem hbefore hf hfn

/-- One of two branches stores the address of the function itself, which is then called. -/
def forked : List Step :=
  [.define "main" [.int 1] .void, .block (.ofNat 0) "left", .block (.ofNat 0) "right",
    .block (.ofNat 0) "join", .alloca "slot" .ptr, .condBr (.ofNat 1) (.ofNat 1) (.ofNat 2),
    .positionAtEnd (.ofNat 1), .store (.ofNat 0) (.ofNat 2), .br (.ofNat 3),
    .positionAtEnd (.ofNat 2), .br (.ofNat 3), .positionAtEnd (.ofNat 3),
    .load "fp" .ptr (.ofNat 2), .call "" .void (.ofNat 7) [], .ret none]

/-- The same, but at the end `main` also calls itself by name. -/
def retained : List Step :=
  overwritten.dropLast ++ [.call "" .void (.ofNat 2) [], .ret none]

/-- Without loops the edge stays; and where a loop loses the edge of one call, the other call keeps
its own. -/
theorem cutoffs_were_edges_forked :
    (∃ built res, build forked = .ok built ∧ (analyze built.program {}).outcome {} = .ok res ∧
      ⟨.ofNat 8, .ofNat 0, .recursive⟩ ∈ res.cutoffs ∧
      (∀ f fn, built.program.function f = .ok fn → built.program.LoopFree fn) ∧
      ∃ callees, res.targets? (.ofNat 8) = some callees ∧ .ofNat 0 ∈ callees) ∧
    ∃ built res, build retained = .ok built ∧
      (analyze built.program { storeUpdate := .strong }).outcome {} = .ok res ∧
      ⟨.ofNat 16, .ofNat 1, .recursive⟩ ∈ res.cutoffs ∧
      ⟨.ofNat 17, .ofNat 1, .recursive⟩ ∈ res.cutoffs ∧
      (¬ ∃ callees, res.targets? (.ofNat 16) = some callees ∧ .ofNat 1 ∈ callees) ∧
      Steady built.program { storeUpdate := .strong } (.ofNat 1) [.ofNat 1] (.ofNat 17)
        (.self (.ofNat 2)) ∧
      ∃ callees, res.targets? (.ofNat 17) = some callees ∧ .ofNat 1 ∈ callees := by
  constructor
  · obtain ⟨built, hbuilt, hanalyze, hsize, hforward⟩ : ∃ built, build forked = .ok built ∧
        ((analyze built.program {}).outcome {}).toOption.any
          (fun res => res.cutoffs.contains ⟨.ofNat 8, .ofNat 0, .recursive⟩) = true ∧
        built.program.blocks.size = 4 ∧
        ∀ i < 4, (built.program.successors (.ofNat i)).toOption.all fun succs =>
          succs.all fun b => decide ((Ident.ofNat i : BlockId).index < b.index) :=
      ⟨_, rfl, by decide +kernel, rfl, by decide +kernel⟩
    obtain ⟨res, session, hres, hk⟩ := Halting.eq_ok_of_outcome_any hanalyze
    have houtcome := Halting.outcome_eq_ok_iff.mpr ⟨session, hres⟩
    have hfree : ∀ f fn, built.program.function f = .ok fn → built.program.LoopFree fn :=
      fun _ fn _ => Program.loopFree_of_rank Ident.index (hsize ▸ hforward) fn
    exact ⟨built, res, hbuilt, houtcome, hk, hfree,
      (cutoffs_were_edges hbuilt houtcome hk).2.2 hfree⟩
  · obtain ⟨built, fn, hbuilt, hanalyze, hroot, hmayCall, hcarries, hfn, hvalue⟩ : ∃ built fn,
        build retained = .ok built ∧
        ((analyze built.program { storeUpdate := .strong }).outcome {}).toOption.any (fun res =>
          res.cutoffs.contains ⟨.ofNat 16, .ofNat 1, .recursive⟩ &&
            res.cutoffs.contains ⟨.ofNat 17, .ofNat 1, .recursive⟩ &&
            (res.targets? (.ofNat 16)).all fun callees => !callees.contains (.ofNat 1)) = true ∧
        IsRoot built.program { storeUpdate := .strong } (.ofNat 1) ∧
        ⟨[.ofNat 1], .mayCall (.ofNat 17) [.ofNat 1]⟩ ∈
          ((run built.program { storeUpdate := .strong } (.ofNat 1)).final {}).journal ∧
        rootCarries built.program { storeUpdate := .strong } (.ofNat 1) (.ofNat 17)
          (.self (.ofNat 2)) 9 = true ∧
        built.program.function (.ofNat 1) = .ok fn ∧ fn.value = .ofNat 2 :=
      ⟨_, _, rfl, by decide +kernel, ⟨_, rfl, rfl, rfl⟩, by decide +kernel, by decide +kernel,
        rfl, rfl⟩
    obtain ⟨res, session, hres, hseen⟩ := Halting.eq_ok_of_outcome_any hanalyze
    have houtcome := Halting.outcome_eq_ok_iff.mpr ⟨session, hres⟩
    simp only [Bool.and_eq_true, Std.ExtTreeSet.contains_iff_mem] at hseen
    obtain ⟨⟨hlost, hk⟩, hnone⟩ := hseen
    have hsteady := steady_of_rootCarries hcarries
    obtain ⟨args, before, hcalling⟩ := exists_calling_of_mayCall hmayCall
    have hedge := (cutoffs_were_edges hbuilt houtcome hk).2.1 _ _ _ _ _ fn hroot hcalling
      (List.mem_singleton_self _) hfn (hvalue ▸ hsteady)
    exact ⟨built, res, hbuilt, houtcome, hlost, hk, Results.not_target_of_all hnone, hsteady, hedge⟩

end CallTargets
