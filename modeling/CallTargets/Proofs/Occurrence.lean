import CallTargets.Proofs.RunEquations
import CallTargets.Proofs.TransferInvariant

/-!
# The stores that occur

An analysis of a root is followed moment by moment, at every depth of nested calls: a
body is entered, blocks are visited, exits of predecessors are merged, instructions are
transferred one after the other, and a call records its candidates before it enters
them.  Every store that is shown at such a moment satisfies the invariant of stores.
-/

namespace CallTargets

open Store (WellFormed)

/-- A moment in the analysis of a function. -/
inductive Moment where
  /-- The body is about to be analysed from a store. -/
  | entered (init : Store)
  /-- The solver is between two visits, or done. -/
  | resting (init : Store) (progress : Solver.Progress Store)
  /-- The exits of some predecessors of a block have been merged. -/
  | merging (entry : Store)
  /-- Some instructions of a block are yet to come. -/
  | within (s : Store) (rest : List ValueId)
  /-- A call with the given arguments has recorded its candidates. -/
  | calling (call : ValueId) (args : List ValueId) (funcs : List FuncId) (before : Store)

namespace Moment

/-- The stores to be seen at a moment.  Between visits these are the states of the
visited blocks and their summary. -/
inductive Shows : Moment → Store → Prop where
  | entered (init : Store) : Shows (.entered init) init
  | entry {init : Store} {progress : Solver.Progress Store} {b : BlockId}
      {state : BlockState Store} (h : progress.states[b]? = some state) :
      Shows (.resting init progress) state.entry
  | exit {init : Store} {progress : Solver.Progress Store} {b : BlockId}
      {state : BlockState Store} (h : progress.states[b]? = some state) :
      Shows (.resting init progress) state.exit
  | summary (init : Store) (progress : Solver.Progress Store) :
      Shows (.resting init progress) (summarize progress.states)
  | merging (entry : Store) : Shows (.merging entry) entry
  | within (s : Store) (rest : List ValueId) : Shows (.within s rest) s
  | calling (call : ValueId) (args : List ValueId) (funcs : List FuncId) (before : Store) :
      Shows (.calling call args funcs before) before

/-- All that a moment holds on to satisfies `P`. -/
def Holds (P : Store → Prop) : Moment → Prop
  | .entered init => P init
  | .resting init progress => P init ∧ StatesHold P progress.states
  | .merging entry => P entry
  | .within s _ => P s
  | .calling _ _ _ before => P before

end Moment

/-- What happens while a root is analysed, with the functions under analysis at the
time, the innermost first. -/
inductive Happens (p : Program) (c : Config) (root : FuncId) : List FuncId → Moment → Prop where
  | root {fn : Function} (hfn : p.function root = .ok fn) : Happens p c root [root] (.entered ∅)
  | start {f : FuncId} {path : List FuncId} {init : Store} {g : FlowGraph}
      {pending : Std.ExtTreeSet BlockId} (h : Happens p c root (f :: path) (.entered init))
      (hg : FlowGraph.ofFunction p f = .ok (some g))
      (hpending : Solver.pushAll g ∅ g.layout = .ok pending) :
      Happens p c root (f :: path) (.resting init ⟨pending, ∅⟩)
  | visit {f : FuncId} {path : List FuncId} {init : Store} {g : FlowGraph} {b : BlockId}
      {progress progress' : Solver.Progress Store}
      (h : Happens p c root (f :: path) (.resting init progress))
      (hg : FlowGraph.ofFunction p f = .ok (some g))
      (hb : Solver.next? g progress.pending = some b)
      (hvisit : (Solver.visit g (storeVisitor p c (enterBody p c)) init progress b).outcome
        { path := f :: path } = .ok progress') :
      Happens p c root (f :: path) (.resting init progress')
  | merge {f : FuncId} {path : List FuncId} {init entry : Store} {g : FlowGraph} {b : BlockId}
      {progress : Solver.Progress Store} {preds : List BlockId}
      (h : Happens p c root (f :: path) (.resting init progress))
      (hg : FlowGraph.ofFunction p f = .ok (some g))
      (hb : Solver.next? g progress.pending = some b) (hpreds : preds <+: g.preds b)
      (hentry : (preds.foldlM
        (Solver.mergePred (storeVisitor p c (enterBody p c)) progress.states)
        (Solver.start? g init progress.states b)).outcome { path := f :: path } =
          .ok (some entry)) :
      Happens p c root (f :: path) (.merging entry)
  | begin {f : FuncId} {path : List FuncId} {init entry : Store} {g : FlowGraph} {b : BlockId}
      {progress : Solver.Progress Store}
      (h : Happens p c root (f :: path) (.resting init progress))
      (hg : FlowGraph.ofFunction p f = .ok (some g))
      (hb : Solver.next? g progress.pending = some b)
      (hentry : (Solver.entryState? g (storeVisitor p c (enterBody p c)) init progress.states
        b).outcome { path := f :: path } = .ok (some entry)) :
      Happens p c root (f :: path) (.within entry (g.insts b))
  | next {path : List FuncId} {s s' : Store} {inst : ValueId} {rest : List ValueId}
      (h : Happens p c root path (.within s (inst :: rest)))
      (hstep : stepAt p c path inst s = .ok s') : Happens p c root path (.within s' rest)
  | call {path : List FuncId} {s before : Store} {call callee : ValueId} {args : List ValueId}
      {rest : List ValueId} {inst : Inst} {funcs : FuncSet}
      (h : Happens p c root path (.within s (call :: rest)))
      (hinst : p.inst? call = .ok (some inst)) (hop : inst.op = .call callee args)
      (hfuncs : Call.candidates p c s callee = .ok funcs)
      (hbefore : Call.recordTargets p call s funcs.toList = .ok before) :
      Happens p c root path (.calling call args funcs.toList before)
  | enter {path : List FuncId} {before context : Store} {call : ValueId} {args : List ValueId}
      {funcs : List FuncId} {f : FuncId} {fn : Function}
      (h : Happens p c root path (.calling call args funcs before)) (hf : f ∈ funcs)
      (hfn : p.function f = .ok fn) (hbody : fn.isDeclaration = false)
      (hcutoff : Call.cutoff? c path f = none)
      (hcontext : Call.bindParams p before fn.params args = .ok context) :
      Happens p c root (f :: path) (.entered context)

/-! ## The invariant at every moment -/

variable {p : Program} {c : Config} {path : List FuncId} {root : FuncId} {m : Moment}

theorem Halting.Keeps.of_outcome {α : Type} {P : Store → Prop} {Q : α → Prop} {ε : Type}
    {x : Analysis ε α} (h : Halting.Keeps (Session.Remembers P path) Q x) {a : α}
    (ha : x.outcome { path } = .ok a) : Q a := by
  obtain ⟨session', hx⟩ := Halting.outcome_eq_ok_iff.mp ha
  exact h.of_eq_ok (.fresh P path) hx

theorem stepAt_wellFormed (htables : p.Tables) {s s' : Store} (hs : s.WellFormed p c)
    {inst : ValueId} (h : stepAt p c path inst s = .ok s') : s'.WellFormed p c :=
  (transferInst_keeps htables (enterBody_enterable htables path) inst hs).of_outcome h

theorem bodyAt_wellFormed (htables : p.Tables) {f : FuncId} {init : Store}
    (hinit : init.WellFormed p c) {states : BlockStates Store}
    (h : bodyAt p c path f init = .ok states) : StatesHold (WellFormed p c) states :=
  (analyzeBody_keeps htables _ _ path f hinit).of_outcome h

theorem Moment.Holds.of_shows {P : Store → Prop} {s : Store} (h : m.Holds P)
    (hP : ∀ states, StatesHold P states → P (summarize states)) (hs : m.Shows s) : P s := by
  cases hs with
  | entered => exact h
  | entry hstate => exact (h.2 _ _ hstate).1
  | exit hstate => exact (h.2 _ _ hstate).2
  | summary => exact hP _ h.2
  | merging => exact h
  | within => exact h
  | calling => exact h

namespace Happens

theorem isPath (h : Happens p c root path m) : IsPath p path := by
  induction h with
  | root hfn => exact (IsPath.nil p).cons hfn (by simp)
  | start h hg hpending ih => exact ih
  | visit h hg hb hvisit ih => exact ih
  | merge h hg hb hpreds hentry ih => exact ih
  | begin h hg hb hentry ih => exact ih
  | next h hstep ih => exact ih
  | call h hinst hop hfuncs hbefore ih => exact ih
  | enter h hf hfn hbody hcutoff hcontext ih =>
      exact ih.cons hfn (Call.notMem_of_cutoff?_eq_none hcutoff)

theorem holds (htables : p.Tables) (h : Happens p c root path m) :
    m.Holds (WellFormed p c) := by
  have hvisitor := fun path => storeVisitor_keeps (c := c) htables
    (enterBody_enterable htables path)
  induction h with
  | root hfn => exact WellFormed.empty
  | start h hg hpending ih => exact ⟨ih, .empty⟩
  | visit h hg hb hvisit ih =>
      exact ⟨ih.1, ((hvisitor _).visit ih.1 ih.2 _).of_outcome hvisit⟩
  | merge h hg hb hpreds hentry ih =>
      exact ((hvisitor _).merges ih.1 ih.2 _ _).of_outcome hentry _ rfl
  | begin h hg hb hentry ih =>
      exact ((hvisitor _).merges ih.1 ih.2 _ _).of_outcome hentry _ rfl
  | next h hstep ih => exact stepAt_wellFormed htables ih hstep
  | call h hinst hop hfuncs hbefore ih =>
      exact Call.recordTargets_wellFormed htables ih hinst hop hfuncs hbefore
  | enter h hf hfn hbody hcutoff hcontext ih =>
      exact (Call.bindParams_rewritten ih hcontext).wellFormed ih

end Happens

/-! ## What a run returns has happened -/

theorem visit_outcome (hpath : IsPath p path) (g : FlowGraph) (init : Store)
    (progress : Solver.Progress Store) (b : BlockId) :
    (Solver.visit g (storeVisitor p c (enterBody p c)) init progress b).outcome { path } =
      Solver.plainVisit g Store.join (transferAt p c path) init progress b := by
  have hroom : p.functions.size ≤ p.functions.size + 1 + path.length := by omega
  have hcomputes := (storeVisitor_functional (c := c) hpath hroom).computes.visit g init progress b
  obtain ⟨s, t, -, hvisit, -⟩ := hcomputes { path } { path } ⟨rfl, rfl⟩
  exact Halting.outcome_of_eq hvisit

/-- The states of a body are those of a moment at which the solver rests. -/
theorem Happens.resting_of_plainForward {f : FuncId} {init : Store} {states : BlockStates Store}
    (h : Happens p c root (f :: path) (.entered init))
    (hplain : plainForward p f Store.join (transferAt p c (f :: path)) Store.height init =
      .ok states) :
    states = ∅ ∨ ∃ progress, Happens p c root (f :: path) (.resting init progress) ∧
      progress.states = states := by
  obtain ⟨g?, hg, hplain⟩ := bind_eq_ok_iff.mp hplain
  rw [Failing.ofExcept_eq_ok_iff] at hg
  cases g? with
  | none =>
      cases hplain
      exact Or.inl rfl
  | some g =>
      obtain ⟨pending, hpending, hplain⟩ := bind_eq_ok_iff.mp hplain
      rw [Failing.ofExcept_eq_ok_iff] at hpending
      obtain ⟨last, hlast, -, hstates⟩ := Solver.plainRun_induction
        (P := fun progress => Happens p c root (f :: path) (.resting init progress))
        (fun progress b progress' hprogress hb hvisit =>
          hprogress.visit hg hb ((visit_outcome h.isPath g init progress b).trans hvisit))
        (h.start hg hpending) hplain
      exact Or.inr ⟨last, hlast, hstates⟩

theorem exists_shows_of_run {r : RootResult} {session session' : Session}
    (hrest : session.path = []) (h : run p c root session = .ok r session') {b : BlockId}
    {state : BlockState Store} (hstate : r.states[b]? = some state) :
    ∃ m, Happens p c root [root] m ∧ m.Shows state.entry ∧ m.Shows state.exit := by
  obtain ⟨fn, hfn, hplain⟩ := plainForward_of_run hrest h
  rcases Happens.resting_of_plainForward (.root hfn) hplain with hempty | ⟨progress, hprogress, heq⟩
  · simp [hempty] at hstate
  · rw [← heq] at hstate
    exact ⟨_, hprogress, .entry hstate, .exit hstate⟩

/-- In programs that were built step by step, every store that occurs while a root is
analysed satisfies the invariant of stores.  The states that a run returns are among the
stores that occur; its summary and the stores that its journal mentions satisfy the
invariant, too. -/
theorem occurring_stores_wellFormed {steps : List Step} {built : Built}
    (hbuilt : build steps = .ok built) (c : Config) (root : FuncId) :
    (∀ path m s, Happens built.program c root path m → m.Shows s →
      s.WellFormed built.program c) ∧
    (∀ session session' r, session.path = [] →
      run built.program c root session = .ok r session' →
        ∀ (b : BlockId) (state : BlockState Store), r.states[b]? = some state →
          ∃ m, Happens built.program c root [root] m ∧ m.Shows state.entry ∧ m.Shows state.exit) ∧
    Halting.Keeps (Session.Remembers (WellFormed built.program c) [])
      (fun r => r.summary.WellFormed built.program c) (run built.program c root) := by
  have htables := tables_of_build hbuilt
  refine ⟨fun path m s h hs => ?_, ?_, ?_⟩
  · exact (h.holds htables).of_shows (fun _ hstates => summarize_wellFormed hstates) hs
  · intro session session' r hrest h b state hstate
    exact exists_shows_of_run hrest h hstate
  · exact (run_keeps htables root).imp (fun r hr => hr.2)

theorem occurring_stores_wellFormed_relay : ∃ built r session' state,
    build relay = .ok built ∧ run built.program {} (.ofNat 1) {} = .ok r session' ∧
    r.states[(Ident.ofNat 1 : BlockId)]? = some state ∧
    state.exit.contains (.callees (.ofNat 7)) = true ∧
    state.exit.WellFormed built.program {} ∧ r.summary.WellFormed built.program {} := by
  let holdsEdge : RootResult → Bool := fun r =>
    r.states[(Ident.ofNat 1 : BlockId)]?.any
      (fun state => state.exit.contains (.callees (.ofNat 7)))
  obtain ⟨built, hbuilt, hrun⟩ : ∃ built, build relay = .ok built ∧
      ((run built.program {} (.ofNat 1)).outcome {}).toOption.any holdsEdge = true :=
    ⟨_, rfl, by decide +kernel⟩
  obtain ⟨r, session', hr, hedge⟩ := Halting.eq_ok_of_outcome_any hrun
  obtain ⟨state, hstate, hedge⟩ := (Option.any_eq_true _ _).mp hedge
  obtain ⟨hshown, hreturned, hkept⟩ := occurring_stores_wellFormed hbuilt {} (.ofNat 1)
  obtain ⟨m, hm, -, hexit⟩ := hreturned {} session' r rfl hr _ state hstate
  exact ⟨built, r, session', state, hbuilt, hr, hstate, hedge, hshown _ m _ hm hexit,
    hkept.of_eq_ok (.fresh _ []) hr⟩

end CallTargets
