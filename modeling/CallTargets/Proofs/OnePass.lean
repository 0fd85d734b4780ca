import CallTargets.Proofs.RecordedRuns
import CallTargets.Proofs.SinglePass

/-!
# Every block once, after its predecessors

A run of the solver is told by the blocks that it transfers, a block once for each time.  In a
function without loops all blocks with states come before all pending ones in the visiting order.
So the blocks are transferred in that order, none of them comes again, and the edges between them
lead forward: a block is transferred when all its predecessors have been.
-/

namespace CallTargets

open Relation (ReflTransGen TransGen)

variable {ε σ D : Type}

namespace Solver

/-- The blocks of `route` come one after the other in the visiting order, and after all blocks of
`known`; together with these they are the blocks of `states`. -/
structure Advances (p : Program) (fn : Function) (g : FlowGraph) (known states : BlockStates D)
    (route : List BlockId) : Prop where
  pairwise : route.Pairwise fun a b => g.order.idxOf a < g.order.idxOf b
  later : ∀ a ∈ known, ∀ b ∈ route, g.order.idxOf a < g.order.idxOf b
  mem_iff : ∀ b, b ∈ states ↔ b ∈ known ∨ b ∈ route
  ordered : ∀ b ∈ route, b ∈ g.order
  reaches : ∀ b ∈ route, p.Reaches fn b

variable {g : FlowGraph} {states : BlockStates D} {route : List BlockId} {p : Program}
  {func : FuncId} {fn : Function}

/-- Of two blocks on the way with an edge between them, the first is the one that it leaves. -/
theorem Advances.mem_before {known : BlockStates D} (h : Advances p fn g known states route)
    (hfree : p.LoopFree fn) (hg : FlowGraph.Of p func fn g) {a b : BlockId}
    {before after : List BlockId} (hroute : route = before ++ b :: after) (ha : a ∈ route)
    (hab : p.Branches a b) : a ∈ before := by
  have hpath : ReflTransGen p.Branches g.entry a := (h.reaches a ha).reflTransGen hg.entry_eq
  have hlt : g.order.idxOf a < g.order.idxOf b :=
    hg.idxOf_lt hpath hab fun hback => hfree g.entry a hg.entry_eq hpath (.head' hab hback)
  have hpairwise := h.pairwise
  rw [hroute] at ha hpairwise
  obtain ⟨-, hrest, -⟩ := List.pairwise_append.mp hpairwise
  rcases List.mem_append.mp ha with ha | ha
  · exact ha
  · rcases List.mem_cons.mp ha with rfl | ha
    · exact absurd hlt (lt_irrefl _)
    · exact absurd ((List.pairwise_cons.mp hrest).1 a ha) (lt_asymm hlt)

theorem Advances.nodup {known : BlockStates D} (h : Advances p fn g known states route) :
    route.Nodup := by
  refine h.pairwise.imp ?_
  rintro a b hlt rfl
  exact lt_irrefl _ hlt

/-! ## Runs -/

section Runs

variable [DecidableEq D]

/-- The solver visits the first pending block until none is pending.  On the way it transfers the
blocks of `route`, one after the other. -/
inductive Route (g : FlowGraph) (v : Visitor ε σ D) (init : D) :
    Progress D → σ → List BlockId → BlockStates D → σ → Prop where
  | done {progress : Progress D} {s : σ} (hdone : next? g progress.pending = none) :
      Route g v init progress s [] progress.states s
  | pass {progress progress' : Progress D} {b : BlockId} {s s' t : σ} {route : List BlockId}
      {states : BlockStates D} (hb : next? g progress.pending = some b)
      (hstart : ¬ HasStart g progress.states b)
      (hvisit : visit g v init progress b s = .ok progress' s')
      (hrest : Route g v init progress' s' route states t) :
      Route g v init progress s route states t
  | transfer {progress progress' : Progress D} {b : BlockId} {s s' t : σ} {route : List BlockId}
      {states : BlockStates D} (hb : next? g progress.pending = some b)
      (hstart : HasStart g progress.states b)
      (hvisit : visit g v init progress b s = .ok progress' s')
      (hrest : Route g v init progress' s' route states t) :
      Route g v init progress s (b :: route) states t

variable {v : Visitor ε σ D} {init : D} {progress : Progress D}

theorem exists_route_of_run {fuel : Nat} {s s' : σ}
    (h : run g v init fuel progress s = .ok states s') :
    ∃ route, Route g v init progress s route states s' := by
  induction fuel using Nat.strongRecOn generalizing progress s with
  | ind fuel ih =>
      rcases run_eq_ok_cases h with
        ⟨hdone, rfl, rfl⟩ | ⟨rest, b, visited, t, rfl, hnext, hvisit, hrest⟩
      · exact ⟨[], .done hdone⟩
      · obtain ⟨route, hroute⟩ := ih rest (Nat.lt_succ_self rest) hrest
        by_cases hstart : HasStart g progress.states b
        · exact ⟨b :: route, .transfer hnext hstart hvisit hroute⟩
        · exact ⟨route, .pass hnext hstart hvisit hroute⟩

/-- The instructions that are transferred are those of the blocks on the way. -/
theorem Route.transfers_eq {r r' : Recorded D σ}
    (h : Route g v.recording init progress r route states r') :
    r'.transfers = r.transfers ++ route.flatMap g.insts := by
  induction h with
  | done => simp
  | pass hb hstart hvisit hrest ih =>
      rw [ih, (transfers_of_visit hvisit).2 hstart]
  | transfer hb hstart hvisit hrest ih =>
      rw [ih, (transfers_of_visit hvisit).1 hstart, List.flatMap_cons, List.append_assoc]

/-- The induction follows the run.  What is known and what is pending is told by `Passes`, so a
transferred block is new and comes before all that follows. -/
theorem Route.advances {s s' : σ} (h : Route g v init progress s route states s')
    (hfree : p.LoopFree fn) (hg : FlowGraph.Of p func fn g)
    (hlayout : ∀ b ∈ g.layout, b ∈ g.order) (hcover : Covering p fn g progress)
    (hpasses : Passes g progress) : Advances p fn g progress.states states route := by
  induction h with
  | done => exact ⟨.nil, by simp, by simp, by simp, by simp⟩
  | @pass progress progress' b s s' t route states hb hstart hvisit hrest ih =>
      have hsame : progress'.states = progress.states := by
        rcases visit_eq_ok_cases hvisit with ⟨-, hsame, -⟩ | ⟨hstart', -⟩
        · exact hsame
        · exact absurd hstart' hstart
      rw [← hsame]
      exact ih (hcover.visit hg hlayout hvisit) (hpasses.visit hfree hg hcover hlayout hb hvisit)
  | @transfer progress progress' b s s' t route states hb hstart hvisit hrest ih =>
      obtain ⟨state, hstates⟩ : ∃ state, progress'.states = progress.states.insert b state := by
        rcases visit_eq_ok_cases hvisit with ⟨hnot, -⟩ | ⟨-, hstates, -⟩
        · exact absurd hstart hnot
        · exact hstates
      have hmem : ∀ x, x ∈ progress'.states ↔ x = b ∨ x ∈ progress.states := by
        intro x
        rw [hstates, mem_states_insert_iff]
      have hrest := ih (hcover.visit hg hlayout hvisit)
        (hpasses.visit hfree hg hcover hlayout hb hvisit)
      have hnext := hrest.later b ((hmem b).mpr (Or.inl rfl))
      have hbefore : ∀ a ∈ progress.states, g.order.idxOf a < g.order.idxOf b :=
        fun a ha => hpasses a ha b (mem_of_next? hb).2
      refine ⟨List.pairwise_cons.mpr ⟨hnext, hrest.pairwise⟩, fun a ha => ?_, fun x => ?_,
        List.forall_mem_cons.mpr ⟨(mem_of_next? hb).1, hrest.ordered⟩,
        List.forall_mem_cons.mpr ⟨hcover.reaches hg hlayout hstart, hrest.reaches⟩⟩
      · exact List.forall_mem_cons.mpr
          ⟨hbefore a ha, hrest.later a ((hmem a).mpr (Or.inr ha))⟩
      · rw [hrest.mem_iff, hmem, List.mem_cons]
        tauto

end Runs

end Solver

/-! ## Functions -/

def Program.instsOf (p : Program) (b : BlockId) : List ValueId :=
  ((p.block b).toOption.map fun block => block.insts.toList).getD []

theorem Program.instsOf_eq {p : Program} {b : BlockId} {block : Block}
    (h : p.block b = .ok block) : p.instsOf b = block.insts.toList := by
  simp [instsOf, h, Except.toOption]

section Functions

variable [DecidableEq D]

/-- The solver runs over a function.  On the way it transfers the blocks of `route`, one after the
other, and none in a declaration. -/
inductive Traverses (p : Program) (func : FuncId) (v : Visitor ε σ D) (init : D) :
    σ → List BlockId → BlockStates D → σ → Prop where
  | declared {s : σ} (hg : FlowGraph.ofFunction p func = .ok none) :
      Traverses p func v init s [] ∅ s
  | defined {g : FlowGraph} {pending : Std.ExtTreeSet BlockId} {s s' : σ} {route : List BlockId}
      {states : BlockStates D} (hg : FlowGraph.ofFunction p func = .ok (some g))
      (hpending : Solver.pushAll g ∅ g.layout = .ok pending)
      (hroute : Solver.Route g v init ⟨pending, ∅⟩ s route states s') :
      Traverses p func v init s route states s'

variable {p : Program} {func : FuncId} {fn : Function} {v : Visitor ε σ D} {height : Nat} {init : D}
  {states : BlockStates D}

theorem exists_traverses_of_forward {s s' : σ}
    (h : forward p func v height init s = .ok states s') :
    ∃ route, Traverses p func v init s route states s' := by
  obtain ⟨g?, s₁, hread, h⟩ := Halting.bind_eq_ok_iff.mp h
  obtain ⟨hg, rfl⟩ := Halting.ofExcept_eq_ok_iff.mp hread
  cases g? with
  | none =>
      obtain ⟨rfl, rfl⟩ := Halting.pure_eq_ok_iff.mp h
      exact ⟨[], .declared hg⟩
  | some g =>
      obtain ⟨pending, s₂, hpush, h⟩ := Halting.bind_eq_ok_iff.mp h
      obtain ⟨hpending, rfl⟩ := Halting.ofExcept_eq_ok_iff.mp hpush
      obtain ⟨route, hroute⟩ := Solver.exists_route_of_run h
      exact ⟨route, .defined hg hpending hroute⟩

/-- In a function without loops every block with states is transferred once and no other block is:
the visitor is called for the instructions of these blocks, each in its turn, and for no other.
When a block is transferred, all its predecessors that are given states have been. -/
theorem analysed_in_one_pass (hfn : p.function func = .ok fn) (hfree : p.LoopFree fn) {s s' : σ}
    (h : forward p func v height init s = .ok states s') :
    ∃ r route, forward p func v.recording height init ⟨[], s⟩ = .ok states r ∧ r.state = s' ∧
      Traverses p func v.recording init ⟨[], s⟩ route states r ∧
      route.Nodup ∧ (∀ b, b ∈ route ↔ b ∈ states) ∧ r.transfers = route.flatMap p.instsOf ∧
      ∀ before b after, route = before ++ b :: after →
        ∀ a ∈ states, p.Branches a b → a ∈ before := by
  obtain ⟨r, hr, hstate⟩ := (v.forward_isRecording init p func height).eq_ok (r := ⟨[], s⟩) h
  obtain ⟨route, htraverses⟩ := exists_traverses_of_forward hr
  refine ⟨r, route, hr, hstate, htraverses, ?_⟩
  cases htraverses with
  | declared hg => exact ⟨.nil, by simp, rfl, by simp⟩
  | @defined g pending _ _ _ _ hg hpending hroute =>
      obtain ⟨fn', hof⟩ := FlowGraph.of_ofFunction hg
      have hfn' := hof.function_eq
      rw [hfn] at hfn'
      cases hfn'
      have hadvances := hroute.advances hfree hof (Solver.mem_of_pushAll hpending).1
        (.start hof hpending) (by simp [Solver.Passes])
      have hmem : ∀ b, b ∈ states ↔ b ∈ route := by simpa using hadvances.mem_iff
      have hinsts : route.flatMap g.insts = route.flatMap p.instsOf := by
        refine List.flatMap_congr fun b hb => ?_
        obtain ⟨block, hblock, hinsts⟩ := hof.insts_eq b (hadvances.ordered b hb)
        rw [hinsts, Program.instsOf_eq hblock]
      refine ⟨hadvances.nodup, fun b => (hmem b).symm, ?_, fun before b after hroute a ha hab => ?_⟩
      · rw [hroute.transfers_eq, hinsts]
        rfl
      · exact hadvances.mem_before hfree hof hroute ((hmem a).mp ha) hab

end Functions

/-- Two branches that meet in a block which stands before both of them, and to which a block that
is never reached leads, too. -/
def diamond : List Step :=
  [.define "f" [.int 1] .void, .block (.ofNat 0) "meet", .block (.ofNat 0) "left",
    .block (.ofNat 0) "right", .block (.ofNat 0) "dead", .condBr (.ofNat 1) (.ofNat 2) (.ofNat 3),
    .positionAtEnd (.ofNat 1), .ret none, .positionAtEnd (.ofNat 2), .br (.ofNat 1),
    .positionAtEnd (.ofNat 3), .br (.ofNat 1), .positionAtEnd (.ofNat 4), .br (.ofNat 1)]

/-- The instruction of the block where the branches meet is transferred last, and once. -/
theorem analysed_in_one_pass_diamond : ∃ built fn states r route, build diamond = .ok built ∧
    built.program.function (.ofNat 0) = .ok fn ∧ built.program.LoopFree fn ∧
    forward built.program (.ofNat 0) (sightings .some none) ValueSet.height ∅ () =
      .ok states () ∧
    forward built.program (.ofNat 0) (sightings .some none).recording ValueSet.height ∅ ⟨[], ()⟩ =
      .ok states r ∧
    r.transfers = [.ofNat 2, .ofNat 5, .ofNat 4, .ofNat 3] ∧
    route.flatMap built.program.instsOf = [.ofNat 2, .ofNat 5, .ofNat 4, .ofNat 3] ∧
    ∃ before after, route = before ++ .ofNat 1 :: after ∧ .ofNat 2 ∈ before ∧
      .ofNat 3 ∈ before := by
  let rank : BlockId → Nat := fun b => if b = .ofNat 1 then 5 else b.index
  obtain ⟨built, fn, hbuilt, hfn, hsize, hranks, hleft, hright, hrun, htransfers⟩ : ∃ built fn,
      build diamond = .ok built ∧ built.program.function (.ofNat 0) = .ok fn ∧
      built.program.blocks.size = 5 ∧
      (∀ i < 5, (built.program.successors (.ofNat i)).toOption.all fun succs =>
        succs.all fun b => decide (rank (.ofNat i) < rank b)) ∧
      built.program.successors (.ofNat 2) = .ok [.ofNat 1] ∧
      built.program.successors (.ofNat 3) = .ok [.ofNat 1] ∧
      ((forward built.program (.ofNat 0) (sightings .some none) ValueSet.height ∅).outcome
        ()).toOption.any (fun states => states.contains (.ofNat 1) && states.contains (.ofNat 2) &&
          states.contains (.ofNat 3)) = true ∧
      (match forward built.program (.ofNat 0) (sightings .some none).recording ValueSet.height ∅
          ⟨[], ()⟩ with
        | .ok _ r => decide (r.transfers = [.ofNat 2, .ofNat 5, .ofNat 4, .ofNat 3])
        | .error _ _ => false) = true :=
    ⟨_, _, rfl, rfl, rfl, by decide +kernel, rfl, rfl, by decide +kernel, by decide +kernel⟩
  obtain ⟨states, ⟨⟩, hstates, hkeys⟩ := Halting.eq_ok_of_outcome_any hrun
  simp only [Bool.and_eq_true, Std.ExtTreeMap.contains_iff_mem] at hkeys
  obtain ⟨⟨hmeet, hin⟩, hin'⟩ := hkeys
  have hfree := Program.loopFree_of_rank rank (hsize ▸ hranks) fn
  obtain ⟨r, route, hr, -, -, -, hmem, hinsts, hbefore⟩ := analysed_in_one_pass hfn hfree hstates
  rw [hr] at htransfers
  have htransfers := of_decide_eq_true htransfers
  obtain ⟨before, after, hroute⟩ := List.append_of_mem ((hmem _).mpr hmeet)
  exact ⟨built, fn, states, r, route, hbuilt, hfn, hfree, hstates, hr, htransfers,
    hinsts ▸ htransfers, before, after, hroute,
    hbefore _ _ _ hroute _ hin ⟨_, hleft, by simp⟩,
    hbefore _ _ _ hroute _ hin' ⟨_, hright, by simp⟩⟩

end CallTargets
