import CallTargets.Flow.Recording
import CallTargets.Program.Builder
import CallTargets.Proofs.Equations

/-!
# The least solution

When transfers are total and monotone, the entry state of a visit never exceeds what any
other account of the equations gives to the block.  So the states that are left when no
block is pending are the least solution, and the choice of the pending block that is
visited next has no say in them.
-/

namespace CallTargets

variable {ε σ D : Type}

instance [DecidableEq D] (merge : D → D → D) (a b : D) : Decidable (Below merge a b) :=
  inferInstanceAs (Decidable (merge b a = b))

namespace IsSemilattice

variable {merge : D → D → D} {a b c : D}

theorem below_trans (h : IsSemilattice merge) (hab : Below merge a b) (hbc : Below merge b c) :
    Below merge a c := by
  calc
    merge c a = merge (merge c b) a := by rw [hbc]
    _ = merge c (merge b a) := h.assoc c b a
    _ = c := by rw [hab, hbc]

theorem below_antisymm (h : IsSemilattice merge) (hab : Below merge a b)
    (hba : Below merge b a) : a = b := by
  calc
    a = merge a b := hba.symm
    _ = merge b a := h.comm a b
    _ = b := hab

theorem merge_below (h : IsSemilattice merge) (hac : Below merge a c) (hbc : Below merge b c) :
    Below merge (merge a b) c := by
  calc
    merge c (merge a b) = merge (merge c a) b := (h.assoc c a b).symm
    _ = c := by rw [hac, hbc]

end IsSemilattice

/-- The transfer of a sequence of instructions, none of which can fail. -/
def transferred (transfer : ValueId → D → D) (insts : List ValueId) (d : D) : D :=
  insts.foldl (fun d inst => transfer inst d) d

theorem transferred_mono {merge : D → D → D} {transfer : ValueId → D → D}
    (hmono : ∀ inst a b, Below merge a b → Below merge (transfer inst a) (transfer inst b))
    (insts : List ValueId) {a b : D} (hab : Below merge a b) :
    Below merge (transferred transfer insts a) (transferred transfer insts b) := by
  induction insts generalizing a b with
  | nil => exact hab
  | cons inst insts ih => exact ih (hmono inst a b hab)

namespace Solver

theorem plainExit_eq {g : FlowGraph} {transfer : ValueId → D → D} {b : BlockId} {entry exit : D}
    (h : plainExit g (fun inst d => (.ok (transfer inst d) : Failing ε D)) b entry = .ok exit) :
    exit = transferred transfer (g.insts b) entry := by
  have hpure : plainExit g (fun inst d => (.ok (transfer inst d) : Failing ε D)) b entry =
      .ok (transferred transfer (g.insts b) entry) := List.foldlM_pure
  rw [hpure] at h
  cases h
  rfl

/-! ## Visits in any order -/

section Visits

variable [DecidableEq D]

/-- Pending blocks are visited one after the other, in any order, until none is left. -/
inductive Visits (g : FlowGraph) (v : Visitor ε σ D) (init : D) :
    Progress D → σ → BlockStates D → σ → Prop where
  | done {progress : Progress D} {s : σ} (hdone : ∀ b, b ∉ progress.pending) :
      Visits g v init progress s progress.states s
  | visit {progress progress' : Progress D} {b : BlockId} {s s' t : σ} {states : BlockStates D}
      (hb : b ∈ progress.pending) (hvisit : visit g v init progress b s = .ok progress' s')
      (hrest : Visits g v init progress' s' states t) : Visits g v init progress s states t

variable {g : FlowGraph} {v : Visitor ε σ D} {I : σ → Prop}
  {transfer : ValueId → D → Failing ε D} {init : D} {progress progress' : Progress D}
  {states : BlockStates D} {s s' : σ}

theorem plainVisit_of_visit (hv : v.Functional I transfer) (hs : I s) {b : BlockId}
    (h : visit g v init progress b s = .ok progress' s') :
    plainVisit g v.merge transfer init progress b = .ok progress' ∧ I s' := by
  obtain ⟨t, t', ⟨-, ht⟩, hplain, -⟩ := hv.computes.visit g init progress b s s ⟨rfl, hs⟩
  rw [h] at hplain
  obtain ⟨hout, rfl⟩ := Halting.ofFailing_eq_ok_iff.mp hplain.symm
  exact ⟨hout, ht⟩

/-- What every visit of a pending block keeps holds when no block is pending any more. -/
theorem Visits.induction (hv : v.Functional I transfer) {P : Progress D → Prop}
    (hstep : ∀ progress b progress', P progress → b ∈ progress.pending →
      plainVisit g v.merge transfer init progress b = .ok progress' → P progress')
    (h : Visits g v init progress s states s') (hs : I s) (hP : P progress) :
    ∃ last, P last ∧ (∀ b, b ∉ last.pending) ∧ last.states = states := by
  induction h with
  | done hdone => exact ⟨_, hP, hdone, rfl⟩
  | visit hb hvisit hrest ih =>
      obtain ⟨hplain, hs'⟩ := plainVisit_of_visit hv hs hvisit
      exact ih hs' (hstep _ _ _ hP hb hplain)

theorem visits_of_next?_eq_none (hordered : ∀ b ∈ progress.pending, b ∈ g.order)
    (hnext : next? g progress.pending = none) {fuel : Nat}
    (h : run g v init fuel progress s = .ok states s') : Visits g v init progress s states s' := by
  have hrun : run g v init fuel progress = pure progress.states := by
    cases fuel <;> simp only [run, hnext]
  rw [hrun] at h
  obtain ⟨rfl, rfl⟩ := Halting.pure_eq_ok_iff.mp h
  exact .done (fun b hb => notMem_of_next?_eq_none hnext (hordered b hb) hb)

/-- The solver's own order is one of them. -/
theorem visits_of_run (hv : v.Functional I transfer) (hs : I s)
    (hordered : ∀ b ∈ progress.pending, b ∈ g.order) {fuel : Nat}
    (h : run g v init fuel progress s = .ok states s') : Visits g v init progress s states s' := by
  induction fuel generalizing progress s with
  | zero =>
      cases hnext : next? g progress.pending with
      | none => exact visits_of_next?_eq_none hordered hnext h
      | some b =>
          simp only [run, hnext] at h
          cases h
  | succ fuel ih =>
      cases hnext : next? g progress.pending with
      | none => exact visits_of_next?_eq_none hordered hnext h
      | some b =>
          simp only [run, hnext] at h
          obtain ⟨visited, t, hvisit, h⟩ := Halting.bind_eq_ok_iff.mp h
          obtain ⟨hplain, ht⟩ := plainVisit_of_visit hv hs hvisit
          have hordered' := mem_order_of_pending_visit hplain hordered
          exact .visit (mem_of_next? hnext).2 hvisit (ih ht hordered' h)

end Visits

/-! ## Bounds on the recorded states -/

/-- A possibly partial account `X` of the blocks that covers the entry block with the
initial state, and with each block of the function the successors of that block. -/
structure Covers (g : FlowGraph) (merge : D → D → D) (transfer : ValueId → D → D) (init : D)
    (X : BlockId → Option D) : Prop where
  entry : ∃ d, X g.entry = some d ∧ Below merge init d
  edge : ∀ a ∈ g.layout, ∀ d, X a = some d → ∀ b ∈ g.succs a,
    ∃ d', X b = some d' ∧ Below merge (transferred transfer (g.insts a) d) d'

/-- A state that stays below what `X` has for a block. -/
def Within (merge : D → D → D) (X : BlockId → Option D) (b : BlockId) (d : D) : Prop :=
  ∃ bound, X b = some bound ∧ Below merge d bound

/-- Every recorded entry stays within `X`, and exits are the transfers of entries. -/
structure Under (g : FlowGraph) (merge : D → D → D) (transfer : ValueId → D → D)
    (X : BlockId → Option D) (states : BlockStates D) : Prop where
  entry : ∀ b state, states[b]? = some state → Within merge X b state.entry
  exit_eq : ∀ b state, states[b]? = some state →
    state.exit = transferred transfer (g.insts b) state.entry

section Bounds

variable {g : FlowGraph} {merge : D → D → D} {transfer : ValueId → D → D} {init : D}
  {X : BlockId → Option D} {states : BlockStates D}

theorem Within.merged (hmerge : IsSemilattice merge) {b : BlockId} {d d' : D}
    (hd : Within merge X b d) (hd' : Within merge X b d') : Within merge X b (merge d d') := by
  obtain ⟨bound, hbound, hbelow⟩ := hd
  obtain ⟨bound', hbound', hbelow'⟩ := hd'
  rw [hbound] at hbound'
  cases hbound'
  exact ⟨bound, hbound, hmerge.merge_below hbelow hbelow'⟩

theorem Under.exit_within (hmerge : IsSemilattice merge)
    (hmono : ∀ inst a b, Below merge a b → Below merge (transfer inst a) (transfer inst b))
    (hX : Covers g merge transfer init X) (h : Under g merge transfer X states) {a b : BlockId}
    (ha : a ∈ g.layout) (hb : b ∈ g.succs a) {state : BlockState D}
    (hstate : states[a]? = some state) : Within merge X b state.exit := by
  obtain ⟨d, hd, hbelow⟩ := h.entry a state hstate
  obtain ⟨d', hd', hedge⟩ := hX.edge a ha d hd b hb
  have hexit : Below merge state.exit (transferred transfer (g.insts a) d) := by
    rw [h.exit_eq a state hstate]
    exact transferred_mono hmono (g.insts a) hbelow
  exact ⟨d', hd', hmerge.below_trans hexit hedge⟩

theorem foldl_plainMerge_within (hmerge : IsSemilattice merge) {b : BlockId}
    {preds : List BlockId} {known : Option D} {entry : D}
    (hknown : ∀ d, known = some d → Within merge X b d)
    (hpreds : ∀ a ∈ preds, ∀ state, states[a]? = some state → Within merge X b state.exit)
    (h : preds.foldl (plainMerge merge states) known = some entry) : Within merge X b entry := by
  induction preds generalizing known with
  | nil => exact hknown entry h
  | cons a preds ih =>
      refine ih ?_ (fun a' ha' => hpreds a' (List.mem_cons_of_mem a ha')) h
      intro d hd
      unfold plainMerge at hd
      cases hstate : states[a]? with
      | none =>
          simp only [hstate] at hd
          exact hknown d hd
      | some state =>
          have hexit := hpreds a List.mem_cons_self state hstate
          cases known with
          | none =>
              simp only [hstate] at hd
              cases hd
              exact hexit
          | some e =>
              simp only [hstate] at hd
              cases hd
              exact (hknown e rfl).merged hmerge hexit

theorem Under.mergedEntry_within (hmerge : IsSemilattice merge)
    (hmono : ∀ inst a b, Below merge a b → Below merge (transfer inst a) (transfer inst b))
    (hpreds : ∀ a b, a ∈ g.preds b → a ∈ g.layout ∧ b ∈ g.succs a)
    (hX : Covers g merge transfer init X) (h : Under g merge transfer X states) {b : BlockId}
    {entry : D} (hentry : mergedEntry g merge init states b = some entry) :
    Within merge X b entry := by
  apply foldl_plainMerge_within hmerge _ _ hentry
  · intro d hd
    unfold start? at hd
    cases hstate : states[b]? with
    | some state =>
        simp only [hstate] at hd
        cases hd
        exact h.entry b state hstate
    | none =>
        simp only [hstate] at hd
        split at hd
        · next heq =>
            cases hd
            exact heq ▸ hX.entry
        · cases hd
  · intro a ha state hstate
    obtain ⟨hlayout, hsucc⟩ := hpreds a b ha
    exact h.exit_within hmerge hmono hX hlayout hsucc hstate

theorem Under.insert (h : Under g merge transfer X states) {b : BlockId} {entry : D}
    (hentry : Within merge X b entry) :
    Under g merge transfer X
      (states.insert b ⟨entry, transferred transfer (g.insts b) entry⟩) := by
  constructor <;> intro x state hx <;> by_cases hxb : x = b
  · subst hxb
    rw [Std.ExtTreeMap.getElem?_insert_self] at hx
    cases hx
    exact hentry
  · exact h.entry x state (getElem?_insert_of_ne hxb ▸ hx)
  · subst hxb
    rw [Std.ExtTreeMap.getElem?_insert_self] at hx
    cases hx
    rfl
  · exact h.exit_eq x state (getElem?_insert_of_ne hxb ▸ hx)

variable [DecidableEq D]

theorem Under.visit (hmerge : IsSemilattice merge)
    (hmono : ∀ inst a b, Below merge a b → Below merge (transfer inst a) (transfer inst b))
    (hpreds : ∀ a b, a ∈ g.preds b → a ∈ g.layout ∧ b ∈ g.succs a)
    (hX : Covers g merge transfer init X) {progress progress' : Progress D} {b : BlockId}
    (h : Under g merge transfer X progress.states)
    (hvisit : plainVisit g merge (fun inst d => (.ok (transfer inst d) : Failing ε D)) init
      progress b = .ok progress') : Under g merge transfer X progress'.states := by
  rcases plainVisit_cases hvisit with ⟨-, hstates, -⟩ | ⟨entry, exit, hentry, hexit, hstates, -⟩
  · rwa [hstates]
  · rw [hstates, plainExit_eq hexit]
    exact h.insert (h.mergedEntry_within hmerge hmono hpreds hX hentry)

end Bounds

/-! ## The last states -/

section Last

variable {g : FlowGraph} {merge : D → D → D} {transfer : ValueId → D → D} {init : D}

/-- What holds between two visits when transfers are total: the invariant of the work
list, and no recorded entry exceeds any account that covers the graph. -/
structure Least (ε : Type) (g : FlowGraph) (merge : D → D → D) (transfer : ValueId → D → D)
    (init : D) (progress : Progress D) : Prop where
  invariant : Invariant g merge (fun inst d => (.ok (transfer inst d) : Failing ε D)) init progress
  under : ∀ X, Covers g merge transfer init X → Under g merge transfer X progress.states

theorem Least.start (hentry : g.entry ∈ g.layout) {pending : Std.ExtTreeSet BlockId}
    (h : pushAll g ∅ g.layout = .ok pending) : Least ε g merge transfer init ⟨pending, ∅⟩ :=
  ⟨.start hentry h, fun _ _ => ⟨by simp, by simp⟩⟩

/-- States that are done with cover the graph themselves. -/
theorem Invariant.covers {progress : Progress D}
    (h : Invariant g merge (fun inst d => (.ok (transfer inst d) : Failing ε D)) init progress)
    (hdone : ∀ b, b ∉ progress.pending) :
    Covers g merge transfer init (fun b => progress.states[b]?.map BlockState.entry) := by
  constructor
  · obtain ⟨state, hstate⟩ := h.entry_known.resolve_left (hdone g.entry)
    exact ⟨state.entry, by simp [hstate], h.init_below state hstate⟩
  · intro a ha d hd b hb
    obtain ⟨state, hstate, rfl⟩ := Option.map_eq_some_iff.mp hd
    obtain ⟨target, htarget, hbelow⟩ := (h.edge a state ha hstate b hb).resolve_left (hdone b)
    have hexit : state.exit = transferred transfer (g.insts a) state.entry :=
      plainExit_eq (h.exit_eq a state hstate)
    exact ⟨target.entry, by simp [htarget], hexit ▸ hbelow⟩

theorem Least.states_eq (hmerge : IsSemilattice merge) {progress progress' : Progress D}
    (h : Least ε g merge transfer init progress) (hdone : ∀ b, b ∉ progress.pending)
    (h' : Least ε g merge transfer init progress') (hdone' : ∀ b, b ∉ progress'.pending) :
    progress.states = progress'.states := by
  -- Each of the two covers the graph, so each is within the other.
  have hunder := h.under _ (h'.invariant.covers hdone')
  have hunder' := h'.under _ (h.invariant.covers hdone)
  apply Std.ExtTreeMap.ext_getElem?
  intro b
  cases hb : progress.states[b]? with
  | none =>
      cases hb' : progress'.states[b]? with
      | none => rfl
      | some state' =>
          obtain ⟨bound, hbound, -⟩ := hunder'.entry b state' hb'
          simp [hb] at hbound
  | some state =>
      obtain ⟨bound, hbound, hbelow⟩ := hunder.entry b state hb
      obtain ⟨state', hb', rfl⟩ := Option.map_eq_some_iff.mp hbound
      obtain ⟨bound', hbound', hbelow'⟩ := hunder'.entry b state' hb'
      simp only [hb, Option.map_some] at hbound'
      cases hbound'
      have hentry : state.entry = state'.entry := hmerge.below_antisymm hbelow hbelow'
      have hexit : state.exit = state'.exit := by
        rw [hunder.exit_eq b state hb, hunder'.exit_eq b state' hb', hentry]
      rw [hb']
      cases state
      cases state'
      cases hentry
      cases hexit
      rfl

variable [DecidableEq D]

theorem Least.visit (hmerge : IsSemilattice merge)
    (hmono : ∀ inst a b, Below merge a b → Below merge (transfer inst a) (transfer inst b))
    (hpreds : ∀ a b, a ∈ g.preds b ↔ a ∈ g.layout ∧ b ∈ g.succs a)
    {progress progress' : Progress D} {b : BlockId} (h : Least ε g merge transfer init progress)
    (hb : b ∈ progress.pending)
    (hvisit : plainVisit g merge (fun inst d => (.ok (transfer inst d) : Failing ε D)) init
      progress b = .ok progress') : Least ε g merge transfer init progress' := by
  constructor
  · apply h.invariant.visit hmerge _ (h.invariant.pending_ordered b hb) hvisit
    exact fun a ha b hb => (hpreds a b).mpr ⟨ha, hb⟩
  · intro X hX
    exact (h.under X hX).visit hmerge hmono (fun a b => (hpreds a b).mp) hX hvisit

theorem Visits.least {v : Visitor ε σ D} {I : σ → Prop} (hmerge : IsSemilattice v.merge)
    (hv : v.Functional I (fun inst d => .ok (transfer inst d)))
    (hmono : ∀ inst a b, Below v.merge a b → Below v.merge (transfer inst a) (transfer inst b))
    (hpreds : ∀ a b, a ∈ g.preds b ↔ a ∈ g.layout ∧ b ∈ g.succs a)
    (hentry : g.entry ∈ g.layout) {pending : Std.ExtTreeSet BlockId}
    (hpending : pushAll g ∅ g.layout = .ok pending) {s s' : σ} (hs : I s)
    {states : BlockStates D} (h : Visits g v init ⟨pending, ∅⟩ s states s') :
    ∃ last, Least ε g v.merge transfer init last ∧ (∀ b, b ∉ last.pending) ∧
      last.states = states :=
  h.induction hv (fun _ _ _ hleast hb hvisit => hleast.visit hmerge hmono hpreds hb hvisit) hs
    (.start hentry hpending)

end Last

end Solver

/-! ## Functions -/

/-- An account `X` of all blocks that has the initial state below it at the entry block
and the exit of every block of the function below it at the successors. -/
structure IsBound (p : Program) (func : FuncId) (merge : D → D → D)
    (transfer : ValueId → D → D) (init : D) (X : BlockId → D) : Prop where
  entry : ∀ fn b, p.function func = .ok fn → fn.entryBlock? = some b → Below merge init (X b)
  edge : ∀ fn, p.function func = .ok fn → ∀ a ∈ fn.blocks, ∀ block succs,
    p.block a = .ok block → p.successors a = .ok succs → ∀ b ∈ succs,
      Below merge (transferred transfer block.insts.toList (X a)) (X b)

theorem IsBound.covers {p : Program} {func : FuncId} {fn : Function} {g : FlowGraph}
    {merge : D → D → D} {transfer : ValueId → D → D} {init : D} {X : BlockId → D}
    (hX : IsBound p func merge transfer init X) (hg : FlowGraph.Of p func fn g)
    (hlayout : ∀ b ∈ g.layout, b ∈ g.order) :
    Solver.Covers g merge transfer init (fun b => some (X b)) := by
  constructor
  · exact ⟨X g.entry, rfl, hX.entry fn g.entry hg.function_eq hg.entry_eq⟩
  · rintro a ha d ⟨⟩ b hb
    obtain ⟨block, hblock, hinsts⟩ := hg.insts_eq a (hlayout a ha)
    refine ⟨X b, rfl, hinsts ▸ hX.edge fn hg.function_eq a (hg.layout_eq ▸ ha) block _ hblock
      (hg.successors_eq a (hlayout a ha)) b hb⟩

theorem forward_eq_ok_cases [DecidableEq D] {p : Program} {func : FuncId} {v : Visitor ε σ D}
    {I : σ → Prop} {transfer : ValueId → D → Failing ε D} {height : Nat} {init : D}
    {states : BlockStates D} {s s' : σ} (hv : v.Functional I transfer) (hs : I s)
    (h : forward p func v height init s = .ok states s') :
    (FlowGraph.ofFunction p func = .ok none ∧ states = ∅) ∨
    ∃ fn g pending, FlowGraph.ofFunction p func = .ok (some g) ∧ FlowGraph.Of p func fn g ∧
      Solver.pushAll g ∅ g.layout = .ok pending ∧
      Solver.Visits g v init ⟨pending, ∅⟩ s states s' := by
  obtain ⟨g?, s₁, hread, h⟩ := Halting.bind_eq_ok_iff.mp h
  obtain ⟨hg, rfl⟩ := Halting.ofExcept_eq_ok_iff.mp hread
  cases g? with
  | none =>
      obtain ⟨rfl, -⟩ := Halting.pure_eq_ok_iff.mp h
      exact Or.inl ⟨hg, rfl⟩
  | some g =>
      obtain ⟨fn, hof⟩ := FlowGraph.of_ofFunction hg
      obtain ⟨pending, s₂, hpush, h⟩ := Halting.bind_eq_ok_iff.mp h
      obtain ⟨hpending, rfl⟩ := Halting.ofExcept_eq_ok_iff.mp hpush
      obtain ⟨horder, hmem⟩ := Solver.mem_of_pushAll hpending
      have hordered : ∀ b ∈ pending, b ∈ g.order :=
        fun b hb => horder b (((hmem b).mp hb).resolve_left (by simp))
      exact Or.inr ⟨fn, g, pending, hg, hof, hpending, Solver.visits_of_run hv hs hordered h⟩

/-- When transfers are total and monotone, the states that the solver returns are the
least solution of the dataflow equations: every other account of the blocks has them
below it.  And whichever pending block is visited next, the same states come out. -/
theorem forward_least [DecidableEq D] {p : Program} {func : FuncId} {v : Visitor ε σ D}
    {I : σ → Prop} {transfer : ValueId → D → D} {height : Nat} {init : D}
    {states : BlockStates D} {s s' : σ} (hmerge : IsSemilattice v.merge)
    (hv : v.Functional I (fun inst d => .ok (transfer inst d)))
    (hmono : ∀ inst a b, Below v.merge a b → Below v.merge (transfer inst a) (transfer inst b))
    (hs : I s) (h : forward p func v height init s = .ok states s') :
    Solution p func v.merge (fun inst d => (.ok (transfer inst d) : Failing ε D)) init states ∧
    (∀ X, IsBound p func v.merge transfer init X →
      ∀ (b : BlockId) (state : BlockState D), states[b]? = some state →
        Below v.merge state.entry (X b)) ∧
    ∀ g pending t t' states', FlowGraph.ofFunction p func = .ok (some g) →
      Solver.pushAll g ∅ g.layout = .ok pending → I t →
      Solver.Visits g v init ⟨pending, ∅⟩ t states' t' → states' = states := by
  refine ⟨forward_eq_ok_solution hmerge hv hs h, ?_⟩
  rcases forward_eq_ok_cases hv hs h with
    ⟨hnone, rfl⟩ | ⟨fn, g, pending, hg, hof, hpending, hvisits⟩
  · refine ⟨by simp, fun g _ _ _ _ hg => ?_⟩
    rw [hnone] at hg
    cases hg
  · obtain ⟨last, hleast, hdone, rfl⟩ :=
      hvisits.least hmerge hv hmono hof.mem_preds_iff hof.entry_mem_layout hpending hs
    constructor
    · intro X hX b state hstate
      have hcovers := hX.covers hof (Solver.mem_of_pushAll hpending).1
      obtain ⟨_, ⟨⟩, hbelow⟩ := (hleast.under _ hcovers).entry b state hstate
      exact hbelow
    · intro g' pending' t t' states' hg' hpending' ht hvisits'
      rw [hg] at hg'
      cases hg'
      rw [hpending] at hpending'
      cases hpending'
      obtain ⟨last', hleast', hdone', rfl⟩ :=
        hvisits'.least hmerge hv hmono hof.mem_preds_iff hof.entry_mem_layout hpending ht
      exact hleast'.states_eq hmerge hdone' hleast hdone

/-! ## Sightings -/

section Sightings

variable (paths : Paths)

theorem isSemilattice_sightings (stopAt : Option ValueId) :
    IsSemilattice (sightings paths stopAt).merge := by
  constructor <;> intros <;> apply Std.ExtTreeSet.ext_mem <;> intro x <;> cases paths <;>
    simp [sightings, or_assoc, and_assoc, or_comm, and_comm]

theorem functional_sightings : (sightings paths none).Functional (fun _ => True)
    (fun inst seen => .ok (seen.insert inst)) where
  noteMerge _ _ _ _ := trivial
  transfer _ _ _ _ := ⟨(), trivial, rfl⟩

theorem sightings_mono (inst : ValueId) {a b : ValueSet}
    (h : Below (sightings paths none).merge a b) :
    Below (sightings paths none).merge (a.insert inst) (b.insert inst) := by
  have hmem : ∀ x, x ∈ (sightings paths none).merge b a ↔ x ∈ b := by
    intro x
    rw [h]
  apply Std.ExtTreeSet.ext_mem
  intro x
  have hx := hmem x
  cases paths <;> simp only [sightings, Std.ExtTreeSet.mem_union_iff,
    Std.ExtTreeSet.mem_inter_iff, Std.ExtTreeSet.mem_insert] at hx ⊢ <;> grind

end Sightings

/-- A loop with a way out, to which a block that is never reached also leads. -/
def looping : List Step :=
  [.define "turn" [.int 1] .void, .block (.ofNat 0) "head", .block (.ofNat 0) "exit",
    .block (.ofNat 0) "dead", .br (.ofNat 1), .positionAtEnd (.ofNat 1),
    .condBr (.ofNat 1) (.ofNat 1) (.ofNat 2), .positionAtEnd (.ofNat 2), .ret none,
    .positionAtEnd (.ofNat 3), .br (.ofNat 2)]

/-- The instructions of `looping`. -/
def loopingInsts : ValueSet :=
  transferred (fun inst seen => seen.insert inst) [.ofNat 2, .ofNat 3, .ofNat 4, .ofNat 5] ∅

/-- Nothing but its own instructions is seen on the way to the head of the loop. -/
theorem forward_least_looping : ∃ built states state,
    build looping = .ok built ∧
    forward built.program (.ofNat 0) (sightings .some none) ValueSet.height ∅ () =
      .ok states () ∧
    states[(Ident.ofNat 1 : BlockId)]? = some state ∧
    Below (sightings .some none).merge state.entry loopingInsts := by
  obtain ⟨built, hbuilt, hrun, hbound⟩ : ∃ built, build looping = .ok built ∧
      ((forward built.program (.ofNat 0) (sightings .some none) ValueSet.height ∅).outcome
        ()).toOption.any (fun states => states.contains (Ident.ofNat 1)) = true ∧
      (built.program.blocks.all fun block => decide (Below (sightings .some none).merge
        (transferred (fun inst seen => seen.insert inst) block.insts.toList loopingInsts)
          loopingInsts)) = true :=
    ⟨_, rfl, by decide +kernel, by decide +kernel⟩
  obtain ⟨states, ⟨⟩, hstates, hvisited⟩ := Halting.eq_ok_of_outcome_any hrun
  obtain ⟨state, hstate⟩ : ∃ state, states[(Ident.ofNat 1 : BlockId)]? = some state := by
    rw [Std.ExtTreeMap.contains_eq_isSome_getElem?] at hvisited
    exact Option.isSome_iff_exists.mp hvisited
  have hX : IsBound built.program (.ofNat 0) (sightings .some none).merge
      (fun inst seen => seen.insert inst) ∅ (fun _ => loopingInsts) := by
    refine ⟨fun _ _ _ _ => by decide +kernel, fun fn _ a _ block _ hblock _ b _ => ?_⟩
    have hmem := Array.mem_of_getElem? (fetch_eq_ok_iff.mp hblock)
    have hblock' := Array.all_eq_true_iff_forall_mem.mp hbound block hmem
    exact of_decide_eq_true hblock'
  have hleast := forward_least (isSemilattice_sightings .some none) (functional_sightings .some)
    (fun inst a b => sightings_mono .some inst) trivial hstates
  exact ⟨built, states, state, hbuilt, hstates, hstate, hleast.2.1 _ hX _ state hstate⟩

end CallTargets
