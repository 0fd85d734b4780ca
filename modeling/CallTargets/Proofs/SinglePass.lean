import CallTargets.Proofs.FinishingOrder

/-!
# Functions without loops are analysed in one pass

The edges of the visiting order lead forward, apart from those that close a loop, and the solver
always takes the first pending block.  In a function without loops it queues only what comes later
than all blocks that have states, and never comes back to one of them.
-/

namespace CallTargets

open Relation (ReflTransGen TransGen)

/-- No block that control can get to from the entry block lies on a loop. -/
def Program.LoopFree (p : Program) (fn : Function) : Prop :=
  ∀ entry b, fn.entryBlock? = some entry → ReflTransGen p.Branches entry b →
    ¬ TransGen p.Branches b b

/-- There is no loop where all branches lead upwards. -/
theorem Program.loopFree_of_rank {p : Program} (rank : BlockId → Nat)
    (h : ∀ i < p.blocks.size, (p.successors (.ofNat i)).toOption.all fun succs =>
      succs.all fun b => decide (rank (.ofNat i) < rank b)) (fn : Function) : p.LoopFree fn := by
  have hbranch : ∀ a b, p.Branches a b → rank a < rank b := fun a b hab =>
    of_decide_eq_true (forall_branches (fun a b => decide (rank a < rank b)) h hab)
  intro _ b _ _ hloop
  have hlt : ∀ c, TransGen p.Branches b c → rank b < rank c := by
    intro c hc
    induction hc with
    | single hstep => exact hbranch _ _ hstep
    | tail _ hstep ih => exact ih.trans (hbranch _ _ hstep)
  exact lt_irrefl _ (hlt b hloop)

theorem Program.Reaches.reflTransGen {p : Program} {fn : Function} {entry b : BlockId}
    (h : p.Reaches fn b) (hentry : fn.entryBlock? = some entry) :
    ReflTransGen p.Branches entry b := by
  induction h with
  | entry hb =>
      rw [hentry] at hb
      cases hb
      exact .refl
  | branch _ _ hsuccs hb ih => exact ih.tail ⟨_, hsuccs, hb⟩

namespace FlowGraph

variable {p : Program} {func : FuncId} {fn : Function} {g : FlowGraph} {b y : BlockId}

/-- In the visiting order, an edge between reachable blocks leads forward unless it closes a
loop. -/
theorem Of.idxOf_lt (h : Of p func fn g) (hb : ReflTransGen p.Branches g.entry b)
    (hy : p.Branches b y) (hback : ¬ ReflTransGen p.Branches y b) :
    g.order.idxOf b < g.order.idxOf y := by
  obtain ⟨reached, rest, horder, hparts⟩ := Program.exists_orderParts h.order_eq
  rw [horder]
  exact hparts.idxOf_lt_of_branch ⟨g.entry, h.entry_eq, hb⟩ hy hback

end FlowGraph

/-! ## Visits -/

namespace Solver

variable {ε σ D : Type} {p : Program} {func : FuncId} {fn : Function} {g : FlowGraph}
  {progress progress' : Progress D} {b y : BlockId}

/-- All blocks with states come before all pending blocks. -/
def Passes (g : FlowGraph) (progress : Progress D) : Prop :=
  ∀ x ∈ progress.states, ∀ y ∈ progress.pending, g.order.idxOf x < g.order.idxOf y

theorem idxOf_lt_of_next? {pending : Std.ExtTreeSet BlockId} (h : next? g pending = some b)
    (hy : y ∈ pending) (hne : y ≠ b) : g.order.idxOf b < g.order.idxOf y := by
  obtain ⟨hb, pre, post, horder, hpre⟩ := List.find?_eq_some_iff_append.mp h
  have hnot : ∀ x ∈ pending, x ∉ pre := by
    intro x hx hmem
    simpa [hx] using hpre x hmem
  rw [horder, List.idxOf_append_of_notMem (hnot b (by simpa using hb)),
    List.idxOf_append_of_notMem (hnot y hy), List.idxOf_cons_self,
    List.idxOf_cons_ne post hne.symm]
  omega

theorem Passes.notMem (h : Passes g progress) (hb : next? g progress.pending = some b) :
    b ∉ progress.states :=
  fun hmem => absurd (h b hmem b (mem_of_next? hb).2) (lt_irrefl _)

theorem Passes.visit [DecidableEq D] {v : Visitor ε σ D} {init : D} {s s' : σ}
    (h : Passes g progress) (hfree : p.LoopFree fn) (hg : FlowGraph.Of p func fn g)
    (hcover : Covering p fn g progress) (hlayout : ∀ a ∈ g.layout, a ∈ g.order)
    (hb : next? g progress.pending = some b)
    (hvisit : Solver.visit g v init progress b s = .ok progress' s') : Passes g progress' := by
  have herased : ∀ y ∈ progress.pending.erase b, y ∈ progress.pending ∧
      g.order.idxOf b < g.order.idxOf y := by
    intro y hy
    obtain ⟨hne, hpending⟩ := Std.ExtTreeSet.mem_erase.mp hy
    refine ⟨hpending, idxOf_lt_of_next? hb hpending ?_⟩
    rintro rfl
    exact hne Std.ReflOrd.compare_self
  have hfirst : ∀ x ∈ progress.states, g.order.idxOf x < g.order.idxOf b :=
    fun x hx => h x hx b (mem_of_next? hb).2
  rcases visit_eq_ok_cases hvisit with
    ⟨-, hstates, hpending⟩ | ⟨hstart, ⟨state, hstates⟩, ⟨-, hold⟩ | hpush⟩
  · intro x hx y hy
    rw [hstates] at hx
    rw [hpending] at hy
    exact h x hx y (herased y hy).1
  · exact absurd hold (h.notMem hb)
  · -- A recorded block comes before its successors, which are all that is new in the queue.
    have hreach := hcover.reaches hg hlayout hstart
    have hsuccs : ∀ y ∈ g.succs b, g.order.idxOf b < g.order.idxOf y := by
      intro y hy
      have hpath : ReflTransGen p.Branches g.entry b := hreach.reflTransGen hg.entry_eq
      have hbranch : p.Branches b y := ⟨_, hg.successors_eq b (mem_of_next? hb).1, hy⟩
      apply hg.idxOf_lt hpath hbranch
      exact fun hback => hfree g.entry b hg.entry_eq hpath (.head' hbranch hback)
    have hlater : ∀ y ∈ progress'.pending, g.order.idxOf b < g.order.idxOf y := by
      intro y hy
      rcases ((mem_of_pushAll hpush).2 y).mp hy with hy | hy
      · exact (herased y hy).2
      · exact hsuccs y hy
    intro x hx y hy
    rw [hstates, mem_states_insert_iff] at hx
    rcases hx with rfl | hx
    · exact hlater y hy
    · exact (hfirst x hx).trans (hlater y hy)

end Solver

end CallTargets
