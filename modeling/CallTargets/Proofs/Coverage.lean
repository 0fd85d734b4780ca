import CallTargets.Flow.Recording
import CallTargets.Program.Builder
import CallTargets.Proofs.Equations
import Mathlib.Logic.Relation

/-!
# The solver covers the reachable blocks

Every visitor is taken here, also one whose merges and transfers follow no law at all.  A
visit starts from nothing only while no edge from a recorded block of the function leads to
the visited one.  Such a block is queued again as soon as one of its predecessors is
recorded for the first time, so in the end the blocks with states are those that control
can get to through blocks of the function.
-/

namespace CallTargets

variable {ε σ D : Type}

namespace Solver

variable {g : FlowGraph} {v : Visitor ε σ D} {init : D} {states : BlockStates D}
  {progress progress' : Progress D} {b : BlockId} {s s' : σ}

/-! ## Blocks with something to start from -/

/-- A visit of the block finds a state to start from. -/
def HasStart (g : FlowGraph) (states : BlockStates D) (b : BlockId) : Prop :=
  b ∈ states ∨ b = g.entry ∨ ∃ a ∈ g.preds b, a ∈ states

theorem mem_states_iff : b ∈ states ↔ ∃ state, states[b]? = some state := by
  rw [Std.ExtTreeMap.mem_iff_isSome_getElem?]
  exact Option.isSome_iff_exists

theorem mem_states_insert_iff {state : BlockState D} {x : BlockId} :
    x ∈ states.insert b state ↔ x = b ∨ x ∈ states := by
  rw [Std.ExtTreeMap.mem_insert, Std.LawfulEqOrd.compare_eq_iff_eq, eq_comm]

theorem isSome_start?_iff : (start? g init states b).isSome ↔ b ∈ states ∨ b = g.entry := by
  rw [mem_states_iff]
  unfold start?
  cases states[b]? with
  | some state => simp
  | none => by_cases h : b = g.entry <;> simp [h]

theorem isSome_of_mergePred {known merged : Option D} {a : BlockId}
    (h : mergePred v states known a s = .ok merged s') :
    merged.isSome ↔ known.isSome ∨ a ∈ states := by
  rw [mem_states_iff]
  unfold mergePred at h
  cases hstate : states[a]? with
  | none =>
      simp only [hstate] at h
      obtain ⟨rfl, -⟩ := Halting.pure_eq_ok_iff.mp h
      simp
  | some state =>
      cases known with
      | none =>
          simp only [hstate] at h
          obtain ⟨rfl, -⟩ := Halting.pure_eq_ok_iff.mp h
          simp
      | some entry =>
          simp only [hstate] at h
          obtain ⟨-, s₁, -, h⟩ := Halting.bind_eq_ok_iff.mp h
          obtain ⟨rfl, -⟩ := Halting.pure_eq_ok_iff.mp h
          simp

theorem isSome_of_foldlM_mergePred {preds : List BlockId} {known merged : Option D}
    (h : preds.foldlM (mergePred v states) known s = .ok merged s') :
    merged.isSome ↔ known.isSome ∨ ∃ a ∈ preds, a ∈ states := by
  induction preds generalizing known s with
  | nil =>
      obtain ⟨rfl, -⟩ := Halting.pure_eq_ok_iff.mp h
      simp
  | cons a preds ih =>
      rw [List.foldlM_cons] at h
      obtain ⟨next, s₁, hnext, h⟩ := Halting.bind_eq_ok_iff.mp h
      rw [ih h, isSome_of_mergePred hnext, or_assoc]
      simp

theorem isSome_of_entryState? { entry? : Option D}
    (h : entryState? g v init states b s = .ok entry? s') :
    entry?.isSome ↔ HasStart g states b := by
  rw [isSome_of_foldlM_mergePred h, isSome_start?_iff, or_assoc]
  rfl

/-! ## Visits -/

section Visits

variable [DecidableEq D]

/-- A visit passes over the block, or records it and queues its successors if it had not
been recorded before. -/
theorem visit_eq_ok_cases (h : visit g v init progress b s = .ok progress' s') :
    (¬ HasStart g progress.states b ∧ progress'.states = progress.states ∧
      progress'.pending = progress.pending.erase b) ∨
    (HasStart g progress.states b ∧ (∃ state, progress'.states = progress.states.insert b state) ∧
      (progress'.pending = progress.pending.erase b ∧ b ∈ progress.states ∨
        pushAll g (progress.pending.erase b) (g.succs b) = .ok progress'.pending)) := by
  obtain ⟨ entry?, s₁, hentry, h⟩ := Halting.bind_eq_ok_iff.mp h
  have hsome := isSome_of_entryState? hentry
  cases entry? with
  | none =>
      obtain ⟨rfl, -⟩ := Halting.pure_eq_ok_iff.mp h
      exact Or.inl ⟨by simpa using hsome, rfl, rfl⟩
  | some entry =>
      refine Or.inr ⟨by simpa using hsome, ?_⟩
      obtain ⟨exit, s₂, -, h⟩ := Halting.bind_eq_ok_iff.mp h
      split at h
      · obtain ⟨pending, s₃, hpush, h⟩ := Halting.bind_eq_ok_iff.mp h
        obtain ⟨hpending, rfl⟩ := Halting.ofExcept_eq_ok_iff.mp hpush
        obtain ⟨rfl, -⟩ := Halting.pure_eq_ok_iff.mp h
        exact ⟨⟨_, rfl⟩, Or.inr hpending⟩
      · next hsame =>
          obtain ⟨rfl, -⟩ := Halting.pure_eq_ok_iff.mp h
          refine ⟨⟨_, rfl⟩, Or.inl ⟨rfl, ?_⟩⟩
          rw [mem_states_iff]
          unfold exitChanged at hsame
          cases hold : progress.states[b]? with
          | none => simp [hold] at hsame
          | some state => exact ⟨state, rfl⟩

/-- A run is over when no block is pending, and goes on after a visit of the first one else. -/
theorem run_eq_ok_cases {fuel : Nat} (h : run g v init fuel progress s = .ok states s') :
    (next? g progress.pending = none ∧ progress.states = states ∧ s = s') ∨
    ∃ rest b visited t, fuel = rest + 1 ∧ next? g progress.pending = some b ∧
      visit g v init progress b s = .ok visited t ∧ run g v init rest visited t = .ok states s' := by
  cases hnext : next? g progress.pending with
  | none =>
      have hrun : run g v init fuel progress = pure progress.states := by
        cases fuel <;> simp only [run, hnext]
      rw [hrun] at h
      obtain ⟨hstates, hs⟩ := Halting.pure_eq_ok_iff.mp h
      exact Or.inl ⟨rfl, hstates, hs⟩
  | some b =>
      cases fuel with
      | zero =>
          simp only [run, hnext] at h
          cases h
      | succ rest =>
          simp only [run, hnext] at h
          obtain ⟨visited, t, hvisit, h⟩ := Halting.bind_eq_ok_iff.mp h
          exact Or.inr ⟨rest, b, visited, t, rfl, rfl, hvisit, h⟩

/-- What every visit keeps holds when no block is pending any more. -/
theorem run_induction {P : Progress D → Prop}
    (hstep : ∀ progress b progress' s s', P progress → next? g progress.pending = some b →
      visit g v init progress b s = .ok progress' s' → P progress')
    {fuel : Nat} (hP : P progress) (h : run g v init fuel progress s = .ok states s') :
    ∃ last, P last ∧ next? g last.pending = none ∧ last.states = states := by
  induction fuel using Nat.strongRecOn generalizing progress s with
  | ind fuel ih =>
      rcases run_eq_ok_cases h with
        ⟨hdone, hstates, -⟩ | ⟨rest, b, visited, t, rfl, hnext, hvisit, hrest⟩
      · exact ⟨progress, hP, hdone, hstates⟩
      · have hvisited := hstep progress b visited s t hP hnext hvisit
        exact ih rest (Nat.lt_succ_self rest) hvisited hrest

end Visits

theorem mem_erase_of_ne {pending : Std.ExtTreeSet BlockId} {x : BlockId} (hx : x ∈ pending)
    (hne : x ≠ b) : x ∈ pending.erase b := by
  rw [Std.ExtTreeSet.mem_erase]
  exact ⟨fun heq => hne (Std.LawfulEqOrd.eq_of_compare heq).symm, hx⟩

/-! ## What holds between two visits -/

/-- The recorded blocks are reachable.  The entry block, and every block that an edge from
a recorded block of the function leads to, is recorded or pending. -/
structure Covering (p : Program) (fn : Function) (g : FlowGraph) (progress : Progress D) :
    Prop where
  pending_ordered : ∀ b ∈ progress.pending, b ∈ g.order
  reached : ∀ b ∈ progress.states, p.Reaches fn b
  entry : g.entry ∈ progress.pending ∨ g.entry ∈ progress.states
  edge : ∀ a ∈ g.layout, a ∈ progress.states → ∀ b ∈ g.succs a,
    b ∈ progress.pending ∨ b ∈ progress.states

namespace Covering

variable {p : Program} {func : FuncId} {fn : Function}

theorem start (hg : FlowGraph.Of p func fn g) {pending : Std.ExtTreeSet BlockId}
    (h : pushAll g ∅ g.layout = .ok pending) :
    Covering p fn g (⟨pending, ∅⟩ : Progress D) := by
  obtain ⟨horder, hmem⟩ := mem_of_pushAll h
  refine ⟨fun b hb => ?_, by simp, Or.inl ?_, by simp⟩
  · exact horder b (((hmem b).mp hb).resolve_left (by simp))
  · exact (hmem g.entry).mpr (Or.inr hg.entry_mem_layout)

/-- A block with something to start from is reachable. -/
theorem reaches (hcover : Covering p fn g progress) (hg : FlowGraph.Of p func fn g)
    (hlayout : ∀ a ∈ g.layout, a ∈ g.order) (h : HasStart g progress.states b) :
    p.Reaches fn b := by
  rcases h with hb | rfl | ⟨a, ha, hstate⟩
  · exact hcover.reached b hb
  · exact .entry hg.entry_eq
  · obtain ⟨hmem, hsucc⟩ := (hg.mem_preds_iff a b).mp ha
    exact .branch (hcover.reached a hstate) (hg.layout_eq ▸ hmem)
      (hg.successors_eq a (hlayout a hmem)) hsucc

theorem skip (hcover : Covering p fn g progress) (hg : FlowGraph.Of p func fn g)
    (hstart : ¬ HasStart g progress.states b) (hstates : progress'.states = progress.states)
    (hpending : progress'.pending = progress.pending.erase b) :
    Covering p fn g progress' := by
  -- No pending block that has to stay is the one that is passed over.
  have hstays : ∀ x ∈ progress.pending, HasStart g progress.states x →
      x ∈ progress'.pending := by
    intro x hx hxstart
    rw [hpending]
    apply mem_erase_of_ne hx
    rintro rfl
    exact hstart hxstart
  constructor
  · rw [hpending]
    exact fun x hx => hcover.pending_ordered x (Std.ExtTreeSet.mem_of_mem_erase hx)
  · rw [hstates]
    exact hcover.reached
  · rw [hstates]
    exact hcover.entry.imp_left (fun hx => hstays _ hx (Or.inr (Or.inl rfl)))
  · rw [hstates]
    intro a ha hstate x hx
    have hpred : a ∈ g.preds x := (hg.mem_preds_iff a x).mpr ⟨ha, hx⟩
    exact (hcover.edge a ha hstate x hx).imp_left
      (fun hwait => hstays x hwait (Or.inr (Or.inr ⟨a, hpred, hstate⟩)))

theorem record (hcover : Covering p fn g progress) (hg : FlowGraph.Of p func fn g)
    (hlayout : ∀ a ∈ g.layout, a ∈ g.order) (hstart : HasStart g progress.states b)
    {state : BlockState D} (hstates : progress'.states = progress.states.insert b state)
    (hkept : ∀ x ∈ progress.pending.erase b, x ∈ progress'.pending)
    (hordered : ∀ x ∈ progress'.pending, x ∈ g.order)
    (hqueued : b ∈ progress.states ∨ ∀ x ∈ g.succs b, x ∈ progress'.pending) :
    Covering p fn g progress' := by
  have hmem : ∀ x, x ∈ progress'.states ↔ x = b ∨ x ∈ progress.states := by
    intro x
    rw [hstates, mem_states_insert_iff]
  have hknown : ∀ x, x ∈ progress.pending ∨ x ∈ progress.states →
      x ∈ progress'.pending ∨ x ∈ progress'.states := by
    intro x hx
    rw [hmem]
    by_cases hxb : x = b
    · exact Or.inr (Or.inl hxb)
    · exact hx.imp (fun hwait => hkept x (mem_erase_of_ne hwait hxb)) Or.inr
  refine ⟨hordered, fun x hx => ?_, hknown g.entry hcover.entry, fun a ha hstate x hx => ?_⟩
  · rcases (hmem x).mp hx with rfl | hx
    · exact hcover.reaches hg hlayout hstart
    · exact hcover.reached x hx
  · rcases (hmem a).mp hstate with rfl | hold
    · rcases hqueued with hold | hqueued
      · exact hknown x (hcover.edge a ha hold x hx)
      · exact Or.inl (hqueued x hx)
    · exact hknown x (hcover.edge a ha hold x hx)

theorem visit [DecidableEq D] (hcover : Covering p fn g progress) (hg : FlowGraph.Of p func fn g)
    (hlayout : ∀ a ∈ g.layout, a ∈ g.order)
    (h : visit g v init progress b s = .ok progress' s') : Covering p fn g progress' := by
  have herased : ∀ x ∈ progress.pending.erase b, x ∈ g.order :=
    fun x hx => hcover.pending_ordered x (Std.ExtTreeSet.mem_of_mem_erase hx)
  rcases visit_eq_ok_cases h with
    ⟨hstart, hstates, hpending⟩ | ⟨hstart, ⟨state, hstates⟩, ⟨hpending, hold⟩ | hpush⟩
  · exact hcover.skip hg hstart hstates hpending
  · apply hcover.record hg hlayout hstart hstates
    · exact fun x hx => hpending ▸ hx
    · exact fun x hx => herased x (hpending ▸ hx)
    · exact Or.inl hold
  · obtain ⟨hsuccs, hmem⟩ := mem_of_pushAll hpush
    apply hcover.record hg hlayout hstart hstates
    · exact fun x hx => (hmem x).mpr (Or.inl hx)
    · exact fun x hx => ((hmem x).mp hx).elim (herased x) (hsuccs x)
    · exact Or.inr (fun x hx => (hmem x).mpr (Or.inr hx))

/-- Once nothing is pending, the recorded blocks are the reachable ones. -/
theorem mem_iff_reaches (hcover : Covering p fn g progress) (hg : FlowGraph.Of p func fn g)
    (hlayout : ∀ a ∈ g.layout, a ∈ g.order) (hdone : next? g progress.pending = none) :
    b ∈ progress.states ↔ p.Reaches fn b := by
  have hempty : ∀ x, x ∉ progress.pending := fun x hx =>
    notMem_of_next?_eq_none hdone (hcover.pending_ordered x hx) hx
  refine ⟨hcover.reached b, fun h => ?_⟩
  induction h with
  | entry hentry =>
      rw [hg.entry_eq] at hentry
      cases hentry
      exact hcover.entry.resolve_left (hempty g.entry)
  | @branch a b succs h ha hsuccs hb ih =>
      rw [← hg.layout_eq] at ha
      rw [hg.successors_eq a (hlayout a ha)] at hsuccs
      cases hsuccs
      exact (hcover.edge a ha ih b hb).resolve_left (hempty b)

end Covering

end Solver

/-! ## Functions -/

namespace Program

/-- Control can pass from the end of one block to another. -/
def Branches (p : Program) (a b : BlockId) : Prop :=
  ∃ succs, p.successors a = .ok succs ∧ b ∈ succs

/-- What is checked for the successors of every block in the table holds of every branch. -/
theorem forall_branches {p : Program} (q : BlockId → BlockId → Bool)
    (h : ∀ i < p.blocks.size, (p.successors (.ofNat i)).toOption.all fun succs =>
      succs.all (q (.ofNat i))) {a b : BlockId} (hab : p.Branches a b) :
    q a b = true := by
  obtain ⟨succs, hsuccs, hb⟩ := hab
  obtain ⟨block, hblock⟩ := exists_block_of_successors hsuccs
  have hall := h a.index (Array.getElem?_eq_some_iff.mp (fetch_eq_ok_iff.mp hblock)).1
  simp only [a.ofNat_index, hsuccs, Except.toOption, Option.all_some, List.all_eq_true] at hall
  exact hall b hb

/-- No branch of a block of the function leaves the function. -/
def BranchesStay (p : Program) (fn : Function) : Prop :=
  ∀ a ∈ fn.blocks, ∀ b, p.Branches a b → b ∈ fn.blocks

theorem branchesStay_of_successors {p : Program}
    (h : ∀ i < p.blocks.size, p.successors (.ofNat i) = .ok []) (fn : Function) :
    p.BranchesStay fn := by
  rintro a - b ⟨succs, hsuccs, hb⟩
  obtain ⟨block, hblock⟩ := exists_block_of_successors hsuccs
  have hnone := h a.index (Array.getElem?_eq_some_iff.mp (fetch_eq_ok_iff.mp hblock)).1
  rw [a.ofNat_index, hsuccs] at hnone
  cases hnone
  cases hb

/-- If no branch leaves the function, all blocks that control can get to are its own. -/
theorem reaches_iff_reflTransGen {p : Program} {fn : Function} (hstay : p.BranchesStay fn)
    {entry b : BlockId} (hentry : fn.entryBlock? = some entry) :
    p.Reaches fn b ↔ Relation.ReflTransGen p.Branches entry b := by
  constructor
  · intro h
    induction h with
    | entry hb =>
        rw [hentry] at hb
        cases hb
        exact .refl
    | branch h ha hsuccs hb ih => exact ih.tail ⟨_, hsuccs, hb⟩
  · intro h
    have hboth : p.Reaches fn b ∧ b ∈ fn.blocks := by
      induction h with
      | refl => exact ⟨.entry hentry, List.mem_of_mem_head? hentry⟩
      | @tail a b h hab ih =>
          obtain ⟨succs, hsuccs, hb⟩ := id hab
          exact ⟨.branch ih.1 ih.2 hsuccs hb, hstay a ih.2 b hab⟩
    exact hboth.1

end Program

/-- Whatever the visitor does, the blocks to which the solver gives states are those that
control can get to from the entry block through blocks of the function.  If no branch
leaves the function, these are all blocks that are reachable from the entry block. -/
theorem forward_covers [DecidableEq D] {p : Program} {func : FuncId} {v : Visitor ε σ D}
    {height : Nat} {init : D} {states : BlockStates D} {s s' : σ}
    (h : forward p func v height init s = .ok states s') :
    ∃ fn, p.function func = .ok fn ∧ (∀ b, b ∈ states ↔ p.Reaches fn b) ∧
      (p.BranchesStay fn → ∀ b, b ∈ states ↔
        ∃ entry, fn.entryBlock? = some entry ∧ Relation.ReflTransGen p.Branches entry b) := by
  have hreaches : ∃ fn, p.function func = .ok fn ∧ ∀ b, b ∈ states ↔ p.Reaches fn b := by
    obtain ⟨g?, s₁, hread, h⟩ := Halting.bind_eq_ok_iff.mp h
    obtain ⟨hg?, rfl⟩ := Halting.ofExcept_eq_ok_iff.mp hread
    cases g? with
    | none =>
        obtain ⟨rfl, -⟩ := Halting.pure_eq_ok_iff.mp h
        obtain ⟨fn, hfn, hentry⟩ := FlowGraph.entryBlock?_of_ofFunction_eq_none hg?
        refine ⟨fn, hfn, fun b => ⟨by simp, fun hb => ?_⟩⟩
        -- Without an entry block there is nowhere to begin.
        have hnot : ∀ b, ¬ p.Reaches fn b := by
          intro b hb
          induction hb with
          | entry hb => simp [hentry] at hb
          | branch _ _ _ _ ih => exact ih
        exact absurd hb (hnot b)
    | some g =>
        obtain ⟨fn, hg⟩ := FlowGraph.of_ofFunction hg?
        obtain ⟨pending, s₂, hpush, h⟩ := Halting.bind_eq_ok_iff.mp h
        obtain ⟨hpending, rfl⟩ := Halting.ofExcept_eq_ok_iff.mp hpush
        have hlayout := (Solver.mem_of_pushAll hpending).1
        obtain ⟨last, hlast, hdone, rfl⟩ := Solver.run_induction
          (P := Solver.Covering p fn g)
          (fun _ _ _ _ _ hcover _ hvisit => hcover.visit hg hlayout hvisit)
          (.start hg hpending) h
        exact ⟨fn, hg.function_eq, fun b => hlast.mem_iff_reaches hg hlayout hdone⟩
  obtain ⟨fn, hfn, hmem⟩ := hreaches
  refine ⟨fn, hfn, hmem, fun hstay b => ?_⟩
  rw [hmem]
  constructor
  · intro hb
    obtain ⟨entry, hentry⟩ : ∃ entry, fn.entryBlock? = some entry := by
      induction hb with
      | entry hb => exact ⟨_, hb⟩
      | branch _ _ _ _ ih => exact ih
    exact ⟨entry, hentry, (Program.reaches_iff_reflTransGen hstay hentry).mp hb⟩
  · rintro ⟨entry, hentry, hb⟩
    exact (Program.reaches_iff_reflTransGen hstay hentry).mpr hb

/-- The first function branches to a block of its own and to the entry block of the second,
which goes on to another block. -/
def straying : List Step :=
  [.define "stray" [.int 1] .void, .block (.ofNat 0) "own", .define "host" [] .void,
    .block (.ofNat 1) "deep", .br (.ofNat 3), .positionAtEnd (.ofNat 3), .ret none,
    .positionAtEnd (.ofNat 0), .condBr (.ofNat 1) (.ofNat 1) (.ofNat 2),
    .positionAtEnd (.ofNat 1), .br (.ofNat 0)]

/-- From the first function control gets into the second, but no further than to the block
that it branches to. -/
theorem forward_covers_straying : ∃ built fn₀ fn₁ states₀ states₁,
    build straying = .ok built ∧ built.program.function (.ofNat 0) = .ok fn₀ ∧
    built.program.function (.ofNat 1) = .ok fn₁ ∧
    forward built.program (.ofNat 0) (sightings .every none) ValueSet.height ∅ () =
      .ok states₀ () ∧
    forward built.program (.ofNat 1) (sightings .every none) ValueSet.height ∅ () =
      .ok states₁ () ∧
    built.program.Reaches fn₀ (.ofNat 2) ∧ ¬ built.program.Reaches fn₀ (.ofNat 3) ∧
    built.program.BranchesStay fn₁ ∧
    Relation.ReflTransGen built.program.Branches (.ofNat 2) (.ofNat 3) := by
  let keys : Program → FuncId → Option (List BlockId) := fun p f =>
    ((forward p f (sightings .every none) ValueSet.height ∅).outcome ()).toOption.map
      Std.ExtTreeMap.keys
  obtain ⟨built, fn₀, fn₁, hbuilt, hfn₀, hfn₁, hkeys₀, hkeys₁, hblocks, hentry, hsuccs₂, hsuccs₃⟩ :
      ∃ built fn₀ fn₁, build straying = .ok built ∧
      built.program.function (.ofNat 0) = .ok fn₀ ∧ built.program.function (.ofNat 1) = .ok fn₁ ∧
      keys built.program (.ofNat 0) = some [.ofNat 0, .ofNat 1, .ofNat 2] ∧
      keys built.program (.ofNat 1) = some [.ofNat 2, .ofNat 3] ∧
      fn₁.blocks = [.ofNat 2, .ofNat 3] ∧ fn₁.entryBlock? = some (.ofNat 2) ∧
      built.program.successors (.ofNat 2) = .ok [.ofNat 3] ∧
      built.program.successors (.ofNat 3) = .ok [] :=
    ⟨_, _, _, rfl, rfl, rfl, by decide +kernel, by decide +kernel, rfl, rfl, rfl, rfl⟩
  have hstates : ∀ f found, keys built.program f = some found → ∃ states,
      forward built.program f (sightings .every none) ValueSet.height ∅ () = .ok states () ∧
        ∀ b, b ∈ states ↔ b ∈ found := by
    intro f found h
    cases hout : (forward built.program f (sightings .every none) ValueSet.height ∅).outcome () with
    | error halt =>
        simp only [keys, hout] at h
        cases h
    | ok states =>
        simp only [keys, hout] at h
        cases h
        obtain ⟨⟨⟩, hstates⟩ := Halting.outcome_eq_ok_iff.mp hout
        exact ⟨states, hstates, fun b => Std.ExtTreeMap.mem_keys.symm⟩
  obtain ⟨states₀, hstates₀, hmem₀⟩ := hstates (.ofNat 0) _ hkeys₀
  obtain ⟨states₁, hstates₁, hmem₁⟩ := hstates (.ofNat 1) _ hkeys₁
  obtain ⟨fn, hfn, hreaches, -⟩ := forward_covers hstates₀
  rw [hfn₀] at hfn
  cases hfn
  obtain ⟨fn, hfn, -, hplain⟩ := forward_covers hstates₁
  rw [hfn₁] at hfn
  cases hfn
  have hstay : built.program.BranchesStay fn₁ := by
    rintro a ha b ⟨succs, hsuccs, hb⟩
    rw [hblocks] at ha ⊢
    rcases List.mem_cons.mp ha with rfl | ha
    · rw [hsuccs₂] at hsuccs
      cases hsuccs
      exact List.mem_cons_of_mem _ hb
    · rw [List.mem_singleton.mp ha, hsuccs₃] at hsuccs
      cases hsuccs
      cases hb
  obtain ⟨entry, hentry', hpath⟩ := (hplain hstay (.ofNat 3)).mp ((hmem₁ _).mpr (by decide))
  rw [hentry] at hentry'
  cases hentry'
  refine ⟨built, fn₀, fn₁, states₀, states₁, hbuilt, hfn₀, hfn₁, hstates₀, hstates₁, ?_, ?_, hstay,
    hpath⟩
  · exact (hreaches _).mp ((hmem₀ _).mpr (by decide))
  · intro hdeep
    exact absurd ((hmem₀ _).mp ((hreaches _).mpr hdeep)) (by decide)

end CallTargets
