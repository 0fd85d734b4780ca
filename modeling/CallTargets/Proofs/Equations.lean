import CallTargets.Proofs.GraphFacts
import CallTargets.Proofs.PlainSolver

/-!
# The solver solves the dataflow equations

Between two visits, an edge whose target does not yet take account of the exit at its
source has that target pending.  Visits keep this up on any graph: a visit merges the
exits of all visited predecessors anew, and it queues the successors whenever the exit
that they depend on has changed, in whatever direction.  Once nothing is pending, the
recorded states solve the equations.
-/

namespace CallTargets

variable {ε σ D : Type}

/-- The laws of the join of a semilattice. -/
structure IsSemilattice (merge : D → D → D) : Prop where
  assoc : ∀ a b c, merge (merge a b) c = merge a (merge b c)
  comm : ∀ a b, merge a b = merge b a
  idem : ∀ a, merge a a = a

/-- Merging `a` into `b` changes nothing. -/
def Below (merge : D → D → D) (a b : D) : Prop := merge b a = b

namespace IsSemilattice

variable {merge : D → D → D} {a b c : D}

theorem below_merge_right (h : IsSemilattice merge) (a b : D) : Below merge b (merge a b) := by
  rw [Below, h.assoc, h.idem]

theorem below_merge_of_below (h : IsSemilattice merge) (hab : Below merge a b) (c : D) :
    Below merge a (merge b c) := by
  calc
    merge (merge b c) a = merge (merge b a) c := by
      rw [h.assoc, h.comm c a, ← h.assoc]
    _ = merge b c := by rw [hab]

end IsSemilattice

namespace Solver

/-! ## The queue -/

theorem mem_of_pushAll {g : FlowGraph} {bs : List BlockId}
    {pending pending' : Std.ExtTreeSet BlockId} (h : pushAll g pending bs = .ok pending') :
    (∀ b ∈ bs, b ∈ g.order) ∧ ∀ b, b ∈ pending' ↔ b ∈ pending ∨ b ∈ bs := by
  induction bs generalizing pending with
  | nil =>
      cases h
      simp
  | cons first bs ih =>
      rw [pushAll, List.foldlM_cons] at h
      obtain ⟨queued, hpush, h⟩ := bind_eq_ok_iff.mp h
      obtain ⟨horder, hmem⟩ := ih h
      unfold push at hpush
      split at hpush
      · next hfirst =>
          cases hpush
          refine ⟨fun b hb => ?_, fun b => ?_⟩
          · rcases List.mem_cons.mp hb with rfl | hb
            · exact hfirst
            · exact horder b hb
          · rw [hmem, Std.ExtTreeSet.mem_insert, Std.LawfulEqOrd.compare_eq_iff_eq,
              List.mem_cons]
            constructor
            · rintro ((rfl | hold) | hb)
              · exact Or.inr (Or.inl rfl)
              · exact Or.inl hold
              · exact Or.inr (Or.inr hb)
            · rintro (hold | rfl | hb)
              · exact Or.inl (Or.inr hold)
              · exact Or.inl (Or.inl rfl)
              · exact Or.inr hb
      · cases hpush

theorem mem_of_next? {g : FlowGraph} {pending : Std.ExtTreeSet BlockId} {b : BlockId}
    (h : next? g pending = some b) : b ∈ g.order ∧ b ∈ pending := by
  refine ⟨List.mem_of_find?_eq_some h, ?_⟩
  simpa using List.find?_some h

theorem notMem_of_next?_eq_none {g : FlowGraph} {pending : Std.ExtTreeSet BlockId}
    (h : next? g pending = none) {b : BlockId} (hb : b ∈ g.order) : b ∉ pending := by
  simpa using List.find?_eq_none.mp h b hb

theorem getElem?_insert_of_ne {states : BlockStates D} {state : BlockState D} {b x : BlockId}
    (h : x ≠ b) : (states.insert b state)[x]? = states[x]? := by
  rw [Std.ExtTreeMap.getElem?_insert,
    if_neg (fun heq => h (Std.LawfulEqOrd.eq_of_compare heq).symm)]

/-! ## The entry state of a visit -/

section Entry

variable {merge : D → D → D} {states : BlockStates D}

/-- A state that was there before the predecessors were merged is still accounted for. -/
theorem below_of_foldl_plainMerge (hmerge : IsSemilattice merge) {preds : List BlockId}
    {known entry x : D} (hx : Below merge x known)
    (h : preds.foldl (plainMerge merge states) (some known) = some entry) :
    Below merge x entry := by
  induction preds generalizing known with
  | nil =>
      cases h
      exact hx
  | cons pred preds ih =>
      rw [List.foldl_cons] at h
      unfold plainMerge at h
      cases hstate : states[pred]? with
      | none =>
          simp only [hstate] at h
          exact ih hx h
      | some state =>
          simp only [hstate] at h
          exact ih (hmerge.below_merge_of_below hx state.exit) h

variable (merge states) in
theorem isSome_foldl_plainMerge (preds : List BlockId) (known : D) :
    ∃ entry, preds.foldl (plainMerge merge states) (some known) = some entry := by
  induction preds generalizing known with
  | nil => exact ⟨known, rfl⟩
  | cons pred preds ih =>
      rw [List.foldl_cons]
      unfold plainMerge
      cases states[pred]? with
      | none => exact ih known
      | some state => exact ih (merge known state.exit)

theorem exists_entry_above_pred (hmerge : IsSemilattice merge) {preds : List BlockId}
    {known : Option D} {pred : BlockId} (hpred : pred ∈ preds) {state : BlockState D}
    (hstate : states[pred]? = some state) :
    ∃ entry, preds.foldl (plainMerge merge states) known = some entry ∧
      Below merge state.exit entry := by
  induction preds generalizing known with
  | nil => simp at hpred
  | cons first preds ih =>
      rw [List.foldl_cons]
      rcases List.mem_cons.mp hpred with rfl | hpred
      · have hmerged : ∃ e, plainMerge merge states known pred = some e ∧
            Below merge state.exit e := by
          unfold plainMerge
          cases known with
          | none => exact ⟨state.exit, by simp [hstate], hmerge.idem state.exit⟩
          | some e =>
              exact ⟨merge e state.exit, by simp [hstate], hmerge.below_merge_right _ _⟩
        obtain ⟨e, he, hbelow⟩ := hmerged
        obtain ⟨entry, hentry⟩ := isSome_foldl_plainMerge merge states preds e
        rw [he]
        exact ⟨entry, hentry, below_of_foldl_plainMerge hmerge hbelow hentry⟩
      · exact ih hpred

end Entry

/-! ## What a visit does -/

section Visit

variable [DecidableEq D] {g : FlowGraph} {merge : D → D → D}
  {transfer : ValueId → D → Failing ε D} {init : D} {progress progress' : Progress D}
  {b : BlockId}

/-- A visit either finds no state to start from, or records the states of the block and
queues its successors when the exit is a new one. -/
theorem plainVisit_cases (h : plainVisit g merge transfer init progress b = .ok progress') :
    (mergedEntry g merge init progress.states b = none ∧
      progress'.states = progress.states ∧ progress'.pending = progress.pending.erase b) ∨
    ∃ entry exit, mergedEntry g merge init progress.states b = some entry ∧
      plainExit g transfer b entry = .ok exit ∧
      progress'.states = progress.states.insert b ⟨entry, exit⟩ ∧
      if exitChanged progress.states b exit then
        pushAll g (progress.pending.erase b) (g.succs b) = .ok progress'.pending
      else progress'.pending = progress.pending.erase b := by
  unfold plainVisit at h
  cases hentry : mergedEntry g merge init progress.states b with
  | none =>
      simp only [hentry] at h
      cases h
      exact Or.inl ⟨rfl, rfl, rfl⟩
  | some entry =>
      simp only [hentry] at h
      obtain ⟨exit, hexit, h⟩ := bind_eq_ok_iff.mp h
      refine Or.inr ⟨entry, exit, rfl, hexit, ?_⟩
      by_cases hchanged : exitChanged progress.states b exit = true
      · rw [if_pos hchanged] at h
        obtain ⟨pending, hpending, h⟩ := bind_eq_ok_iff.mp h
        cases h
        refine ⟨rfl, ?_⟩
        rw [if_pos hchanged]
        cases hpush : pushAll g (progress.pending.erase b) (g.succs b) with
        | error cause =>
            rw [hpush] at hpending
            cases hpending
        | ok queued =>
            rw [hpush] at hpending
            cases hpending
            rfl
      · rw [if_neg hchanged] at h
        cases h
        exact ⟨rfl, by rw [if_neg hchanged]⟩

theorem mem_pending_of_visit
    (h : plainVisit g merge transfer init progress b = .ok progress') {x : BlockId}
    (hx : x ∈ progress.pending) (hne : x ≠ b) : x ∈ progress'.pending := by
  have herase : x ∈ progress.pending.erase b := by
    rw [Std.ExtTreeSet.mem_erase]
    exact ⟨fun heq => hne (Std.LawfulEqOrd.eq_of_compare heq).symm, hx⟩
  rcases plainVisit_cases h with ⟨-, -, hpending⟩ | ⟨entry, exit, -, -, -, hpending⟩
  · rwa [hpending]
  · split at hpending
    · exact ((mem_of_pushAll hpending).2 x).mpr (Or.inl herase)
    · rwa [hpending]

theorem mem_order_of_pending_visit
    (h : plainVisit g merge transfer init progress b = .ok progress')
    (hordered : ∀ x ∈ progress.pending, x ∈ g.order) :
    ∀ x ∈ progress'.pending, x ∈ g.order := by
  have herase : ∀ x ∈ progress.pending.erase b, x ∈ g.order :=
    fun x hx => hordered x (Std.ExtTreeSet.mem_of_mem_erase hx)
  intro x hx
  rcases plainVisit_cases h with ⟨-, -, hpending⟩ | ⟨entry, exit, -, -, -, hpending⟩
  · exact herase x (hpending ▸ hx)
  · split at hpending
    · obtain ⟨hsuccs, hmem⟩ := mem_of_pushAll hpending
      rcases (hmem x).mp hx with hx | hx
      · exact herase x hx
      · exact hsuccs x hx
    · exact herase x (hpending ▸ hx)

/-- What every visit keeps holds when no block is pending any more. -/
theorem plainRun_induction {P : Progress D → Prop}
    (hstep : ∀ progress b progress', P progress → next? g progress.pending = some b →
      plainVisit g merge transfer init progress b = .ok progress' → P progress')
    {fuel : Nat} {states : BlockStates D} (hP : P progress)
    (h : plainRun g merge transfer init fuel progress = .ok states) :
    ∃ last, P last ∧ next? g last.pending = none ∧ last.states = states := by
  induction fuel generalizing progress with
  | zero =>
      unfold plainRun at h
      cases hnext : next? g progress.pending with
      | none =>
          simp only [hnext] at h
          cases h
          exact ⟨progress, hP, hnext, rfl⟩
      | some b =>
          simp only [hnext] at h
          cases h
  | succ fuel ih =>
      unfold plainRun at h
      cases hnext : next? g progress.pending with
      | none =>
          simp only [hnext] at h
          cases h
          exact ⟨progress, hP, hnext, rfl⟩
      | some b =>
          simp only [hnext] at h
          obtain ⟨visited, hvisit, h⟩ := bind_eq_ok_iff.mp h
          exact ih (hstep progress b visited hP hnext hvisit) h

end Visit

/-! ## The invariant of the work list -/

/-- What holds between two visits. -/
structure Invariant (g : FlowGraph) (merge : D → D → D)
    (transfer : ValueId → D → Failing ε D) (init : D) (progress : Progress D) : Prop where
  pending_ordered : ∀ b ∈ progress.pending, b ∈ g.order
  visited_ordered : ∀ b state, progress.states[b]? = some state → b ∈ g.order
  exit_eq : ∀ b state, progress.states[b]? = some state →
    plainExit g transfer b state.entry = .ok state.exit
  entry_known : g.entry ∈ progress.pending ∨ ∃ state, progress.states[g.entry]? = some state
  init_below : ∀ state, progress.states[g.entry]? = some state → Below merge init state.entry
  /-- An edge is accounted for at its target, or the target is pending. -/
  edge : ∀ a state, a ∈ g.layout → progress.states[a]? = some state → ∀ b ∈ g.succs a,
    b ∈ progress.pending ∨
      ∃ target, progress.states[b]? = some target ∧ Below merge state.exit target.entry

namespace Invariant

variable {g : FlowGraph} {merge : D → D → D} {transfer : ValueId → D → Failing ε D} {init : D}
  {progress progress' : Progress D} {b : BlockId}

theorem start (hentry : g.entry ∈ g.layout) {pending : Std.ExtTreeSet BlockId}
    (h : pushAll g ∅ g.layout = .ok pending) :
    Invariant g merge transfer init ⟨pending, ∅⟩ := by
  obtain ⟨horder, hmem⟩ := mem_of_pushAll h
  refine ⟨fun b hb => ?_, by simp, by simp, Or.inl ?_, by simp, by simp⟩
  · exact horder b (by simpa using (hmem b).mp hb)
  · exact (hmem g.entry).mpr (Or.inr hentry)

/-- A visit that starts at the entry block takes account of the initial state. -/
theorem exists_entry_above_init (hmerge : IsSemilattice merge)
    (hinv : Invariant g merge transfer init progress) :
    ∃ entry, mergedEntry g merge init progress.states g.entry = some entry ∧
      Below merge init entry := by
  have hstart : ∃ d, start? g init progress.states g.entry = some d ∧ Below merge init d := by
    unfold start?
    cases hstate : progress.states[g.entry]? with
    | none => exact ⟨init, by simp, hmerge.idem init⟩
    | some state => exact ⟨state.entry, rfl, hinv.init_below state hstate⟩
  obtain ⟨d, hd, hbelow⟩ := hstart
  obtain ⟨entry, hentry⟩ := isSome_foldl_plainMerge merge progress.states (g.preds g.entry) d
  refine ⟨entry, ?_, below_of_foldl_plainMerge hmerge hbelow hentry⟩
  rw [mergedEntry, hd, hentry]

variable (init) in
theorem exists_entry_above_exit (hmerge : IsSemilattice merge)
    (hpreds : ∀ a ∈ g.layout, ∀ b ∈ g.succs a, a ∈ g.preds b) {a : BlockId}
    {state : BlockState D} (ha : a ∈ g.layout) (hstate : progress.states[a]? = some state)
    (hb : b ∈ g.succs a) :
    ∃ entry, mergedEntry g merge init progress.states b = some entry ∧
      Below merge state.exit entry :=
  exists_entry_above_pred hmerge (hpreds a ha b hb) hstate

/-- A skipped block is neither the entry block nor the successor of a visited block. -/
theorem skip (hmerge : IsSemilattice merge)
    (hpreds : ∀ a ∈ g.layout, ∀ b ∈ g.succs a, a ∈ g.preds b)
    (hinv : Invariant g merge transfer init progress)
    (hnone : mergedEntry g merge init progress.states b = none)
    (hstates : progress'.states = progress.states)
    (hordered : ∀ x ∈ progress'.pending, x ∈ g.order)
    (hkept : ∀ x ∈ progress.pending, x ≠ b → x ∈ progress'.pending) :
    Invariant g merge transfer init progress' where
  pending_ordered := hordered
  visited_ordered := hstates ▸ hinv.visited_ordered
  exit_eq := hstates ▸ hinv.exit_eq
  entry_known := by
    rw [hstates]
    rcases hinv.entry_known with hwait | hdone
    · refine Or.inl (hkept g.entry hwait ?_)
      rintro rfl
      obtain ⟨e, he, -⟩ := hinv.exists_entry_above_init hmerge
      simp [hnone] at he
    · exact Or.inr hdone
  init_below := hstates ▸ hinv.init_below
  edge := by
    rw [hstates]
    intro a state ha hstate x hx
    rcases hinv.edge a state ha hstate x hx with hwait | hdone
    · refine Or.inl (hkept x hwait ?_)
      rintro rfl
      obtain ⟨e, he, -⟩ := exists_entry_above_exit init hmerge hpreds ha hstate hx
      simp [hnone] at he
    · exact Or.inr hdone

variable [DecidableEq D]

/-- A visited block takes account of all edges into it, and the targets of the edges
out of it are queued unless its exit is the one that they already know. -/
theorem record (hmerge : IsSemilattice merge)
    (hpreds : ∀ a ∈ g.layout, ∀ b ∈ g.succs a, a ∈ g.preds b)
    (hinv : Invariant g merge transfer init progress) (hb : b ∈ g.order) {entry exit : D}
    (hentry : mergedEntry g merge init progress.states b = some entry)
    (hexit : plainExit g transfer b entry = .ok exit)
    (hstates : progress'.states = progress.states.insert b ⟨entry, exit⟩)
    (hordered : ∀ x ∈ progress'.pending, x ∈ g.order)
    (hkept : ∀ x ∈ progress.pending, x ≠ b → x ∈ progress'.pending)
    (hqueued : exitChanged progress.states b exit → ∀ x ∈ g.succs b, x ∈ progress'.pending) :
    Invariant g merge transfer init progress' := by
  have hself : progress'.states[b]? = some ⟨entry, exit⟩ := by
    rw [hstates]
    simp
  have hother : ∀ x, x ≠ b → progress'.states[x]? = progress.states[x]? := by
    intro x hx
    rw [hstates, getElem?_insert_of_ne hx]
  -- Whatever an old exit contributed to the target of its edge is contributed anew.
  have hedge : ∀ a state, a ∈ g.layout → progress.states[a]? = some state → ∀ x ∈ g.succs a,
      x ∈ progress'.pending ∨
        ∃ target, progress'.states[x]? = some target ∧ Below merge state.exit target.entry := by
    intro a state ha hstate x hx
    by_cases hxb : x = b
    · subst hxb
      obtain ⟨e, he, hbelow⟩ := exists_entry_above_exit init hmerge hpreds ha hstate hx
      rw [hentry] at he
      cases he
      exact Or.inr ⟨_, hself, hbelow⟩
    · rw [hother x hxb]
      exact (hinv.edge a state ha hstate x hx).imp_left (fun hwait => hkept x hwait hxb)
  refine ⟨hordered, fun x state hx => ?_, fun x state hx => ?_, ?_, fun state hx => ?_,
    fun a state ha hstate x hx => ?_⟩
  · by_cases hxb : x = b
    · exact hxb ▸ hb
    · exact hinv.visited_ordered x state (hother x hxb ▸ hx)
  · by_cases hxb : x = b
    · subst hxb
      rw [hself] at hx
      cases hx
      exact hexit
    · exact hinv.exit_eq x state (hother x hxb ▸ hx)
  · by_cases hxb : g.entry = b
    · exact Or.inr ⟨_, hxb ▸ hself⟩
    · rw [hother g.entry hxb]
      exact hinv.entry_known.imp_left (fun hwait => hkept g.entry hwait hxb)
  · by_cases hxb : g.entry = b
    · obtain ⟨e, he, hbelow⟩ := hinv.exists_entry_above_init hmerge
      rw [hxb, hentry] at he
      rw [hxb, hself] at hx
      cases he
      cases hx
      exact hbelow
    · exact hinv.init_below state (hother g.entry hxb ▸ hx)
  · by_cases hab : a = b
    · subst hab
      rw [hself] at hstate
      cases hstate
      cases hold : progress.states[a]? with
      | none => exact Or.inl (hqueued (by simp [exitChanged, hold]) x hx)
      | some old =>
          by_cases hsame : old.exit = exit
          · exact hsame ▸ hedge a old ha hold x hx
          · exact Or.inl (hqueued (by simp [exitChanged, hold, hsame]) x hx)
    · exact hedge a state ha (hother a hab ▸ hstate) x hx

theorem visit (hmerge : IsSemilattice merge)
    (hpreds : ∀ a ∈ g.layout, ∀ b ∈ g.succs a, a ∈ g.preds b)
    (hinv : Invariant g merge transfer init progress) (hb : b ∈ g.order)
    (hvisit : plainVisit g merge transfer init progress b = .ok progress') :
    Invariant g merge transfer init progress' := by
  have hordered := mem_order_of_pending_visit hvisit hinv.pending_ordered
  have hkept : ∀ x ∈ progress.pending, x ≠ b → x ∈ progress'.pending :=
    fun x hx hne => mem_pending_of_visit hvisit hx hne
  rcases plainVisit_cases hvisit with
    ⟨hnone, hstates, -⟩ | ⟨entry, exit, hentry, hexit, hstates, hqueue⟩
  · exact hinv.skip hmerge hpreds hnone hstates hordered hkept
  · refine hinv.record hmerge hpreds hb hentry hexit hstates hordered hkept ?_
    intro hchanged x hx
    rw [if_pos hchanged] at hqueue
    exact ((mem_of_pushAll hqueue).2 x).mpr (Or.inr hx)

end Invariant

end Solver

/-! ## Solutions of the dataflow equations -/

/-- The states of the blocks of a function solve its dataflow equations: each exit is
the transfer of the block over its entry, the entry block starts from the initial
state, and no edge between blocks of the function brings anything new to its target. -/
structure Solution {E : Type} (p : Program) (func : FuncId) (merge : D → D → D)
    (transfer : ValueId → D → Except E D) (init : D) (states : BlockStates D) : Prop where
  exit_eq : ∀ b state, states[b]? = some state → ∃ block, p.block b = .ok block ∧
    block.insts.toList.foldlM (fun d inst => transfer inst d) state.entry = .ok state.exit
  entry : ∀ fn b, p.function func = .ok fn → fn.entryBlock? = some b →
    ∃ state, states[b]? = some state ∧ merge state.entry init = state.entry
  edge : ∀ fn, p.function func = .ok fn → ∀ a ∈ fn.blocks, ∀ state,
    states[a]? = some state → ∃ succs, p.successors a = .ok succs ∧ ∀ b ∈ succs,
      ∃ target, states[b]? = some target ∧ merge target.entry state.exit = target.entry

/-- When no block is pending any more, the invariant is the solution. -/
theorem Solver.Invariant.solution {p : Program} {func : FuncId} {fn : Function} {g : FlowGraph}
    {merge : D → D → D} {transfer : ValueId → D → Failing ε D} {init : D}
    {progress : Solver.Progress D} (hg : FlowGraph.Of p func fn g)
    (hinv : Solver.Invariant g merge transfer init progress)
    (hdone : Solver.next? g progress.pending = none) :
    Solution p func merge transfer init progress.states := by
  have hempty : ∀ b, b ∉ progress.pending := fun b hb =>
    Solver.notMem_of_next?_eq_none hdone (hinv.pending_ordered b hb) hb
  refine ⟨fun b state hb => ?_, fun fn' b hfn' hb => ?_, fun fn' hfn' a ha state hstate => ?_⟩
  · obtain ⟨block, hblock, hinsts⟩ := hg.insts_eq b (hinv.visited_ordered b state hb)
    exact ⟨block, hblock, hinsts ▸ hinv.exit_eq b state hb⟩
  · rw [hg.function_eq] at hfn'
    cases hfn'
    rw [hg.entry_eq] at hb
    cases hb
    obtain ⟨state, hstate⟩ := hinv.entry_known.resolve_left (hempty g.entry)
    exact ⟨state, hstate, hinv.init_below state hstate⟩
  · rw [hg.function_eq] at hfn'
    cases hfn'
    refine ⟨g.succs a, hg.successors_eq a (hinv.visited_ordered a state hstate), ?_⟩
    intro b hb
    exact (hinv.edge a state (hg.layout_eq ▸ ha) hstate b hb).resolve_left (hempty b)

theorem plainForward_solution [DecidableEq D] {p : Program} {func : FuncId}
    {merge : D → D → D} {transfer : ValueId → D → Failing ε D} {height : Nat} {init : D}
    {states : BlockStates D} (hmerge : IsSemilattice merge)
    (h : plainForward p func merge transfer height init = .ok states) :
    Solution p func merge transfer init states := by
  obtain ⟨g?, hg?, h⟩ := bind_eq_ok_iff.mp h
  rw [Failing.ofExcept_eq_ok_iff] at hg?
  cases g? with
  | none =>
      cases h
      obtain ⟨fn, hfn, hentry⟩ := FlowGraph.entryBlock?_of_ofFunction_eq_none hg?
      refine ⟨by simp, fun fn' b hfn' hb => ?_, by simp⟩
      rw [hfn] at hfn'
      cases hfn'
      simp [hentry] at hb
  | some g =>
      obtain ⟨fn, hg⟩ := FlowGraph.of_ofFunction hg?
      obtain ⟨pending, hpending, h⟩ := bind_eq_ok_iff.mp h
      rw [Failing.ofExcept_eq_ok_iff] at hpending
      have hpreds : ∀ a ∈ g.layout, ∀ b ∈ g.succs a, a ∈ g.preds b :=
        fun a ha b hb => (hg.mem_preds_iff a b).mpr ⟨ha, hb⟩
      obtain ⟨last, hinv, hdone, rfl⟩ := Solver.plainRun_induction
        (fun progress b progress' hinv hnext hvisit =>
          hinv.visit hmerge hpreds (Solver.mem_of_next? hnext).1 hvisit)
        (Solver.Invariant.start hg.entry_mem_layout hpending) h
      exact hinv.solution hg hdone

/-- As long as the state of a visitor satisfies `I`, its transfers come to the outcomes
that `transfer` gives, and the state goes on to satisfy `I`. -/
structure Visitor.Functional (v : Visitor ε σ D) (I : σ → Prop)
    (transfer : ValueId → D → Failing ε D) : Prop where
  noteMerge : ∀ a b s, I s → I (v.noteMerge a b s)
  transfer : ∀ inst d s, I s →
    ∃ s', I s' ∧ v.transfer inst d s = Halting.ofFailing (transfer inst d) s'

theorem Visitor.Functional.computes {v : Visitor ε σ D} {I : σ → Prop}
    {transfer : ValueId → D → Failing ε D} (h : v.Functional I transfer) :
    Visitor.Computes (fun s t => s = t ∧ I s) v v transfer where
  merge_eq := rfl
  noteMerge := by
    rintro a b s t ⟨rfl, hs⟩
    exact ⟨rfl, h.noteMerge a b s hs⟩
  transfer := by
    rintro inst d s t ⟨rfl, hs⟩
    obtain ⟨s', hs', heq⟩ := h.transfer inst d s hs
    exact ⟨s', s', ⟨rfl, hs'⟩, heq, heq⟩

theorem forward_eq_ok_solution [DecidableEq D] {p : Program} {func : FuncId}
    {v : Visitor ε σ D} {I : σ → Prop} {transfer : ValueId → D → Failing ε D} {height : Nat}
    {init : D} {states : BlockStates D} {s s' : σ} (hmerge : IsSemilattice v.merge)
    (hv : v.Functional I transfer) (hs : I s)
    (h : forward p func v height init s = .ok states s') :
    Solution p func v.merge transfer init states := by
  have hcomputes := hv.computes.forward p func init (Or.inl (Eq.refl height))
  exact plainForward_solution hmerge (hcomputes.eq_ok ⟨rfl, hs⟩ h)

end CallTargets
