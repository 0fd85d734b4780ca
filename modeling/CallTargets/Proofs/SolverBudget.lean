import CallTargets.Proofs.Equations
import Mathlib.Algebra.Order.BigOperators.Group.List
import Mathlib.Algebra.GroupWithZero.Nat
import Mathlib.Algebra.Order.Group.Nat
import Mathlib.Data.List.Perm.Subperm

/-!
# The solver stays within its budget

A rank bounds how often the entry state of a block can change.  Each visit takes a
block off the work list.  It queues at most two others, and only when the exit of the
visited block is a new one, which needs a new entry state.  So the number of pending
blocks plus twice the number of changes that are left to all blocks goes down with
every visit, no matter how the exits move.  Any two budgets that cover it give one and
the same answer.
-/

namespace CallTargets

variable {ε D : Type}

/-- Merging raises the rank of a state or leaves the state as it is, and no rank
exceeds `height`. -/
structure Ascends (merge : D → D → D) (rank : D → Nat) (height : Nat) : Prop where
  bounded : ∀ d, rank d ≤ height
  grows : ∀ a b, merge a b = a ∨ rank a < rank (merge a b)

/-- The list of a set names nothing twice. -/
theorem nodup_toList {α : Type} [Ord α] [Std.TransOrd α] (t : Std.ExtTreeSet α) :
    t.toList.Nodup := by
  refine (Std.ExtTreeSet.distinct_toList (t := t)).imp (fun hne heq => ?_)
  exact hne (heq ▸ Std.ReflOrd.compare_self)

namespace Solver

/-! ## Sizes of work lists -/

theorem size_pushAll_le {g : FlowGraph} {bs : List BlockId}
    {pending pending' : Std.ExtTreeSet BlockId} (h : pushAll g pending bs = .ok pending') :
    pending'.size ≤ pending.size + bs.length := by
  induction bs generalizing pending with
  | nil =>
      cases h
      simp
  | cons first bs ih =>
      rw [pushAll, List.foldlM_cons] at h
      obtain ⟨queued, hpush, h⟩ := bind_eq_ok_iff.mp h
      have hrest := ih h
      unfold push at hpush
      split at hpush
      · cases hpush
        have hinsert := Std.ExtTreeSet.size_insert_le (t := pending) (k := first)
        rw [List.length_cons]
        omega
      · cases hpush

theorem size_le_length_of_subset {pending : Std.ExtTreeSet BlockId} {order : List BlockId}
    (h : ∀ b ∈ pending, b ∈ order) : pending.size ≤ order.length := by
  have hnodup := nodup_toList pending
  have hsubset : pending.toList ⊆ order := fun b hb => h b (Std.ExtTreeSet.mem_toList.mp hb)
  have hlength := (hnodup.subperm hsubset).length_le
  rwa [Std.ExtTreeSet.length_toList] at hlength

/-! ## Changes that are left -/

/-- How often the entry state of a block can still change; a block that was not
visited yet has its first visit to come. -/
def remaining (rank : D → Nat) (height : Nat) (states : BlockStates D) (b : BlockId) : Nat :=
  match states[b]? with
  | none => height + 1
  | some state => height - rank state.entry

/-- The number of visits that are still to come at most. -/
def potential (g : FlowGraph) (rank : D → Nat) (height : Nat) (progress : Progress D) : Nat :=
  progress.pending.size + 2 * (g.order.map (remaining rank height progress.states)).sum

section Potential

variable {g : FlowGraph} {merge : D → D → D} {transfer : ValueId → D → Failing ε D} {init : D}
  {rank : D → Nat} {height : Nat} {progress progress' : Progress D} {b : BlockId}

theorem eq_or_rank_lt_of_foldl (hrank : Ascends merge rank height) {states : BlockStates D}
    {preds : List BlockId} {known entry : D}
    (h : preds.foldl (plainMerge merge states) (some known) = some entry) :
    entry = known ∨ rank known < rank entry := by
  induction preds generalizing known with
  | nil =>
      cases h
      exact Or.inl rfl
  | cons pred preds ih =>
      rw [List.foldl_cons] at h
      unfold plainMerge at h
      cases hstate : states[pred]? with
      | none =>
          simp only [hstate] at h
          exact ih h
      | some state =>
          simp only [hstate] at h
          have hrest := ih h
          rcases hrank.grows known state.exit with hsame | hlt
          · rwa [hsame] at hrest
          · rcases hrest with rfl | hrest
            · exact Or.inr hlt
            · exact Or.inr (hlt.trans hrest)

variable [DecidableEq D]

/-- A new visit uses up a change when it finds a new exit, and never gives one back. -/
theorem remaining_after_visit (hrank : Ascends merge rank height) {entry exit : D}
    (hexits : ∀ state, progress.states[b]? = some state →
      plainExit g transfer b state.entry = .ok state.exit)
    (hentry : mergedEntry g merge init progress.states b = some entry)
    (hexit : plainExit g transfer b entry = .ok exit) :
    height - rank entry + (if exitChanged progress.states b exit then 1 else 0) ≤
      remaining rank height progress.states b := by
  have hbound := hrank.bounded entry
  unfold remaining exitChanged
  cases hstate : progress.states[b]? with
  | none =>
      simp only [if_true]
      omega
  | some old =>
      have hstart : start? g init progress.states b = some old.entry := by
        simp [start?, hstate]
      rw [mergedEntry, hstart] at hentry
      rcases eq_or_rank_lt_of_foldl hrank hentry with rfl | hlt
      · have hsame : old.exit = exit := by
          rw [hexits old hstate] at hexit
          cases hexit
          rfl
        simp [hsame]
      · have hone : (if decide (old.exit ≠ exit) = true then 1 else 0) ≤ 1 := by
          split <;> omega
        dsimp only
        omega

/-- Every visit brings the potential down. -/
theorem potential_visit_lt (hrank : Ascends merge rank height)
    (hsuccs : ∀ b ∈ g.order, (g.succs b).length ≤ 2)
    (hexits : ∀ state, progress.states[b]? = some state →
      plainExit g transfer b state.entry = .ok state.exit)
    (hnext : next? g progress.pending = some b)
    (hvisit : plainVisit g merge transfer init progress b = .ok progress') :
    potential g rank height progress' < potential g rank height progress := by
  obtain ⟨horder, hmem⟩ := mem_of_next? hnext
  have herase : (progress.pending.erase b).size + 1 = progress.pending.size := by
    have hsize := Std.ExtTreeSet.size_erase (t := progress.pending) (k := b)
    rw [if_pos (Std.ExtTreeSet.mem_iff_contains.mp hmem)] at hsize
    have hpos : 0 < progress.pending.size := by
      rw [Nat.pos_iff_ne_zero]
      intro hzero
      rw [← Std.ExtTreeSet.eq_empty_iff_size_eq_zero] at hzero
      simp [hzero] at hmem
    omega
  unfold potential
  rcases plainVisit_cases hvisit with
    ⟨-, hstates, hpending⟩ | ⟨entry, exit, hentry, hexit, hstates, hqueue⟩
  · rw [hstates, hpending]
    omega
  · have hused := remaining_after_visit hrank hexits hentry hexit
    have hself : remaining rank height progress'.states b = height - rank entry := by
      simp [remaining, hstates]
    have hother : ∀ x, x ≠ b →
        remaining rank height progress'.states x = remaining rank height progress.states x := by
      intro x hx
      unfold remaining
      rw [hstates, getElem?_insert_of_ne hx]
    have hle : ∀ x ∈ g.order, remaining rank height progress'.states x ≤
        remaining rank height progress.states x := by
      intro x _
      by_cases hx : x = b
      · rw [hx, hself]
        omega
      · rw [hother x hx]
    -- A new exit queues at most two blocks, and one change of the entry state pays for them.
    by_cases hchanged : exitChanged progress.states b exit = true
    · rw [if_pos hchanged] at hqueue hused
      have hsize := size_pushAll_le hqueue
      have htwo := hsuccs b horder
      have hsum := List.sum_lt_sum _ _ hle ⟨b, horder, by omega⟩
      omega
    · rw [if_neg hchanged] at hqueue
      have hsum := List.sum_le_sum hle
      rw [hqueue]
      omega

omit [DecidableEq D] in
theorem potential_pos (rank : D → Nat) (height : Nat)
    (hnext : next? g progress.pending = some b) : 0 < potential g rank height progress := by
  have hmem := (mem_of_next? hnext).2
  have hsize : progress.pending.size ≠ 0 := by
    rw [Ne, ← Std.ExtTreeSet.eq_empty_iff_size_eq_zero]
    rintro hempty
    simp [hempty] at hmem
  unfold potential
  omega

end Potential

/-! ## Budgets that suffice -/

section Fuel

variable {g : FlowGraph} {merge : D → D → D} {transfer : ValueId → D → Failing ε D} {init : D}
  {rank : D → Nat} {height : Nat}

variable [DecidableEq D]

theorem plainVisit_ends (htransfer : ∀ inst d, (transfer inst d).Ends)
    (progress : Progress D) (b : BlockId) :
    (plainVisit g merge transfer init progress b).Ends := by
  unfold plainVisit
  cases mergedEntry g merge init progress.states b with
  | none => exact .ok _
  | some entry =>
      have hexit : (plainExit g transfer b entry).Ends :=
        Failing.Ends.foldlM (fun d inst => htransfer inst d) (g.insts b) entry
      refine hexit.bind (fun exit _ => ?_)
      dsimp only
      split
      · exact (Failing.Ends.ofExcept _).bind (fun _ _ => .ok _)
      · exact .ok _

theorem plainRun_of_next?_eq_none {progress : Progress D}
    (h : next? g progress.pending = none) (fuel : Nat) :
    plainRun g merge transfer init fuel progress = .ok progress.states := by
  cases fuel <;> simp [plainRun, h]

theorem plainRun_of_next?_eq_some {progress : Progress D} {b : BlockId}
    (h : next? g progress.pending = some b) (fuel : Nat) :
    plainRun g merge transfer init (fuel + 1) progress =
      plainVisit g merge transfer init progress b >>= plainRun g merge transfer init fuel := by
  simp [plainRun, h]

/-- Two budgets that both cover the potential give the same answer, and it is not that
the budget was spent. -/
theorem plainRun_fuel (hmerge : IsSemilattice merge) (hrank : Ascends merge rank height)
    (htransfer : ∀ inst d, (transfer inst d).Ends)
    (hsuccs : ∀ b ∈ g.order, (g.succs b).length ≤ 2)
    (hpreds : ∀ a ∈ g.layout, ∀ b ∈ g.succs a, a ∈ g.preds b)
    {fuel₁ fuel₂ : Nat} {progress : Progress D}
    (hinv : Invariant g merge transfer init progress)
    (h₁ : potential g rank height progress ≤ fuel₁)
    (h₂ : potential g rank height progress ≤ fuel₂) :
    plainRun g merge transfer init fuel₁ progress =
        plainRun g merge transfer init fuel₂ progress ∧
      (plainRun g merge transfer init fuel₁ progress).Ends := by
  induction fuel₁ generalizing fuel₂ progress with
  | zero =>
      cases hnext : next? g progress.pending with
      | none => simp [plainRun_of_next?_eq_none hnext, Failing.Ends]
      | some b =>
          have hpos := potential_pos rank height hnext
          omega
  | succ fuel₁ ih =>
      cases hnext : next? g progress.pending with
      | none => simp [plainRun_of_next?_eq_none hnext, Failing.Ends]
      | some b =>
          have hpos := potential_pos rank height hnext
          obtain ⟨fuel₂, rfl⟩ : ∃ n, fuel₂ = n + 1 := ⟨fuel₂ - 1, by omega⟩
          rw [plainRun_of_next?_eq_some hnext, plainRun_of_next?_eq_some hnext]
          cases hvisit : plainVisit g merge transfer init progress b with
          | error halt =>
              refine ⟨rfl, fun h => ?_⟩
              cases h
              exact plainVisit_ends htransfer progress b hvisit
          | ok progress' =>
              have hlt := potential_visit_lt hrank hsuccs (hinv.exit_eq b) hnext hvisit
              have hvisited := hinv.visit hmerge hpreds (mem_of_next? hnext).1 hvisit
              exact ih hvisited (by omega) (by omega)

end Fuel

/-- A budget for a rank covers the potential at the start. -/
theorem potential_start_le {g : FlowGraph} (rank : D → Nat) {height more : Nat}
    (hmore : height ≤ more) {pending : Std.ExtTreeSet BlockId}
    (hpending : ∀ b ∈ pending, b ∈ g.order) :
    potential g rank height ⟨pending, ∅⟩ ≤ budget more g.order.length := by
  have hsize := size_le_length_of_subset hpending
  have hsum : (g.order.map (remaining rank height (∅ : BlockStates D))).sum =
      g.order.length * (height + 1) := by
    have hconst : remaining rank height (∅ : BlockStates D) = fun _ => height + 1 := by
      funext b
      simp [remaining]
    simp [hconst]
  have hmul : g.order.length * (height + 1) ≤ g.order.length * (more + 1) :=
    Nat.mul_le_mul_left _ (by omega)
  unfold potential budget
  rw [hsum, Nat.mul_assoc]
  dsimp only
  omega

end Solver

/-- The plain solver finishes within any budget for at least `height` changes of the
entry states, always with the same answer. -/
theorem plainForward_height [DecidableEq D] {merge : D → D → D}
    {transfer : ValueId → D → Failing ε D} {rank : D → Nat} {height : Nat}
    (hmerge : IsSemilattice merge) (hrank : Ascends merge rank height)
    (htransfer : ∀ inst d, (transfer inst d).Ends)
    (p : Program) (func : FuncId) (init : D) {more₁ more₂ : Nat}
    (h₁ : height ≤ more₁) (h₂ : height ≤ more₂) :
    plainForward p func merge transfer more₁ init =
        plainForward p func merge transfer more₂ init ∧
      (plainForward p func merge transfer more₁ init).Ends := by
  rcases plainForward_cases p func merge transfer init with
    ⟨out, hout, hsame⟩ | ⟨g, pending, hgraph, hpush, hrun⟩
  · rw [hsame, hsame]
    exact ⟨rfl, hout⟩
  · obtain ⟨fn, hg⟩ := FlowGraph.of_ofFunction hgraph
    have hinv : Solver.Invariant g merge transfer init ⟨pending, ∅⟩ :=
      Solver.Invariant.start hg.entry_mem_layout hpush
    rw [hrun, hrun]
    exact Solver.plainRun_fuel hmerge hrank htransfer
      (fun b hb => hg.length_succs_le hb)
      (fun a ha b hb => (hg.mem_preds_iff a b).mpr ⟨ha, hb⟩) hinv
      (Solver.potential_start_le rank h₁ hinv.pending_ordered)
      (Solver.potential_start_le rank h₂ hinv.pending_ordered)

end CallTargets
