import CallTargets.Flow.Solver
import CallTargets.Proofs.Outcome

/-!
# The solver without the state of a visitor

When the transfers of a visitor come to outcomes that its own state has no say in, so
does the solver.  `plainForward` is the solver for such transfers, given as a function
on states of the domain.  The solver computes it, for one visitor or for two visitors
that run side by side, and what is said about the plain solver holds for both.
-/

namespace CallTargets

variable {ε σ D : Type}

namespace Solver

section Plain

variable (g : FlowGraph) (merge : D → D → D) (transfer : ValueId → D → Failing ε D) (init : D)

/-- Merges the exit of one predecessor, if it was visited. -/
def plainMerge (states : BlockStates D) (known : Option D) (pred : BlockId) : Option D :=
  match states[pred]?, known with
  | none, _ => known
  | some state, none => some state.exit
  | some state, some entry => some (merge entry state.exit)

/-- The entry state of a visit. -/
def mergedEntry (states : BlockStates D) (b : BlockId) : Option D :=
  (g.preds b).foldl (plainMerge merge states) (start? g init states b)

/-- The exit state of a visit. -/
def plainExit (b : BlockId) (entry : D) : Failing ε D :=
  (g.insts b).foldlM (fun state inst => transfer inst state) entry

variable [DecidableEq D]

/-- A visit of one block. -/
def plainVisit (progress : Progress D) (b : BlockId) : Failing ε (Progress D) :=
  match mergedEntry g merge init progress.states b with
  | none => .ok { progress with pending := progress.pending.erase b }
  | some entry => do
    let exit ← plainExit g transfer b entry
    let states := progress.states.insert b ⟨entry, exit⟩
    if exitChanged progress.states b exit then
      return ⟨← Failing.ofExcept (pushAll g (progress.pending.erase b) (g.succs b)), states⟩
    else
      return ⟨progress.pending.erase b, states⟩

/-- Visits of blocks until none is pending, at most `fuel` of them. -/
def plainRun : (fuel : Nat) → Progress D → Failing ε (BlockStates D)
  | 0, progress =>
    match next? g progress.pending with
    | none => .ok progress.states
    | some _ => .error .exhausted
  | fuel + 1, progress =>
    match next? g progress.pending with
    | none => .ok progress.states
    | some b => do plainRun fuel (← plainVisit g merge transfer init progress b)

end Plain

end Solver

/-- The solver for transfers that have no state of their own. -/
def plainForward [DecidableEq D] (p : Program) (func : FuncId) (merge : D → D → D)
    (transfer : ValueId → D → Failing ε D) (height : Nat) (init : D) :
    Failing ε (BlockStates D) := do
  match ← (Failing.ofExcept (FlowGraph.ofFunction p func) : Failing ε _) with
  | none => return ∅
  | some g =>
    let pending ← (Failing.ofExcept (Solver.pushAll g ∅ g.layout) : Failing ε _)
    Solver.plainRun g merge transfer init (Solver.budget height g.order.length) ⟨pending, ∅⟩

/-- Apart from faults before the first visit, the solver is a run of visits from a full
work list. -/
theorem plainForward_cases [DecidableEq D] (p : Program) (func : FuncId) (merge : D → D → D)
    (transfer : ValueId → D → Failing ε D) (init : D) :
    (∃ out : Failing ε (BlockStates D), Failing.Ends out ∧
      ∀ height, plainForward p func merge transfer height init = out) ∨
    ∃ g pending, FlowGraph.ofFunction p func = .ok (some g) ∧
      Solver.pushAll g ∅ g.layout = .ok pending ∧
      ∀ height, plainForward p func merge transfer height init =
        Solver.plainRun g merge transfer init (Solver.budget height g.order.length)
          ⟨pending, ∅⟩ := by
  unfold plainForward
  cases FlowGraph.ofFunction p func with
  | error cause => exact Or.inl ⟨.error (.fault cause), nofun, fun _ => rfl⟩
  | ok g? =>
      cases g? with
      | none => exact Or.inl ⟨.ok ∅, nofun, fun _ => rfl⟩
      | some g =>
          cases hpush : Solver.pushAll g ∅ g.layout with
          | error cause =>
              refine Or.inl ⟨.error (.fault cause), nofun, fun _ => ?_⟩
              change (Failing.ofExcept (Solver.pushAll g ∅ g.layout) >>= _ : Failing ε _) = _
              rw [hpush]
              rfl
          | ok pending =>
              refine Or.inr ⟨g, pending, rfl, hpush, fun _ => ?_⟩
              change (Failing.ofExcept (Solver.pushAll g ∅ g.layout) >>= _ : Failing ε _) = _
              rw [hpush]
              rfl

/-- Two visitors merge alike, and from related states their transfers come to the
outcomes that `transfer` gives. -/
structure Visitor.Computes (R : σ → σ → Prop) (v w : Visitor ε σ D)
    (transfer : ValueId → D → Failing ε D) : Prop where
  merge_eq : w.merge = v.merge
  noteMerge : ∀ a b s t, R s t → R (v.noteMerge a b s) (w.noteMerge a b t)
  transfer : ∀ inst state,
    Halting.Computes R (v.transfer inst state) (w.transfer inst state) (transfer inst state)

namespace Visitor.Computes

open Solver

variable {R : σ → σ → Prop} {v w : Visitor ε σ D} {transfer : ValueId → D → Failing ε D}

theorem mergePred (h : Visitor.Computes R v w transfer) (states : BlockStates D)
    (known : Option D) (pred : BlockId) :
    Halting.Computes R (mergePred v states known pred) (mergePred w states known pred)
      (.ok (plainMerge v.merge states known pred)) := by
  unfold Solver.mergePred plainMerge
  cases states[pred]? with
  | none => exact Halting.Computes.pure known
  | some state =>
      cases known with
      | none => exact Halting.Computes.pure (some state.exit)
      | some entry =>
          rw [h.merge_eq]
          exact Halting.Computes.bind (Halting.Computes.modify (h.noteMerge entry state.exit))
            (fun _ _ => Halting.Computes.pure _)

theorem entryState? (h : Visitor.Computes R v w transfer) (g : FlowGraph) (init : D)
    (states : BlockStates D) (b : BlockId) :
    Halting.Computes R (entryState? g v init states b) (entryState? g w init states b)
      (.ok (mergedEntry g v.merge init states b)) := by
  have hfold := Halting.Computes.foldlM (h.mergePred states) (g.preds b)
    (start? g init states b)
  have hpure : (g.preds b).foldlM
      (fun known pred => (.ok (plainMerge v.merge states known pred) : Failing ε (Option D)))
      (start? g init states b) = .ok (mergedEntry g v.merge init states b) :=
    List.foldlM_pure
  exact hpure ▸ hfold

theorem transferAll (h : Visitor.Computes R v w transfer) (g : FlowGraph) (b : BlockId)
    (entry : D) :
    Halting.Computes R (transferAll v (g.insts b) entry) (transferAll w (g.insts b) entry)
      (plainExit g transfer b entry) :=
  Halting.Computes.foldlM (fun state inst => h.transfer inst state) (g.insts b) entry

variable [DecidableEq D]

theorem visit (h : Visitor.Computes R v w transfer) (g : FlowGraph) (init : D)
    (progress : Progress D) (b : BlockId) :
    Halting.Computes R (visit g v init progress b) (visit g w init progress b)
      (plainVisit g v.merge transfer init progress b) := by
  have hentry := h.entryState? g init progress.states b
  unfold Solver.visit plainVisit
  dsimp only
  refine Halting.Computes.bind_ok hentry ?_
  cases mergedEntry g v.merge init progress.states b with
  | none => exact Halting.Computes.pure _
  | some entry =>
      refine Halting.Computes.bind (h.transferAll g b entry) (fun exit _ => ?_)
      by_cases hchanged : exitChanged progress.states b exit = true
      · simp only [if_pos hchanged]
        exact Halting.Computes.bind (Halting.Computes.ofFailing _)
          (fun _ _ => Halting.Computes.pure _)
      · simp only [if_neg hchanged]
        exact Halting.Computes.pure _

/-- Budgets may differ as long as neither is spent. -/
theorem run (h : Visitor.Computes R v w transfer) (g : FlowGraph) (init : D)
    {fuel₁ fuel₂ : Nat} {progress : Progress D}
    (hfuel : fuel₁ = fuel₂ ∨
      (plainRun g v.merge transfer init fuel₁ progress).Ends ∧
        (plainRun g v.merge transfer init fuel₂ progress).Ends) :
    Halting.Computes R (run g v init fuel₁ progress) (run g w init fuel₂ progress)
      (plainRun g v.merge transfer init fuel₁ progress) := by
  induction fuel₁ generalizing fuel₂ progress with
  | zero =>
      cases hnext : next? g progress.pending with
      | none =>
          cases fuel₂ <;> simp only [Solver.run, plainRun, hnext] <;>
            exact Halting.Computes.pure _
      | some b =>
          rcases hfuel with rfl | ⟨hends, -⟩
          · simp only [Solver.run, plainRun, hnext]
            exact fun s t hst => ⟨s, t, hst, rfl, rfl⟩
          · simp [plainRun, hnext, Failing.Ends] at hends
  | succ fuel₁ ih =>
      cases hnext : next? g progress.pending with
      | none =>
          cases fuel₂ <;> simp only [Solver.run, plainRun, hnext] <;>
            exact Halting.Computes.pure _
      | some b =>
          cases fuel₂ with
          | zero =>
              rcases hfuel with hfuel | ⟨-, hends⟩
              · cases hfuel
              · simp [plainRun, hnext, Failing.Ends] at hends
          | succ fuel₂ =>
              simp only [plainRun, hnext] at hfuel
              simp only [Solver.run, plainRun, hnext]
              refine Halting.Computes.bind (h.visit g init progress b) (fun visited hvisited => ?_)
              rw [hvisited] at hfuel
              exact ih (hfuel.imp_left (fun heq => by omega))

theorem forward (h : Visitor.Computes R v w transfer) (p : Program) (func : FuncId) (init : D)
    {height₁ height₂ : Nat}
    (hheight : height₁ = height₂ ∨
      (plainForward p func v.merge transfer height₁ init).Ends ∧
        (plainForward p func v.merge transfer height₂ init).Ends) :
    Halting.Computes R (forward p func v height₁ init) (forward p func w height₂ init)
      (plainForward p func v.merge transfer height₁ init) := by
  unfold plainForward at hheight
  unfold CallTargets.forward plainForward
  refine Halting.Computes.bind (Halting.Computes.ofFailing _) (fun g? hg? => ?_)
  rw [hg?] at hheight
  cases g? with
  | none => exact Halting.Computes.pure _
  | some g =>
      refine Halting.Computes.bind (Halting.Computes.ofFailing _) (fun pending hpending => ?_)
      refine h.run g init ?_
      rcases hheight with rfl | hends
      · exact Or.inl rfl
      refine Or.inr ?_
      change (Failing.ofExcept (pushAll g ∅ g.layout) >>= _ : Failing ε _).Ends ∧
        (Failing.ofExcept (pushAll g ∅ g.layout) >>= _ : Failing ε _).Ends at hends
      rw [hpending] at hends
      exact hends

end Visitor.Computes

end CallTargets
