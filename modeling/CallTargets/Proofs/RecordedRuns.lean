import CallTargets.Proofs.Coverage

/-!
# What a recorded run shows

A recording visitor does what the visitor does that it records: its runs come to the same outcomes,
and they leave the visitor in the same state.  The record is complete.  A visit that finds a state
to start from transfers the instructions of its block, each in its turn, and a visit that finds
none transfers nothing.
-/

namespace CallTargets

variable {ε σ D α β : Type}

/-- The computation `y` does what `x` does, and adds to a record of its own. -/
def Halting.IsRecording (x : Halting ε σ α) (y : Halting ε (Recorded D σ) α) : Prop :=
  ∀ r, ∃ actions, y r =
    match x r.state with
    | .ok a s => .ok a ⟨actions, s⟩
    | .error halt s => .error halt ⟨actions, s⟩

namespace Halting.IsRecording

variable {x : Halting ε σ α} {y : Halting ε (Recorded D σ) α}

theorem eq_ok (h : IsRecording x y) {r : Recorded D σ} {a : α} {s : σ}
    (hx : x r.state = .ok a s) : ∃ r', y r = .ok a r' ∧ r'.state = s := by
  obtain ⟨actions, hy⟩ := h r
  rw [hx] at hy
  exact ⟨_, hy, rfl⟩

protected theorem pure (a : α) :
    IsRecording (pure a : Halting ε σ α) (pure a : Halting ε (Recorded D σ) α) :=
  fun r => ⟨r.actions, rfl⟩

theorem throw (halt : Halt ε) :
    IsRecording (throw halt : Halting ε σ α) (throw halt : Halting ε (Recorded D σ) α) :=
  fun r => ⟨r.actions, rfl⟩

protected theorem bind {f : α → Halting ε σ β} {g : α → Halting ε (Recorded D σ) β}
    (hxy : IsRecording x y) (hfg : ∀ a, IsRecording (f a) (g a)) :
    IsRecording (x >>= f) (y >>= g) := by
  intro r
  obtain ⟨actions, hy⟩ := hxy r
  rw [bind_apply, bind_apply, hy]
  cases x r.state with
  | error halt s => exact ⟨actions, rfl⟩
  | ok a s => exact hfg a ⟨actions, s⟩

theorem ofExcept (z : Except Fault α) :
    IsRecording (Halting.ofExcept z : Halting ε σ α)
      (Halting.ofExcept z : Halting ε (Recorded D σ) α) := by
  cases z with
  | error cause => exact fun r => ⟨r.actions, rfl⟩
  | ok a => exact fun r => ⟨r.actions, rfl⟩

theorem foldlM {f : α → β → Halting ε σ α} {g : α → β → Halting ε (Recorded D σ) α}
    (hfg : ∀ a b, IsRecording (f a b) (g a b)) (l : List β) (a : α) :
    IsRecording (l.foldlM f a) (l.foldlM g a) := by
  induction l generalizing a with
  | nil => exact IsRecording.pure a
  | cons b l ih =>
      rw [List.foldlM_cons, List.foldlM_cons]
      exact IsRecording.bind (hfg a b) ih

end Halting.IsRecording

/-! ## Runs with a recording visitor -/

namespace Visitor

open Halting (IsRecording)

variable (v : Visitor ε σ D) (g : FlowGraph) (init : D)

theorem transfer_isRecording (inst : ValueId) (d : D) :
    IsRecording (v.transfer inst d) (v.recording.transfer inst d) := by
  intro r
  unfold recording
  dsimp only [Recorded.add]
  cases v.transfer inst d r.state <;> exact ⟨_, rfl⟩

theorem mergePred_isRecording (states : BlockStates D) (known : Option D) (pred : BlockId) :
    IsRecording (Solver.mergePred v states known pred)
      (Solver.mergePred v.recording states known pred) := by
  unfold Solver.mergePred
  cases states[pred]? with
  | none => exact IsRecording.pure known
  | some state =>
      cases known with
      | none => exact IsRecording.pure (some state.exit)
      | some entry => exact IsRecording.bind (fun r => ⟨_, rfl⟩) fun _ => IsRecording.pure _

variable [DecidableEq D]

theorem visit_isRecording (progress : Solver.Progress D) (b : BlockId) :
    IsRecording (Solver.visit g v init progress b)
      (Solver.visit g v.recording init progress b) := by
  have hentry := IsRecording.foldlM (v.mergePred_isRecording progress.states) (g.preds b)
    (Solver.start? g init progress.states b)
  refine IsRecording.bind hentry (fun entry? => ?_)
  cases entry? with
  | none => exact IsRecording.pure _
  | some entry =>
      have hexit := IsRecording.foldlM (fun d inst => v.transfer_isRecording inst d)
        (g.insts b) entry
      refine IsRecording.bind hexit (fun exit => ?_)
      dsimp only
      split
      · exact IsRecording.bind (IsRecording.ofExcept _) (fun _ => IsRecording.pure _)
      · exact IsRecording.pure _

theorem run_isRecording (fuel : Nat) (progress : Solver.Progress D) :
    IsRecording (Solver.run g v init fuel progress)
      (Solver.run g v.recording init fuel progress) := by
  induction fuel generalizing progress with
  | zero =>
      unfold Solver.run
      split
      · exact IsRecording.pure _
      · exact IsRecording.throw _
  | succ fuel ih =>
      unfold Solver.run
      split
      · exact IsRecording.pure _
      · exact IsRecording.bind (v.visit_isRecording g init progress _) ih

theorem forward_isRecording (p : Program) (func : FuncId) (height : Nat) :
    IsRecording (forward p func v height init) (forward p func v.recording height init) := by
  refine IsRecording.bind (IsRecording.ofExcept _) (fun g? => ?_)
  cases g? with
  | none => exact IsRecording.pure _
  | some g => exact IsRecording.bind (IsRecording.ofExcept _) (fun _ => v.run_isRecording g init _ _)

end Visitor

/-! ## What is recorded -/

def Action.inst? : Action D → Option ValueId
  | .merge _ _ => none
  | .transfer inst => some inst

namespace Recorded

/-- The instructions that were transferred, in the order in which it happened. -/
def transfers (r : Recorded D σ) : List ValueId := r.history.filterMap Action.inst?

theorem transfers_add_merge (r : Recorded D σ) (dest src : D) :
    (r.add (.merge dest src)).transfers = r.transfers := by
  simp [transfers, history, add, List.filterMap_cons, Action.inst?]

theorem transfers_add_transfer (r : Recorded D σ) (inst : ValueId) :
    (r.add (.transfer inst)).transfers = r.transfers ++ [inst] := by
  simp [transfers, history, add, Action.inst?]

end Recorded

namespace Solver

variable {v : Visitor ε σ D} {g : FlowGraph} {init : D} {r r' : Recorded D σ}

theorem mergePred_keeps_transfers (insts : List ValueId) (states : BlockStates D)
    (known : Option D) (pred : BlockId) :
    Halting.Keeps (fun r => r.transfers = insts) (fun _ => True)
      (mergePred v.recording states known pred) := by
  unfold mergePred
  cases states[pred]? with
  | none => exact Halting.Keeps.pure trivial
  | some state =>
      cases known with
      | none => exact Halting.Keeps.pure trivial
      | some entry =>
          have hnote : ∀ r : Recorded D σ, r.transfers = insts →
              (v.recording.noteMerge entry state.exit r).transfers = insts :=
            fun r hr => (r.transfers_add_merge entry state.exit).trans hr
          exact Halting.Keeps.bind (Halting.Keeps.modify hnote)
            (fun _ _ => Halting.Keeps.pure trivial)

theorem transfers_of_entryState? {states : BlockStates D} {b : BlockId} { entry? : Option D}
    (h : entryState? g v.recording init states b r = .ok entry? r') :
    r'.transfers = r.transfers := by
  have hkeeps : Halting.Keeps (fun r' => r'.transfers = r.transfers) (fun _ => True)
      (entryState? g v.recording init states b) :=
    Halting.Keeps.foldlM (fun known _ pred _ => mergePred_keeps_transfers _ states known pred)
      trivial
  have hafter := hkeeps r rfl
  rw [h] at hafter
  exact hafter.2

theorem transfers_of_transfer {inst : ValueId} {d d' : D}
    (h : v.recording.transfer inst d r = .ok d' r') : r'.transfers = r.transfers ++ [inst] := by
  unfold Visitor.recording at h
  dsimp only at h
  split at h
  · cases h
    exact r.transfers_add_transfer inst
  · cases h

theorem transfers_of_transferAll {insts : List ValueId} {d d' : D}
    (h : transferAll v.recording insts d r = .ok d' r') : r'.transfers = r.transfers ++ insts := by
  induction insts generalizing d r with
  | nil =>
      obtain ⟨-, rfl⟩ := Halting.pure_eq_ok_iff.mp h
      simp
  | cons inst insts ih =>
      rw [transferAll, List.foldlM_cons] at h
      obtain ⟨next, r₁, hinst, h⟩ := Halting.bind_eq_ok_iff.mp h
      rw [ih h, transfers_of_transfer hinst]
      simp

/-- What a visit transfers. -/
theorem transfers_of_visit [DecidableEq D] {progress progress' : Progress D} {b : BlockId}
    (h : visit g v.recording init progress b r = .ok progress' r') :
    (HasStart g progress.states b → r'.transfers = r.transfers ++ g.insts b) ∧
    (¬ HasStart g progress.states b → r'.transfers = r.transfers) := by
  obtain ⟨ entry?, r₁, hentry, h⟩ := Halting.bind_eq_ok_iff.mp h
  have hsome := isSome_of_entryState? hentry
  have hbefore := transfers_of_entryState? hentry
  cases entry? with
  | none =>
      obtain ⟨-, rfl⟩ := Halting.pure_eq_ok_iff.mp h
      have hnot : ¬ HasStart g progress.states b := by simpa using hsome
      exact ⟨fun hstart => absurd hstart hnot, fun _ => hbefore⟩
  | some entry =>
      have hstart : HasStart g progress.states b := by simpa using hsome
      refine ⟨fun _ => ?_, fun hnot => absurd hstart hnot⟩
      obtain ⟨exit, r₂, hexit, h⟩ := Halting.bind_eq_ok_iff.mp h
      have hafter : r' = r₂ := by
        split at h
        · obtain ⟨pending, r₃, hpush, h⟩ := Halting.bind_eq_ok_iff.mp h
          obtain ⟨-, rfl⟩ := Halting.ofExcept_eq_ok_iff.mp hpush
          exact (Halting.pure_eq_ok_iff.mp h).2.symm
        · exact (Halting.pure_eq_ok_iff.mp h).2.symm
      rw [hafter, transfers_of_transferAll hexit, hbefore]

end Solver

end CallTargets
