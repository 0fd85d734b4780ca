import CallTargets.Proofs.ClosedProgram
import CallTargets.Proofs.Coverage
import CallTargets.Proofs.KeptInvariants
import CallTargets.Proofs.VisitingOrder

/-!
# Computations without faults

A safe computation gives a result or fails in an allowed way, but it never faults.  Safety is
put together like the computations themselves.  The solver is safe on linked, closed programs
for every visitor with safe transfers: it records states only for blocks that were found from
the entry block, and the successors of those are in the visiting order.
-/

namespace CallTargets

variable {ε ε' σ α β D : Type}

/-- The halt is no fault, and a failure satisfies `E`. -/
def Halt.Allowed (E : ε → Prop) : Halt ε → Prop
  | .fault _ => False
  | .failed e => E e
  | .exhausted => True

namespace Failing

variable {E : ε → Prop} {P : α → Prop} {Q : β → Prop} {x : Failing ε α}

/-- Results satisfy `P`, and there are no other halts than allowed ones. -/
def Safe (E : ε → Prop) (P : α → Prop) : Failing ε α → Prop
  | .ok a => P a
  | .error halt => halt.Allowed E

namespace Safe

theorem failed {e : ε} (h : E e) : Safe E P (.error (.failed e)) := h

protected theorem bind {f : α → Failing ε β} (hx : Safe E P x) (hf : ∀ a, P a → Safe E Q (f a)) :
    Safe E Q (x >>= f) := by
  cases x with
  | ok a => exact hf a hx
  | error halt => exact hx

theorem ofExcept {x : Except Fault α} (h : Gives P x) : Safe E P (Failing.ofExcept x) := by
  obtain ⟨a, rfl, ha⟩ := h
  exact ha

theorem foldlM {f : β → α → Failing ε β} {l : List α}
    (hstep : ∀ b, Q b → ∀ a ∈ l, Safe E Q (f b a)) {b : β} (hb : Q b) :
    Safe E Q (l.foldlM f b) := by
  induction l generalizing b with
  | nil => exact hb
  | cons a l ih =>
      rw [List.foldlM_cons]
      refine Safe.bind (hstep b hb a (by simp)) (fun b' hb' => ?_)
      exact ih (fun c hc a' ha' => hstep c hc a' (by simp [ha'])) hb'

end Safe

end Failing

namespace Halting

variable {I : σ → Prop} {E : ε → Prop} {P : α → Prop} {Q : β → Prop} {x : Halting ε σ α}

/-- From states that satisfy `I` the computation comes to results that satisfy `P` or to
allowed halts, and to states that satisfy `I`. -/
def Safe (I : σ → Prop) (E : ε → Prop) (P : α → Prop) (x : Halting ε σ α) : Prop :=
  ∀ s, I s →
    match x s with
    | .ok a s' => P a ∧ I s'
    | .error halt s' => halt.Allowed E ∧ I s'

namespace Safe

protected theorem pure {a : α} (h : P a) : Safe I E P (pure a : Halting ε σ α) :=
  fun _ hs => ⟨h, hs⟩

theorem exhausted : Safe I E P (throw .exhausted : Halting ε σ α) := fun _ hs => ⟨trivial, hs⟩

protected theorem bind {f : α → Halting ε σ β} (hx : Safe I E P x)
    (hf : ∀ a, P a → Safe I E Q (f a)) : Safe I E Q (x >>= f) := by
  intro s hs
  have hsafe := hx s hs
  rw [bind_apply]
  cases hxs : x s with
  | error halt s' =>
      rw [hxs] at hsafe
      exact hsafe
  | ok a s' =>
      rw [hxs] at hsafe
      exact hf a hsafe.1 s' hsafe.2

theorem strengthen {P' : α → Prop} (h : Safe I E P x)
    (hP : ∀ s a s', I s → x s = .ok a s' → P a → P' a) : Safe I E P' x := by
  intro s hs
  have hsafe := h s hs
  cases hxs : x s with
  | error halt s' =>
      rw [hxs] at hsafe
      exact hsafe
  | ok a s' =>
      rw [hxs] at hsafe
      exact ⟨hP s a s' hs hxs hsafe.1, hsafe.2⟩

theorem modify {f : σ → σ} (hf : ∀ s, I s → I (f s)) :
    Safe I E (fun _ => True) (modify f : Halting ε σ PUnit) :=
  fun s hs => ⟨trivial, hf s hs⟩

theorem ofFailing {x : Failing ε α} (h : x.Safe E P) :
    Safe I E P (Halting.ofFailing x : Halting ε σ α) := by
  intro s hs
  cases x with
  | error halt => exact ⟨h, hs⟩
  | ok a => exact ⟨h, hs⟩

theorem ofExcept_bind {x : Except Fault α} {f : α → Halting ε σ β} (h : Gives P x)
    (hf : ∀ a, x = .ok a → P a → Safe I E Q (f a)) : Safe I E Q (Halting.ofExcept x >>= f) := by
  obtain ⟨a, rfl, ha⟩ := h
  exact hf a rfl ha

theorem mapFailure {f : ε → ε'} {E' : ε' → Prop} (h : Safe I E P x) (hf : ∀ e, E e → E' (f e)) :
    Safe I E' P (Halting.mapFailure f x) := by
  intro s hs
  have hsafe := h s hs
  unfold Halting.mapFailure
  cases hxs : x s with
  | ok a s' =>
      rw [hxs] at hsafe
      exact hsafe
  | error halt s' =>
      rw [hxs] at hsafe
      cases halt with
      | fault cause => exact hsafe.1.elim
      | failed e => exact ⟨hf e hsafe.1, hsafe.2⟩
      | exhausted => exact hsafe

theorem foldlM {f : α → β → Halting ε σ α} {l : List β}
    (hstep : ∀ a, P a → ∀ b ∈ l, Safe I E P (f a b)) {a : α} (ha : P a) :
    Safe I E P (l.foldlM f a) := by
  induction l generalizing a with
  | nil => exact Safe.pure ha
  | cons b l ih =>
      rw [List.foldlM_cons]
      refine Safe.bind (hstep a ha b (by simp)) (fun a' ha' => ?_)
      exact ih (fun a'' ha'' b' hb' => hstep a'' ha'' b' (by simp [hb'])) ha'

end Safe

end Halting

/-! ## The solver -/

/-- Merges keep a property of states, and the transfers of existing instructions are safe. -/
structure Visitor.Safe (p : Program) (I : σ → Prop) (E : ε → Prop) (P : D → Prop)
    (v : Visitor ε σ D) : Prop where
  merge : ∀ a b, P a → P b → P (v.merge a b)
  noteMerge : ∀ a b s, I s → I (v.noteMerge a b s)
  transfer : ∀ inst d, p.HasValue inst → P d → Halting.Safe I E P (v.transfer inst d)

namespace Solver

/-- Both states of every recorded block satisfy `P`, and the block is among those that were
found from the entry block. -/
structure Progress.Sound (P : D → Prop) (reached : List BlockId) (progress : Progress D) :
    Prop where
  states : StatesHold P progress.states
  reached : ∀ b ∈ progress.states, b ∈ reached

theorem pushAll_gives {g : FlowGraph} {bs : List BlockId} (h : ∀ b ∈ bs, b ∈ g.order)
    (pending : Std.ExtTreeSet BlockId) : Gives (fun _ => True) (pushAll g pending bs) := by
  refine Gives.foldlM (fun found _ b hb => ?_) trivial
  unfold push
  rw [if_pos (h b hb)]
  exact ⟨_, rfl, trivial⟩

end Solver

namespace Visitor.Safe

open Solver

variable {p : Program} {I : σ → Prop} {E : ε → Prop} {P : D → Prop} {v : Visitor ε σ D}
  {g : FlowGraph} {init : D} {states : BlockStates D}

theorem mergePred (h : v.Safe p I E P) (hstates : StatesHold P states) {known : Option D}
    (hknown : ∀ d ∈ known, P d) (pred : BlockId) :
    Halting.Safe I E (fun known => ∀ d ∈ known, P d) (mergePred v states known pred) := by
  unfold Solver.mergePred
  cases hstate : states[pred]? with
  | none => exact Halting.Safe.pure hknown
  | some state =>
      have hexit := (hstates pred state hstate).2
      cases known with
      | none => exact Halting.Safe.pure (by simpa using hexit)
      | some entry =>
          have hnote := Halting.Safe.modify (E := E) (h.noteMerge entry state.exit)
          refine Halting.Safe.bind hnote (fun _ _ => ?_)
          exact Halting.Safe.pure (by simpa using h.merge _ _ (hknown entry rfl) hexit)

theorem entryState? (h : v.Safe p I E P) (hinit : P init) (hstates : StatesHold P states)
    (b : BlockId) :
    Halting.Safe I E (fun entry? => ∀ d ∈ entry?, P d ∧ HasStart g states b)
      (entryState? g v init states b) := by
  have hmerges : Halting.Safe I E (fun entry? => ∀ d ∈ entry?, P d)
      (Solver.entryState? g v init states b) := by
    refine Halting.Safe.foldlM (fun known hknown pred _ => h.mergePred hstates hknown pred) ?_
    intro d hd
    unfold start? at hd
    cases hstate : states[b]? with
    | some state =>
        simp only [hstate] at hd
        cases hd
        exact (hstates b state hstate).1
    | none =>
        simp only [hstate] at hd
        split at hd
        · cases hd
          exact hinit
        · cases hd
  refine hmerges.strengthen (fun s entry? s' _ hentry hP d hd => ⟨hP d hd, ?_⟩)
  exact (isSome_of_entryState? hentry).mp (Option.isSome_of_mem hd)

variable [DecidableEq D] {func : FuncId} {fn : Function} {reached : List BlockId}

theorem visit (h : v.Safe p I E P) (hlinked : p.Linked) (hg : FlowGraph.Of p func fn g)
    (hordered : g.Ordered reached) (hinit : P init) {progress : Progress D}
    (hprogress : progress.Sound P reached) (b : BlockId) :
    Halting.Safe I E (Progress.Sound P reached) (visit g v init progress b) := by
  refine Halting.Safe.bind (h.entryState? hinit hprogress.states b) (fun entry? hentry => ?_)
  cases entry? with
  | none => exact Halting.Safe.pure ⟨hprogress.states, hprogress.reached⟩
  | some entry =>
      obtain ⟨hP, hstart⟩ := hentry entry rfl
      -- A block that has something to start from was found already, or is found now from a
      -- predecessor with a state.
      have hb : b ∈ reached := by
        rcases hstart with hmem | rfl | ⟨a, ha, hmem⟩
        · exact hprogress.reached b hmem
        · exact hordered.entry
        · have hedge := ((hg.mem_preds_iff a b).mp ha).2
          exact hordered.succs a (hprogress.reached a hmem) b hedge
      have hinsts : ∀ inst ∈ g.insts b, p.HasValue inst := by
        obtain ⟨block, hblock, heq⟩ := hg.insts_eq b (hordered.reached_subset b hb)
        intro inst hinst
        rw [heq] at hinst
        exact (hlinked.blocks block (Program.mem_of_fetch hblock)).insts inst (by simpa using hinst)
      have htransfers := Halting.Safe.foldlM (I := I) (E := E) (P := P)
        (fun d hd inst hinst => h.transfer inst d (hinsts inst hinst) hd) hP
      refine Halting.Safe.bind htransfers (fun exit hexit => ?_)
      have hsound : ∀ pending : Std.ExtTreeSet BlockId,
          Progress.Sound P reached ⟨pending, progress.states.insert b ⟨entry, exit⟩⟩ := by
        refine fun pending => ⟨hprogress.states.insert b hP hexit, fun x hx => ?_⟩
        rcases mem_states_insert_iff.mp hx with rfl | hx
        · exact hb
        · exact hprogress.reached x hx
      dsimp only
      split
      · have hsuccs : ∀ succ ∈ g.succs b, succ ∈ g.order := fun succ hsucc =>
          hordered.reached_subset succ (hordered.succs b hb succ hsucc)
        refine Halting.Safe.ofExcept_bind (pushAll_gives hsuccs _) (fun pending _ _ => ?_)
        exact Halting.Safe.pure (hsound pending)
      · exact Halting.Safe.pure (hsound _)

theorem run (h : v.Safe p I E P) (hlinked : p.Linked) (hg : FlowGraph.Of p func fn g)
    (hordered : g.Ordered reached) (hinit : P init) (fuel : Nat) {progress : Progress D}
    (hprogress : progress.Sound P reached) :
    Halting.Safe I E (StatesHold P) (Solver.run g v init fuel progress) := by
  induction fuel generalizing progress with
  | zero =>
      unfold Solver.run
      split
      · exact Halting.Safe.pure hprogress.states
      · exact Halting.Safe.exhausted
  | succ fuel ih =>
      unfold Solver.run
      split
      · exact Halting.Safe.pure hprogress.states
      · have hvisit := h.visit hlinked hg hordered hinit hprogress
        exact Halting.Safe.bind (hvisit _) (fun _ hnext => ih hnext)

theorem forward (h : v.Safe p I E P) (hlinked : p.Linked) (hclosed : p.Closed)
    (hfunc : p.HasFunction func) (height : Nat) (hinit : P init) :
    Halting.Safe I E (StatesHold P) (forward p func v height init) := by
  have hgraph := Program.ofFunction_gives hlinked hclosed hfunc
  refine Halting.Safe.ofExcept_bind hgraph (fun g? hg _ => ?_)
  cases g? with
  | none => exact Halting.Safe.pure .empty
  | some g =>
      obtain ⟨fn, hof⟩ := FlowGraph.of_ofFunction hg
      obtain ⟨reached, hordered⟩ := hof.exists_ordered
      have hpush := pushAll_gives hordered.layout_subset ∅
      refine Halting.Safe.ofExcept_bind hpush (fun pending _ _ => ?_)
      exact h.run hlinked hof hordered hinit _ ⟨.empty, by simp⟩

end Visitor.Safe

end CallTargets
