import CallTargets.Proofs.Coverage
import CallTargets.Proofs.Independence

/-!
# Invariants under a proviso

Some invariants are kept only as long as nothing untoward happens, and what has happened is
seen only in the state that a computation leaves behind.  A proviso is a property of states that
is never regained once it is lost.  Under a proviso on its last state, a computation keeps an
invariant and returns what is promised.  Since the proviso is known in the end only, what is
known in between goes into the precondition of what follows.
-/

namespace CallTargets

namespace Halting

variable {ε ε' σ α β : Type}

theorem final_of_ok {x : Halting ε σ α} {s s' : σ} {a : α} (h : x s = .ok a s') :
    x.final s = s' := by
  rw [final, h]

theorem final_of_error {x : Halting ε σ α} {s s' : σ} {halt : Halt ε}
    (h : x s = .error halt s') : x.final s = s' := by
  rw [final, h]

/-- If the last state satisfies the proviso `J`, then so did the first.  If in addition `A` held
and the first state satisfied `I`, then so does the last, and a result satisfies `B`. -/
def Provided (J I : σ → Prop) (A : Prop) (B : α → Prop) (x : Halting ε σ α) : Prop :=
  ∀ s, J (x.final s) →
    J s ∧ (A → I s → I (x.final s) ∧ ∀ a s', x s = .ok a s' → B a)

namespace Provided

variable {J I : σ → Prop} {A : Prop} {B : α → Prop} {C : β → Prop} {x : Halting ε σ α}

protected theorem pure {a : α} (h : A → B a) : Provided J I A B (pure a : Halting ε σ α) := by
  refine fun s hJ => ⟨hJ, fun hA hI => ⟨hI, fun a' s' heq => ?_⟩⟩
  cases heq
  exact h hA

theorem throw (halt : Halt ε) : Provided J I A B (throw halt : Halting ε σ α) :=
  fun _ hJ => ⟨hJ, fun _ hI => ⟨hI, nofun⟩⟩

protected theorem bind {f : α → Halting ε σ β} (hx : Provided J I A B x)
    (hf : ∀ a, Provided J I (A ∧ B a) C (f a)) : Provided J I A C (x >>= f) := by
  intro s hJ
  cases hxs : x s with
  | error halt s' =>
      have hbind : (x >>= f) s = .error halt s' := by rw [bind_apply, hxs]
      have hfinal : (x >>= f).final s = x.final s := by
        rw [final_of_error hbind, final_of_error hxs]
      rw [hfinal] at hJ ⊢
      obtain ⟨hJ, hkept⟩ := hx s hJ
      refine ⟨hJ, fun hA hI => ⟨(hkept hA hI).1, fun b s'' heq => ?_⟩⟩
      rw [hbind] at heq
      cases heq
  | ok a s' =>
      have hbind : (x >>= f) s = f a s' := by rw [bind_apply, hxs]
      have hfinal : (x >>= f).final s = (f a).final s' := by rw [final, hbind, final]
      rw [hfinal] at hJ ⊢
      obtain ⟨hJ', hlast⟩ := hf a s' hJ
      rw [← final_of_ok hxs] at hJ'
      obtain ⟨hJ, hkept⟩ := hx s hJ'
      refine ⟨hJ, fun hA hI => ?_⟩
      obtain ⟨hI', hB⟩ := hkept hA hI
      rw [final_of_ok hxs] at hI'
      rw [hbind]
      exact hlast ⟨hA, hB a s' hxs⟩ hI'

theorem strengthen {A' : Prop} {B' : α → Prop} (h : Provided J I A B x) (hA : A' → A)
    (hB : ∀ s a s', x s = .ok a s' → A' → B a → B' a) : Provided J I A' B' x := by
  intro s hJ
  obtain ⟨hJ, hkept⟩ := h s hJ
  refine ⟨hJ, fun hA' hI => ?_⟩
  obtain ⟨hI', hresult⟩ := hkept (hA hA') hI
  exact ⟨hI', fun a s' heq => hB s a s' heq hA' (hresult a s' heq)⟩

theorem imp {A' : Prop} {B' : α → Prop} (h : Provided J I A B x) (hA : A' → A)
    (hB : ∀ a, A' → B a → B' a) : Provided J I A' B' x :=
  h.strengthen hA (fun _ a _ _ => hB a)

theorem modify {f : σ → σ} {K : Prop} (hf : ∀ s, J (f s) → J s ∧ (A → I s → I (f s) ∧ K)) :
    Provided J I (ε := ε) A (fun _ => K) (modify f) :=
  fun s hJ => ⟨(hf s hJ).1, fun hA hI => ((hf s hJ).2 hA hI).imp_right (fun hK _ _ _ => hK)⟩

theorem ofFailing {x : Failing ε α} (h : ∀ a, x = .ok a → A → B a) :
    Provided J I A B (Halting.ofFailing x : Halting ε σ α) := by
  cases x with
  | error halt => exact throw halt
  | ok a => exact Provided.pure (h a rfl)

theorem ofExcept_bind {x : Except Fault α} {f : α → Halting ε σ β}
    (h : ∀ a, x = .ok a → Provided J I A C (f a)) :
    Provided J I A C (Halting.ofExcept x >>= f) := by
  cases x with
  | error cause => exact throw (.fault cause)
  | ok a => exact h a rfl

theorem mapFailure {f : ε → ε'} (h : Provided J I A B x) :
    Provided J I A B (Halting.mapFailure f x) := by
  intro s hJ
  have hfinal : (Halting.mapFailure f x).final s = x.final s := by
    simp only [Halting.mapFailure, Halting.final]
    cases x s <;> rfl
  rw [hfinal] at hJ ⊢
  obtain ⟨hJ, hkept⟩ := h s hJ
  refine ⟨hJ, fun hA hI => ⟨(hkept hA hI).1, fun a s' heq => ?_⟩⟩
  apply (hkept hA hI).2 a s'
  unfold Halting.mapFailure at heq
  cases hxs : x s with
  | error halt t =>
      rw [hxs] at heq
      cases heq
  | ok b t =>
      rw [hxs] at heq
      cases heq
      rfl

theorem foldlM {f : α → β → Halting ε σ α} {l : List β}
    (hstep : ∀ a, ∀ b ∈ l, Provided J I (A ∧ B a) B (f a b)) (a : α) :
    Provided J I (A ∧ B a) B (l.foldlM f a) := by
  induction l generalizing a with
  | nil => exact Provided.pure And.right
  | cons b l ih =>
      rw [List.foldlM_cons]
      refine Provided.bind (hstep a b List.mem_cons_self) (fun a' => ?_)
      have hrest := ih (fun a'' b' hb' => hstep a'' b' (List.mem_cons_of_mem b hb')) a'
      exact hrest.imp (fun hA => ⟨hA.1.1, hA.2⟩) (fun _ _ hB => hB)

end Provided

end Halting

open Halting (Provided)

theorem Analysis.within_provided {ε α : Type} {J I I' : Session → Prop} {A : Prop} {B : α → Prop}
    {f : FuncId} {x : Analysis ε α} (h : Provided J I' A B x)
    (henter : ∀ s, J (s.enter f) → J s ∧ (I s → I' (s.enter f)))
    (hleave : ∀ s, J s.leave → J s ∧ (I' s → I s.leave)) :
    Provided J I A B (Analysis.within f x) := by
  intro s hJ
  have hfinal : (Analysis.within f x).final s = (x.final (s.enter f)).leave := by
    simp only [Analysis.within, Halting.final]
    cases x (s.enter f) <;> rfl
  rw [hfinal] at hJ ⊢
  obtain ⟨hJ', hleft⟩ := hleave _ hJ
  obtain ⟨hJ', hkept⟩ := h _ hJ'
  obtain ⟨hJ', hentered⟩ := henter s hJ'
  refine ⟨hJ', fun hA hI => ?_⟩
  obtain ⟨hI', hB⟩ := hkept hA (hentered hI)
  refine ⟨hleft hI', fun a s' heq => ?_⟩
  unfold Analysis.within at heq
  cases hx : x (s.enter f) with
  | error halt t =>
      rw [hx] at heq
      cases heq
  | ok b t =>
      rw [hx] at heq
      cases heq
      exact hB _ t hx

/-! ## The solver -/

/-- Under a proviso, merges keep a property of states, and so do the transfers of some
instructions. -/
structure Visitor.Provided {ε σ D : Type} (J I : σ → Prop) (Own : ValueId → Prop) (P : D → Prop)
    (v : Visitor ε σ D) : Prop where
  merge : ∀ a b, P a → P b → P (v.merge a b)
  noteMerge : ∀ a b s, v.noteMerge a b s = s
  transfer : ∀ inst d, Halting.Provided J I (Own inst ∧ P d) P (v.transfer inst d)

namespace Visitor.Provided

open Solver

variable {ε σ D : Type} {J I : σ → Prop} {Own : ValueId → Prop} {P : D → Prop}
  {v : Visitor ε σ D} (h : v.Provided J I Own P)

include h

theorem mergePred (states : BlockStates D) (known : Option D) (pred : BlockId) :
    Halting.Provided J I (StatesHold P states ∧ ∀ d ∈ known, P d) (fun known => ∀ d ∈ known, P d)
      (mergePred v states known pred) := by
  unfold Solver.mergePred
  cases hstate : states[pred]? with
  | none => exact Halting.Provided.pure And.right
  | some state =>
      cases known with
      | none =>
          apply Halting.Provided.pure
          rintro ⟨hstates, -⟩ d ⟨⟩
          exact (hstates pred state hstate).2
      | some entry =>
          have hnote : Halting.Provided J I (ε := ε) (StatesHold P states ∧ ∀ d ∈ some entry, P d)
              (fun _ => True) (modify (v.noteMerge entry state.exit)) := by
            apply Halting.Provided.modify
            intro s hJ
            rw [h.noteMerge] at hJ ⊢
            exact ⟨hJ, fun _ hI => ⟨hI, trivial⟩⟩
          refine Halting.Provided.bind hnote (fun _ => Halting.Provided.pure ?_)
          rintro ⟨⟨hstates, hknown⟩, -⟩ d ⟨⟩
          exact h.merge _ _ (hknown entry rfl) (hstates pred state hstate).2

theorem entryState? (g : FlowGraph) (init : D) (states : BlockStates D) (b : BlockId) :
    Halting.Provided J I (P init ∧ StatesHold P states) (fun known => ∀ d ∈ known, P d)
      (entryState? g v init states b) := by
  have hmerges := Halting.Provided.foldlM (l := g.preds b)
    (fun known pred _ => h.mergePred states known pred) (start? g init states b)
  exact hmerges.imp (fun hA => ⟨hA.2, hA.2.start? hA.1 b⟩) (fun _ _ hB => hB)

theorem transferAll (insts : List ValueId) (d : D) :
    Halting.Provided J I ((∀ inst ∈ insts, Own inst) ∧ P d) P (transferAll v insts d) := by
  refine Halting.Provided.foldlM (fun d inst hinst => ?_) d
  exact (h.transfer inst d).imp (fun hA => ⟨hA.1 inst hinst, hA.2⟩) (fun _ _ hB => hB)

variable [DecidableEq D]

theorem visit (g : FlowGraph) (init : D) (progress : Progress D) (b : BlockId) :
    Halting.Provided J I
      ((P init ∧ StatesHold P progress.states) ∧ ∀ inst ∈ g.insts b, Own inst)
      (fun progress => StatesHold P progress.states) (visit g v init progress b) := by
  refine Halting.Provided.bind ((h.entryState? g init progress.states b).imp And.left
    (fun _ _ hB => hB)) (fun entry? => ?_)
  cases entry? with
  | none => exact Halting.Provided.pure (fun hA => hA.1.1.2)
  | some entry =>
      refine Halting.Provided.bind ((h.transferAll (g.insts b) entry).imp
        (fun hA => ⟨hA.1.2, hA.2 entry rfl⟩) (fun _ _ hB => hB)) (fun exit => ?_)
      dsimp only
      split
      · refine Halting.Provided.ofExcept_bind (fun _ _ => Halting.Provided.pure ?_)
        rintro ⟨⟨⟨⟨-, hstates⟩, -⟩, hentry⟩, hexit⟩
        exact hstates.insert b (hentry entry rfl) hexit
      · apply Halting.Provided.pure
        rintro ⟨⟨⟨⟨-, hstates⟩, -⟩, hentry⟩, hexit⟩
        exact hstates.insert b (hentry entry rfl) hexit

/-- The blocks `Q` are closed under branches and hold only instructions that may be
transferred. -/
theorem run {g : FlowGraph} {Q : BlockId → Prop}
    (hinsts : ∀ b ∈ g.order, Q b → ∀ inst ∈ g.insts b, Own inst)
    (hsuccs : ∀ b ∈ g.order, Q b → ∀ x ∈ g.succs b, Q x) (init : D) (fuel : Nat)
    (progress : Progress D) :
    Halting.Provided J I
      (P init ∧ StatesHold P progress.states ∧ ∀ b ∈ progress.pending, Q b) (StatesHold P)
      (Solver.run g v init fuel progress) := by
  induction fuel generalizing progress with
  | zero =>
      unfold Solver.run
      split
      · exact Halting.Provided.pure (fun hA => hA.2.1)
      · exact Halting.Provided.throw _
  | succ fuel ih =>
      unfold Solver.run
      split
      · exact Halting.Provided.pure (fun hA => hA.2.1)
      · next b hb =>
          have horder := List.mem_of_find?_eq_some hb
          have hpending : b ∈ progress.pending := by simpa using List.find?_some hb
          have hvisit : Halting.Provided J I
              (P init ∧ StatesHold P progress.states ∧ ∀ b ∈ progress.pending, Q b)
              (fun progress' => StatesHold P progress'.states ∧ ∀ b ∈ progress'.pending, Q b)
              (Solver.visit g v init progress b) := by
            apply (h.visit g init progress b).strengthen
            · exact fun hA => ⟨⟨hA.1, hA.2.1⟩, hinsts b horder (hA.2.2 b hpending)⟩
            · rintro s progress' s' heq ⟨-, -, hQ⟩ hstates
              refine ⟨hstates, fun x hx => ?_⟩
              have hold : ∀ x ∈ progress.pending.erase b, Q x :=
                fun x hx => hQ x (Std.ExtTreeSet.mem_of_mem_erase hx)
              rcases visit_eq_ok_cases heq with ⟨-, -, herase⟩ | ⟨-, -, ⟨herase, -⟩ | hpush⟩
              · exact hold x (herase ▸ hx)
              · exact hold x (herase ▸ hx)
              · rcases ((mem_of_pushAll hpush).2 x).mp hx with hx | hx
                · exact hold x hx
                · exact hsuccs b horder (hQ b hpending) x hx
          refine Halting.Provided.bind hvisit (fun progress' => ?_)
          exact (ih progress').imp (fun hA => ⟨hA.1.1, hA.2⟩) (fun _ _ hB => hB)

/-- Where the branches of a function stay, only its own blocks are ever visited, and only its own
instructions transferred. -/
theorem forward {p : Program} {f : FuncId} (hown : ∀ inst ∈ p.bodyOf f, Own inst)
    (hstay : ∀ fn, p.function f = .ok fn → p.BranchesStay fn) (height : Nat) (init : D) :
    Halting.Provided J I (P init) (StatesHold P) (forward p f v height init) := by
  refine Halting.Provided.ofExcept_bind (fun g? hg => ?_)
  cases g? with
  | none => exact Halting.Provided.pure (fun _ => .empty)
  | some g =>
      obtain ⟨fn, hof⟩ := FlowGraph.of_ofFunction hg
      refine Halting.Provided.ofExcept_bind (fun pending hpending => ?_)
      have hinsts : ∀ b ∈ g.order, b ∈ fn.blocks → ∀ inst ∈ g.insts b, Own inst := by
        intro b hb hmem inst hinst
        obtain ⟨block, hblock, heq⟩ := hof.insts_eq b hb
        rw [heq, Array.mem_toList_iff] at hinst
        apply hown
        exact Program.mem_bodyOf.mpr ⟨fn, hof.function_eq, b, hmem, block, hblock, hinst⟩
      have hsuccs : ∀ b ∈ g.order, b ∈ fn.blocks → ∀ x ∈ g.succs b, x ∈ fn.blocks :=
        fun b hb hmem x hx => hstay fn hof.function_eq b hmem x ⟨_, hof.successors_eq b hb, hx⟩
      apply (h.run hinsts hsuccs init _ ⟨pending, ∅⟩).imp
      · refine fun hinit => ⟨hinit, .empty, fun b hb => ?_⟩
        rw [← hof.layout_eq]
        exact (((mem_of_pushAll hpending).2 b).mp hb).resolve_left (by simp)
      · exact fun _ _ hstates => hstates

end Visitor.Provided

end CallTargets
