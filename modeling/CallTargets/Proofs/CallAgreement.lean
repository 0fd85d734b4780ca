import CallTargets.Analysis.Run
import CallTargets.Proofs.Outcome

/-!
# Instructions transferred side by side

Two sessions with one path of functions run side by side and do the same.  What they
remember besides the path may differ; a coupling says how it stays related while notes
are taken, edges are cut off and functions are entered and left.  If two ways of
analysing bodies agree on all functions that are not on the path, then the transfers of
an instruction that use them agree.
-/

namespace CallTargets

/-! ## Transfers without calls -/

namespace Offset

open Failing (Ends)

theorem index_ends (p : Program) (v : ValueId) : (index p v).Ends := by
  refine (Ends.ofExcept _).bind (fun n? _ => ?_)
  cases n? with
  | none => exact .failed _
  | some n =>
      dsimp only
      split
      · exact .ok _
      · exact .failed _

theorem checked_ends (n : Nat) : (checked n).Ends := by
  unfold checked
  cases word? n with
  | none => exact .failed _
  | some m => exact .ok m

theorem select_ends (ty : Ty) (n : Nat) : (select ty n).Ends := by
  unfold select
  split
  · split
    · exact .failed _
    · exact (Ends.ofExcept _).bind (fun _ _ => .ok _)
  · exact (Ends.ofExcept _).bind (fun _ _ => (checked_ends _).bind (fun _ _ => .ok _))
  · exact .failed _

theorem descend_ends (p : Program) (ty : Ty) (offset : Nat) (indices : List ValueId) :
    (descend p ty offset indices).Ends := by
  induction indices generalizing ty offset with
  | nil => exact .ok offset
  | cons v rest ih =>
      refine (index_ends p v).bind (fun n _ => (select_ends ty n).bind (fun part _ => ?_))
      exact (checked_ends _).bind (fun _ _ => ih part.2 _)

theorem constant_ends (p : Program) (ty : Ty) (indices : List ValueId) :
    (constant p ty indices).Ends := by
  have hcovered : (covered p ty indices).Ends := by
    cases indices with
    | nil => exact .ok 0
    | cons v rest =>
        refine (index_ends p v).bind (fun n _ => (Ends.ofExcept _).bind (fun _ _ => ?_))
        exact (checked_ends _).bind (fun _ _ => descend_ends p ty _ rest)
  refine hcovered.bind (fun n _ => ?_)
  split
  · exact .ok _
  · exact .failed _

end Offset

namespace Transfer

open Failing (Ends)

theorem refuse_ends {α : Type} (p : Program) (inst : ValueId) (reason : Reason) (s : Store) :
    (refuse p inst reason s : Failing Interrupted α).Ends :=
  (Ends.ofExcept _).bind (fun _ _ => .failed _)

theorem shift_ends (p : Program) (inst base : ValueId) (offset : Int64) (s : Store) :
    (shift p inst base offset s).Ends := by
  refine (Ends.ofExcept _).bind (fun pointees _ => Ends.foldlM (fun s pointee => ?_) _ _)
  split
  · exact .ok _
  · split
    · exact .ok _
    · exact refuse_ends p inst .offsetOverflow s

theorem gep_ends (p : Program) (inst base : ValueId) (elem : Ty) (indices : List ValueId)
    (s : Store) : (gep p inst base elem indices s).Ends := by
  unfold gep
  split
  · exact Ends.ofExcept _
  · have hconstant := Offset.constant_ends p elem indices
    split
    · exact shift_ends p inst base _ s
    · exact refuse_ends p inst _ s
    · exact .fault _
    · next h => exact absurd h hconstant

theorem plain_ends (p : Program) (c : Config) (inst : ValueId) (op : Op) (s : Store) :
    (plain p c inst op s).Ends := by
  have hguard : ∀ (v : ValueId) {x : Failing Interrupted Store}, x.Ends →
      Ends (do if ← (p.isPtr v : Except Fault Bool) then x else return s) := by
    intro v x hx
    refine (Ends.ofExcept _).bind (fun isPtr _ => ?_)
    split
    · exact hx
    · exact .ok s
  unfold plain
  split
  · exact hguard _ (Ends.ofExcept _)
  · exact hguard _ (Ends.ofExcept _)
  · exact hguard _ (Ends.ofExcept _)
  · exact hguard _ (gep_ends p inst _ _ _ s)
  · exact hguard _ (Ends.ofExcept _)
  · exact hguard _ (Ends.ofExcept _)
  · exact .ok s

end Transfer

/-! ## Coupled sessions -/

/-- Relations between sessions, one for each path of functions under analysis, that are
kept by everything an analysis does to its session. -/
structure Coupling where
  Rel : List FuncId → Session → Session → Prop
  path_left : ∀ {path s t}, Rel path s t → s.path = path
  path_right : ∀ {path s t}, Rel path s t → t.path = path
  note : ∀ {path s t} n, Rel path s t → Rel path (s.note n) (t.note n)
  cut : ∀ {path s t} c, Rel path s t → Rel path (s.cut c) (t.cut c)
  enter : ∀ {path s t} f, Rel path s t → Rel (f :: path) (s.enter f) (t.enter f)
  leave : ∀ {path s t f}, Rel (f :: path) s t → Rel path s.leave t.leave

namespace Coupling

/-- Nothing but the path has to be the same. -/
def samePath : Coupling where
  Rel path s t := s.path = path ∧ t.path = path
  path_left h := h.1
  path_right h := h.2
  note _ h := h
  cut _ h := h
  enter f h := ⟨congrArg (f :: ·) h.1, congrArg (f :: ·) h.2⟩
  leave h := ⟨congrArg List.tail h.1, congrArg List.tail h.2⟩

/-- The sessions are one and the same. -/
def equal : Coupling where
  Rel path s t := s = t ∧ s.path = path
  path_left h := h.2
  path_right h := h.1 ▸ h.2
  note n h := ⟨congrArg (Session.note n) h.1, h.2⟩
  cut c h := ⟨congrArg (Session.cut c) h.1, h.2⟩
  enter f h := ⟨congrArg (Session.enter f) h.1, congrArg (f :: ·) h.2⟩
  leave h := ⟨congrArg Session.leave h.1, congrArg List.tail h.2⟩

end Coupling

/-- Two ways of analysing bodies agree on all functions that are not on a path. -/
def Entering.AgreeOff (R : Coupling) (p : Program) (path : List FuncId)
    (enter₁ enter₂ : Entering) : Prop :=
  ∀ f fn context, p.function f = .ok fn → f ∉ path →
    Halting.Agree (R.Rel path) (enter₁ f context) (enter₂ f context)

namespace Call

open Halting (Agree Computes)

variable {R : Coupling} {p : Program} {c : Config} {path : List FuncId}
  {enter₁ enter₂ : Entering}

theorem notMem_of_cutoff?_eq_none {callee : FuncId} (h : cutoff? c path callee = none) :
    callee ∉ path := by
  intro hmem
  simp [cutoff?, hmem] at h

theorem agree_note {ε : Type} (n : Note) :
    Agree (R.Rel path) (Analysis.note n : Analysis ε Unit) (Analysis.note n) :=
  Agree.modify (fun _ _ h => R.note n h)

theorem canEnter_apply {ε : Type} (call : ValueId) (callee : FuncId) (s : Session) :
    (canEnter c call callee : Analysis ε Bool) s =
      match cutoff? c s.path callee with
      | none => .ok true s
      | some reason => .ok false (s.cut ⟨call, callee, reason⟩) := by
  change (match cutoff? c s.path callee with
    | none => pure true
    | some reason => do modify (Session.cut ⟨call, callee, reason⟩); return false :
      Analysis ε Bool) s = _
  cases cutoff? c s.path callee <;> rfl

theorem canEnter_computes {ε : Type} (call : ValueId) (callee : FuncId) :
    Computes (R.Rel path) (canEnter c call callee : Analysis ε Bool) (canEnter c call callee)
      (.ok (cutoff? c path callee).isNone) := by
  intro s t h
  rw [canEnter_apply, canEnter_apply, R.path_left h, R.path_right h]
  cases cutoff? c path callee with
  | none => exact ⟨s, t, h, rfl, rfl⟩
  | some reason => exact ⟨_, _, R.cut _ h, rfl, rfl⟩

theorem enterOne_agree (henter : Entering.AgreeOff R p path enter₁ enter₂) (call : ValueId)
    (args : List ValueId) (before : Store) (f : FuncId) :
    Agree (R.Rel path) (enterOne p c enter₁ call args before f)
      (enterOne p c enter₂ call args before f) := by
  refine Agree.ofExcept_bind (fun callee hcallee => ?_)
  split
  · exact Agree.pure none
  · refine Agree.of_computes_bind (canEnter_computes call f) ?_
    cases hcutoff : cutoff? c path f with
    | some reason => exact Agree.pure none
    | none =>
        refine Agree.ofExcept_bind (fun context _ => Agree.bind (agree_note _) (fun _ => ?_))
        have hbody := henter f callee context hcallee (notMem_of_cutoff?_eq_none hcutoff)
        refine Agree.bind hbody.mapFailure (fun states => Agree.bind (agree_note _) (fun _ => ?_))
        exact Agree.ofExcept_bind (fun _ _ => Agree.pure _)

theorem enterAll_agree (henter : Entering.AgreeOff R p path enter₁ enter₂) (call : ValueId)
    (args : List ValueId) (before : Store) (funcs : List FuncId) :
    Agree (R.Rel path) (enterAll p c enter₁ call args before funcs)
      (enterAll p c enter₂ call args before funcs) := by
  induction funcs with
  | nil => exact Agree.pure []
  | cons f rest ih =>
      exact Agree.bind (enterOne_agree henter call args before f)
        (fun _ => Agree.bind ih (fun _ => Agree.pure _))

theorem transfer_agree (henter : Entering.AgreeOff R p path enter₁ enter₂)
    (call callee : ValueId) (args : List ValueId) (s : Store) :
    Agree (R.Rel path) (transfer p c enter₁ call callee args s)
      (transfer p c enter₂ call callee args s) := by
  refine Agree.ofExcept_bind (fun funcs _ => ?_)
  dsimp only
  split
  · refine Agree.ofExcept_bind (fun func? _ => ?_)
    split
    · exact Agree.bind (agree_note _) (fun _ => Agree.pure s)
    · exact Agree.pure s
  · refine Agree.ofExcept_bind (fun before _ => Agree.bind (agree_note _) (fun _ => ?_))
    refine Agree.bind (enterAll_agree henter call args before _) (fun effects => ?_)
    exact Agree.ofExcept_bind (fun _ _ => Agree.pure _)

end Call

theorem transferInst_agree {R : Coupling} {p : Program} {c : Config} {path : List FuncId}
    {enter₁ enter₂ : Entering} (henter : Entering.AgreeOff R p path enter₁ enter₂)
    (inst : ValueId) (s : Store) :
    Halting.Agree (R.Rel path) (transferInst p c enter₁ inst s)
      (transferInst p c enter₂ inst s) := by
  refine Halting.Agree.ofExcept_bind (fun inst? _ => ?_)
  split
  · exact Halting.Agree.pure s
  · exact Call.transfer_agree henter inst _ _ s
  · exact Halting.Agree.ofFailing (Transfer.plain_ends p c inst _ s)

end CallTargets
