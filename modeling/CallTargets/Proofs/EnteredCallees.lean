import CallTargets.Proofs.EdgeRecording

/-!
# Every callee that can be entered is entered

A call that comes to a result has analysed the bodies of all its candidates that the path and
the depth let in, each from the store with its own parameters bound.  What these bodies record
about calls is part of the store after the call.
-/

namespace CallTargets

open Store (Grows WellFormed)

variable {p : Program} {c : Config} {path : List FuncId}

namespace Call

variable {P : Store → Prop} {Body : BodySpec} {enter : Entering} {call callee : ValueId}
  {args : List ValueId} {before : Store} {funcs : List FuncId} {f : FuncId} {fn : Function}

/-- A candidate with a body that neither the path nor the depth keeps out. -/
structure CanFollow (p : Program) (c : Config) (path : List FuncId) (f : FuncId)
    (fn : Function) : Prop where
  function_eq : p.function f = .ok fn
  defined : fn.isDeclaration = false
  free : cutoff? c path f = none

theorem ne_none_of_enterOne {session session' : Session} { effect? : Option Effect}
    (hf : CanFollow p c path f fn) (hsession : session.path = path)
    (h : enterOne p c enter call args before f session = .ok effect? session') :
    effect? ≠ none := by
  obtain ⟨fn', s₁, hfn', h⟩ := Halting.bind_eq_ok_iff.mp h
  obtain ⟨hfn', rfl⟩ := Halting.ofExcept_eq_ok_iff.mp hfn'
  rw [hf.function_eq] at hfn'
  cases hfn'
  simp only [hf.defined] at h
  obtain ⟨answer, s₂, hanswer, h⟩ := Halting.bind_eq_ok_iff.mp h
  rw [canEnter_apply, hsession, hf.free] at hanswer
  cases hanswer
  obtain ⟨context, s₃, -, h⟩ := Halting.bind_eq_ok_iff.mp h
  obtain ⟨-, s₄, -, h⟩ := Halting.bind_eq_ok_iff.mp h
  obtain ⟨states, s₅, -, h⟩ := Halting.bind_eq_ok_iff.mp h
  obtain ⟨-, s₆, -, h⟩ := Halting.bind_eq_ok_iff.mp h
  obtain ⟨writes, s₇, -, h⟩ := Halting.bind_eq_ok_iff.mp h
  obtain ⟨rfl, -⟩ := Halting.pure_eq_ok_iff.mp h
  exact Option.some_ne_none _

theorem enterAll_enters (henter : Enterable P Body p path enter) (hbefore : P before) :
    Halting.Keeps (Session.Remembers P path)
      (fun effects => ∀ f ∈ funcs, ∀ fn, CanFollow p c path f fn →
        ∃ effect ∈ effects, IsEffect Body p args before f effect)
      (enterAll p c enter call args before funcs) := by
  induction funcs with
  | nil => exact Halting.Keeps.pure (by simp)
  | cons g rest ih =>
      have hfirst : Halting.Keeps (Session.Remembers P path)
          (fun effect? => ∀ fn, CanFollow p c path g fn →
            ∃ effect, effect? = some effect ∧ IsEffect Body p args before g effect)
          (enterOne p c enter call args before g) := by
        apply (enterOne_keeps henter call args hbefore g).strengthen
        intro session effect? session' hsession heq hIs fn hg
        obtain ⟨effect, rfl⟩ :=
          Option.ne_none_iff_exists'.mp (ne_none_of_enterOne hg hsession.path_eq heq)
        exact ⟨effect, rfl, hIs effect rfl⟩
      refine Halting.Keeps.bind hfirst (fun effect? hg => ?_)
      refine Halting.Keeps.bind ih (fun effects hrest => Halting.Keeps.pure ?_)
      intro f hf fn hfollow
      rcases List.mem_cons.mp hf with rfl | hf
      · obtain ⟨effect, rfl, hIs⟩ := hg fn hfollow
        exact ⟨effect, by simp, hIs⟩
      · obtain ⟨effect, heffect, hIs⟩ := hrest f hf fn hfollow
        exact ⟨effect, List.mem_append_right _ heffect, hIs⟩

/-- What a callee records is among the callees' writes, and these are spliced in. -/
theorem grows_splice {effects : List Effect} {effect : Effect} (h : effect ∈ effects)
    (isPtr : Bool) : Grows effect.writes (splice call isPtr before effects) := by
  intro site x hx
  have hspliced := explicit?_splice isPtr before effects
    (show Loc.self call ≠ .callees site by simp [Loc.self, Loc.callees])
  have hall : x ∈ (allWrites effects).stored (.callees site) :=
    (Store.mem_stored_foldl_absorb Effect.writes effects ∅ _ x).mpr (Or.inr ⟨effect, h, hx⟩)
  cases hwritten : (allWrites effects).explicit? (.callees site) with
  | none => simp [Store.stored, hwritten] at hall
  | some e =>
      rw [Store.stored_of_explicit hwritten] at hall
      rw [hwritten, Option.elim_some] at hspliced
      rw [Store.stored_of_explicit hspliced]
      split
      · exact hall
      · exact Std.ExtTreeSet.mem_union_iff.mpr (Or.inl hall)

theorem transfer_enters (henter : Enterable P Body p path enter) {s : Store} {found : FuncSet}
    (hfound : candidates p c s callee = .ok found)
    (hrecord : recordTargets p call s found.toList = .ok before) (hbefore : P before) :
    Halting.Keeps (Session.Remembers P path)
      (fun s' => ∀ f ∈ found.toList, ∀ fn, CanFollow p c path f fn →
        ∃ effect, IsEffect Body p args before f effect ∧ Grows effect.writes s')
      (transfer p c enter call callee args s) := by
  refine Halting.Keeps.ofExcept_bind (fun funcs hfuncs => ?_)
  rw [hfound] at hfuncs
  cases hfuncs
  dsimp only
  split
  · next hempty =>
      have hnone : found.toList = [] := by simpa using hempty
      refine Halting.Keeps.ofExcept_bind (fun func? _ => ?_)
      rw [hnone]
      split
      · refine Halting.Keeps.bind (Analysis.note_keeps (by simp [Note.stores])) ?_
        exact fun _ _ => Halting.Keeps.pure (by simp)
      · exact Halting.Keeps.pure (by simp)
  · refine Halting.Keeps.ofExcept_bind (fun before' hbefore' => ?_)
    rw [hrecord] at hbefore'
    cases hbefore'
    refine Halting.Keeps.bind (Analysis.note_keeps (by simp [Note.stores])) (fun _ _ => ?_)
    refine Halting.Keeps.bind (enterAll_enters henter hbefore) (fun effects heffects => ?_)
    refine Halting.Keeps.ofExcept_bind (fun isPtr _ => Halting.Keeps.pure ?_)
    intro f hf fn hfollow
    obtain ⟨effect, heffect, hIs⟩ := heffects f hf fn hfollow
    exact ⟨effect, hIs, grows_splice heffect isPtr⟩

end Call

/-- A call that comes to a result has analysed the body of every candidate that can be entered,
and the store after the call holds what was recorded there. -/
theorem stepAt_enters (htables : p.Tables) (hpath : IsPath p path) {call callee : ValueId}
    {inst : Inst} {args : List ValueId} {s before context s' : Store} {funcs : FuncSet}
    {f : FuncId} {fn : Function} (hs : s.WellFormed p c)
    (hinst : p.inst? call = .ok (some inst)) (hop : inst.op = .call callee args)
    (hfuncs : Call.candidates p c s callee = .ok funcs)
    (hbefore : Call.recordTargets p call s funcs.toList = .ok before)
    (h : stepAt p c path call s = .ok s') (hf : f ∈ funcs.toList)
    (hfollow : Call.CanFollow p c path f fn)
    (hcontext : Call.bindParams p before fn.params args = .ok context) :
    ∃ states, bodyAt p c path f context = .ok states ∧ Grows (summarize states) s' := by
  have hwf := Call.recordTargets_wellFormed htables hs hinst hop hfuncs hbefore
  have hkeeps : Halting.Keeps (Session.Remembers (WellFormed p c) path)
      (fun s' => ∀ f ∈ funcs.toList, ∀ fn, Call.CanFollow p c path f fn →
        ∃ effect, Call.IsEffect (EnteredBody p c path) p args before f effect ∧
          Grows effect.writes s')
      (transferInst p c (enterBody p c) call s) := by
    refine Halting.Keeps.ofExcept_bind (fun inst? hinst? => ?_)
    rw [hinst] at hinst?
    cases hinst?
    obtain ⟨block, op, line⟩ := inst
    cases hop
    exact Call.transfer_enters (enterBody_enteredBody htables hpath) hfuncs hbefore hwf
  obtain ⟨effect, hIs, hgrows⟩ := hkeeps.of_outcome h f hf fn hfollow
  obtain ⟨fn', context', states, hfn', -, hcontext', ⟨-, -, hstates⟩, -, hwrites⟩ := hIs
  rw [hfollow.function_eq] at hfn'
  cases hfn'
  rw [hcontext] at hcontext'
  cases hcontext'
  exact ⟨states, hstates, (Call.visible_grows hwrites).trans hgrows⟩

end CallTargets
