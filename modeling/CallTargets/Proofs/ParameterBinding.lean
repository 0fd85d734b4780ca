import CallTargets.Proofs.BoundStores
import CallTargets.Proofs.Proviso
import CallTargets.Proofs.RecursionGuard

/-!
# Parameters are bound anew for every call

A callee is entered with its parameters added to whatever the caller's store already holds.
Nothing of an earlier activation is left there: the parameters do not escape from the callee,
no store points to them, and no function is entered while it is on the path.  So each entry
binds the parameters to what the arguments of this very call may point to.
-/

namespace CallTargets

open Store (Bound)

/-- The call passes enough arguments to the function, with pointers where the function takes
pointers. -/
def Program.CallFits (p : Program) (call : ValueId) (f : FuncId) : Prop :=
  ∀ inst callee args fn, p.inst? call = .ok (some inst) → inst.op = .call callee args →
    p.function f = .ok fn → Call.ArgsFit p fn.params args

theorem Program.CallFits.of_inst {p : Program} {call callee : ValueId} {inst : Inst}
    {args : List ValueId} {f : FuncId} {fn : Function}
    (hinst : p.inst? call = .ok (some inst)) (hop : inst.op = .call callee args)
    (hfn : p.function f = .ok fn) (h : Call.ArgsFit p fn.params args) : p.CallFits call f := by
  intro inst' callee' args' fn' hinst' hop' hfn'
  rw [hinst] at hinst'
  cases hinst'
  rw [hop] at hop'
  cases hop'
  rw [hfn] at hfn'
  cases hfn'
  exact h

/-- A call that enters a function fits it. -/
def Note.Fits (p : Program) : Note → Prop
  | .entering call f _ _ => p.CallFits call f
  | _ => True

/-- A function that is entered has its parameters bound to the arguments of the call. -/
def Note.Binds (p : Program) : Note → Prop
  | .entering call f before context => ∃ inst callee args fn, p.inst? call = .ok (some inst) ∧
      inst.op = .call callee args ∧ p.function f = .ok fn ∧
      Call.ParamsBound p before context fn.params args
  | _ => True

namespace Session

/-- All calls that entered a function fitted it. -/
def AllFit (p : Program) (s : Session) : Prop := ∀ e ∈ s.journal, e.note.Fits p

/-- The calls that entered a function, with the function, the last one first. -/
def entries (s : Session) : List (ValueId × FuncId) :=
  s.journal.filterMap fun e => match e.note with
    | .entering call f _ _ => some (call, f)
    | _ => none

theorem mem_entries_iff {s : Session} {call : ValueId} {f : FuncId} : (call, f) ∈ s.entries ↔
    ∃ path before context, ⟨path, .entering call f before context⟩ ∈ s.journal := by
  constructor
  · intro h
    obtain ⟨⟨path, note⟩, he, hnote⟩ := List.mem_filterMap.mp h
    cases note with
    | entering call f before context =>
        cases hnote
        exact ⟨path, before, context, he⟩
    | analyzing | unresolved | mayCall | notEntering | leaving => cases hnote
  · rintro ⟨path, before, context, he⟩
    exact List.mem_filterMap.mpr ⟨_, he, rfl⟩

/-- A session on a path whose entries have bound their parameters. -/
structure Binds (p : Program) (path : List FuncId) (s : Session) : Prop where
  path_eq : s.path = path
  journal : ∀ e ∈ s.journal, e.note.Binds p

end Session

variable {p : Program} {c : Config} {root f : FuncId} {path : List FuncId}

open Halting (Provided)

theorem Session.AllFit.of_note {s : Session} {n : Note} (h : (s.note n).AllFit p) :
    s.AllFit p ∧ n.Fits p :=
  ⟨fun e he => h e (List.mem_cons_of_mem _ he), h ⟨s.path, n⟩ List.mem_cons_self⟩

theorem Session.Binds.note {s : Session} (h : s.Binds p path) {n : Note} (hn : n.Binds p) :
    (s.note n).Binds p path := by
  refine ⟨h.path_eq, fun e he => ?_⟩
  rcases List.mem_cons.mp he with rfl | he
  · exact hn
  · exact h.journal e he

theorem Analysis.note_binding {ε : Type} {A : Prop} {n : Note} (hn : A → n.Fits p → n.Binds p) :
    Provided (Session.AllFit p) (Session.Binds p path) A (fun _ => n.Fits p)
      (Analysis.note n : Analysis ε Unit) := by
  refine Provided.modify (fun s hfit => ?_)
  obtain ⟨hfit, hfits⟩ := Session.AllFit.of_note hfit
  exact ⟨hfit, fun hA hs => ⟨hs.note (hn hA hfits), hfits⟩⟩

/-! ## Calls -/

/-- Bodies that are entered on a path with their parameters bound keep parameters bound. -/
def Entering.Binding (p : Program) (root : FuncId) (path : List FuncId) (enter : Entering) :
    Prop :=
  ∀ f context, Provided (Session.AllFit p) (Session.Binds p path)
    (context.Bound p root (f :: path)) (StatesHold (Bound p root (f :: path))) (enter f context)

namespace Call

variable {enter : Entering} {call callee : ValueId} {args : List ValueId} {inst : Inst}

/-- No argument is a pointer parameter of a function other than those on the path. -/
def ArgsLocal (p : Program) (root : FuncId) (path : List FuncId) (args : List ValueId) : Prop :=
  ∀ arg ∈ args, ∀ f, f ≠ root → p.PtrParam f arg → f ∈ path

theorem canEnter_binding {ε : Type} {A : Prop} (call : ValueId) (f : FuncId) :
    Provided (Session.AllFit p) (Session.Binds p path) A
      (fun answer => answer = true → cutoff? c path f = none)
      (canEnter c call f : Analysis ε Bool) := by
  intro s hfit
  cases hcutoff : cutoff? c s.path f with
  | none =>
      have happly : (canEnter c call f : Analysis ε Bool) s = .ok true s := by
        rw [canEnter_apply, hcutoff]
      rw [Halting.final_of_ok happly] at hfit ⊢
      refine ⟨hfit, fun _ hs => ⟨hs, fun _ _ _ _ => ?_⟩⟩
      rw [← hs.path_eq, hcutoff]
  | some reason =>
      have happly : (canEnter c call f : Analysis ε Bool) s =
          .ok false (s.cut ⟨call, f, reason⟩) := by
        rw [canEnter_apply, hcutoff]
      rw [Halting.final_of_ok happly] at hfit ⊢
      refine ⟨(Session.AllFit.of_note hfit).1, fun _ hs => ⟨?_, fun answer s' heq => ?_⟩⟩
      · have hnote : (s.note (.notEntering ⟨call, f, reason⟩)).Binds p path := hs.note trivial
        exact ⟨hnote.path_eq, hnote.journal⟩
      · rw [happly] at heq
        cases heq
        exact nofun

variable (howned : p.Owned) (hroot : root ∈ path) (henter : enter.Binding p root path)
  (hinst : p.inst? call = .ok (some inst)) (hop : inst.op = .call callee args)

include howned hroot henter hinst hop

theorem enterOne_binding (before : Store) (f : FuncId) :
    Provided (Session.AllFit p) (Session.Binds p path)
      (ArgsLocal p root path args ∧ before.Bound p root path)
      (fun effect? => ∀ effect ∈ effect?, effect.Tidy p root path)
      (enterOne p c enter call args before f) := by
  refine Provided.ofExcept_bind (fun fn hfn => ?_)
  split
  · exact Provided.pure (fun _ => by simp)
  · refine Provided.bind (canEnter_binding call f) (fun answer => ?_)
    cases answer with
    | false => exact Provided.pure (fun _ => by simp)
    | true =>
        refine Provided.ofExcept_bind (fun context hcontext => ?_)
        refine Provided.bind (Analysis.note_binding ?_) (fun _ => ?_)
        · rintro ⟨⟨-, hbefore⟩, hcutoff⟩ hfits
          have hfresh := notMem_of_cutoff?_eq_none (hcutoff rfl)
          refine ⟨inst, callee, args, fn, hinst, hop, hfn, ?_⟩
          exact bindParams_paramsBound howned hbefore hfn (fun heq => hfresh (heq ▸ hroot)) hfresh
            (hfits inst callee args fn hinst hop hfn) hcontext
        · refine Provided.bind ((henter f context).mapFailure.imp ?_ (fun _ _ hB => hB))
            (fun states => ?_)
          · rintro ⟨⟨⟨hargs, hbefore⟩, hcutoff⟩, hfits⟩
            have hfresh := notMem_of_cutoff?_eq_none (hcutoff rfl)
            exact bindParams_bound howned hbefore hfn (fun heq => hfresh (heq ▸ hroot)) hfresh
              (hfits inst callee args fn hinst hop hfn) hcontext hargs
          · refine Provided.bind (Analysis.note_binding (fun _ _ => trivial)) (fun _ => ?_)
            refine Provided.ofExcept_bind (fun writes hwrites => Provided.pure ?_)
            rintro ⟨⟨-, hstates⟩, -⟩ effect ⟨⟩
            have hsummary := summarize_tidy hstates
            exact ⟨hsummary.returned_outer _, visible_tidy howned hsummary hwrites⟩

theorem enterAll_binding (before : Store) (funcs : List FuncId) :
    Provided (Session.AllFit p) (Session.Binds p path)
      (ArgsLocal p root path args ∧ before.Bound p root path)
      (fun effects => ∀ effect ∈ effects, effect.Tidy p root path)
      (enterAll p c enter call args before funcs) := by
  induction funcs with
  | nil => exact Provided.pure (fun _ => by simp)
  | cons f rest ih =>
      refine Provided.bind (enterOne_binding howned hroot henter hinst hop before f)
        (fun effect? => ?_)
      refine Provided.bind (ih.imp And.left (fun _ _ hB => hB)) (fun effects => ?_)
      apply Provided.pure
      rintro ⟨⟨-, hfirst⟩, hothers⟩ effect heffect
      rcases List.mem_append.mp heffect with heffect | heffect
      · exact hfirst effect (Option.mem_toList.mp heffect)
      · exact hothers effect heffect

theorem transfer_binding (htables : p.Tables) (s : Store) :
    Provided (Session.AllFit p) (Session.Binds p path)
      (ArgsLocal p root path args ∧ s.Bound p root path) (Bound p root path)
      (transfer p c enter call callee args s) := by
  refine Provided.ofExcept_bind (fun funcs hfuncs => ?_)
  dsimp only
  split
  · refine Provided.ofExcept_bind (fun func? _ => ?_)
    split
    · refine Provided.bind (Analysis.note_binding (fun _ _ => trivial)) (fun _ => ?_)
      exact Provided.pure (fun hA => hA.1.2)
    · exact Provided.pure And.right
  · refine Provided.ofExcept_bind (fun before hbefore => ?_)
    refine Provided.bind (Analysis.note_binding (fun _ _ => trivial)) (fun _ => ?_)
    refine Provided.bind ((enterAll_binding howned hroot henter hinst hop before _).imp ?_
      (fun _ _ hB => hB)) (fun effects => ?_)
    · rintro ⟨⟨hargs, hs⟩, -⟩
      exact ⟨hargs, recordTargets_bound htables howned hs hfuncs hbefore⟩
    · refine Provided.ofExcept_bind (fun isPtr _ => Provided.pure ?_)
      rintro ⟨⟨⟨-, hs⟩, -⟩, heffects⟩
      exact splice_bound howned hinst (recordTargets_bound htables howned hs hfuncs hbefore)
        heffects

end Call

/-! ## Bodies and roots -/

section Bodies

variable (htables : p.Tables) (howned : p.Owned) (hlocal : p.OperandsLocal)

include htables howned hlocal

theorem transferInst_binding {enter : Entering} (hroot : root ∈ f :: path)
    (henter : enter.Binding p root (f :: path)) (v : ValueId) (s : Store) :
    Provided (Session.AllFit p) (Session.Binds p (f :: path))
      (p.owner? v = .ok (some f) ∧ s.Bound p root (f :: path)) (Bound p root (f :: path))
      (transferInst p c enter v s) := by
  refine Provided.ofExcept_bind (fun inst? hinst => ?_)
  split
  · exact Provided.pure And.right
  · next block callee args line =>
      have htransfer := Call.transfer_binding (c := c) howned hroot henter hinst rfl htables s
      refine htransfer.imp ?_ (fun _ _ hB => hB)
      rintro ⟨hv, hs⟩
      refine ⟨fun arg harg g _ hg => ?_, hs⟩
      have howner := hlocal v _ hinst arg (List.mem_cons_of_mem callee harg) g
        (howned.owner?_of_ptrParam hg)
      rw [hv] at howner
      cases howner
      exact List.mem_cons_self
  · refine Provided.ofFailing ?_
    rintro s' hplain ⟨hv, hs⟩
    exact Transfer.plain_bound howned hlocal hinst hv hs hplain

variable (hstay : ∀ f fn, p.function f = .ok fn → p.BranchesStay fn)

include hstay

theorem forward_binding {enter : Entering} (hroot : root ∈ f :: path)
    (henter : enter.Binding p root (f :: path)) (height : Nat) (context : Store) :
    Provided (Session.AllFit p) (Session.Binds p (f :: path)) (context.Bound p root (f :: path))
      (StatesHold (Bound p root (f :: path)))
      (forward p f (storeVisitor p c enter) height context) := by
  have hvisitor : (storeVisitor p c enter).Provided (Session.AllFit p)
      (Session.Binds p (f :: path)) (fun v => p.owner? v = .ok (some f))
      (Bound p root (f :: path)) :=
    { merge := fun a b ha hb => ha.join howned hb
      noteMerge := fun _ _ _ => rfl
      transfer := fun v s =>
        (transferInst_binding htables howned hlocal hroot henter v s).mapFailure }
  exact hvisitor.forward (fun _ => howned.owner?_of_mem_bodyOf) (hstay f) height context

/-- At every depth of nested calls, the analysis of a body keeps parameters bound.  The induction
is on the depth: callees are analysed one level further down. -/
theorem analyzeBody_binding (height depth : Nat) (hroot : root ∈ f :: path) (context : Store) :
    Provided (Session.AllFit p) (Session.Binds p path) (context.Bound p root (f :: path))
      (StatesHold (Bound p root (f :: path))) (analyzeBody p c height depth f context) := by
  induction depth generalizing path f context with
  | zero => exact Provided.throw _
  | succ depth ih =>
      have henter : (analyzeBody p c height depth).Binding p root (f :: path) :=
        fun g context => ih (List.mem_cons_of_mem g hroot) context
      apply Analysis.within_provided
        (forward_binding htables howned hlocal hstay hroot henter height context)
      · exact fun s hfit => ⟨hfit, fun hs => ⟨congrArg (f :: ·) hs.path_eq, hs.journal⟩⟩
      · exact fun s hfit => ⟨hfit, fun hs => ⟨congrArg List.tail hs.path_eq, hs.journal⟩⟩

theorem run_binding (root : FuncId) :
    Provided (Session.AllFit p) (Session.Binds p []) True (fun _ => True) (run p c root) := by
  refine Provided.ofExcept_bind (fun fn _ => ?_)
  refine Provided.bind (Analysis.note_binding (fun _ _ => trivial)) (fun _ => ?_)
  have hbody := analyzeBody_binding (c := c) htables howned hlocal hstay Store.height
    (p.functions.size + 1) (List.mem_singleton_self root) ∅
  refine Provided.bind (hbody.imp (fun _ => .empty p root) (fun _ _ hB => hB)) (fun states => ?_)
  exact Provided.ofExcept_bind (fun edges _ => Provided.pure (fun _ => trivial))

end Bodies

/-- In programs that were built step by step, that are short enough for their identifiers, whose
branches stay in their functions and whose operands are local: if all calls that enter a function
during a run fit the function, then each entry binds the parameters to exactly what the arguments
of the call may point to, in the store in which the call has recorded its candidates, and leaves
that store alone otherwise.  What is so bound is the context that the body is analysed from. -/
theorem parameters_bound_exactly {steps : List Step} {built : Built}
    (hbuilt : build steps = .ok built) (haddr : built.program.Addressable)
    (hstay : ∀ f fn, built.program.function f = .ok fn → built.program.BranchesStay fn)
    (hlocal : built.program.OperandsLocal) (c : Config) (root : FuncId) {s : Session}
    (hrest : s.path = []) :
    ∃ new, ((run built.program c root).final s).journal = new ++ s.journal ∧
      ((∀ path call f before context, ⟨path, .entering call f before context⟩ ∈ new →
          built.program.CallFits call f) →
        ∀ path call f before context, ⟨path, .entering call f before context⟩ ∈ new →
          ∃ inst callee args funcs fn, built.program.inst? call = .ok (some inst) ∧
            inst.op = .call callee args ∧
            Happens built.program c root path (.calling call args funcs before) ∧ f ∈ funcs ∧
            Happens built.program c root (f :: path) (.entered context) ∧
            built.program.function f = .ok fn ∧
            Call.ParamsBound built.program before context fn.params args) := by
  obtain ⟨out, -, -, -, -, hjournal⟩ := run_coupled (p := built.program) (c := c) root hrest
  refine ⟨_, hjournal, fun hfits path call f before context he => ?_⟩
  have hfit : ((run built.program c root).final {}).AllFit built.program := by
    rintro ⟨path, note⟩ he
    cases note with
    | entering call f before context => exact hfits path call f before context he
    | analyzing | unresolved | mayCall | notEntering | leaving => trivial
  have hbinding := run_binding (c := c) (tables_of_build hbuilt)
    (Program.owned_of_build hbuilt haddr) hlocal hstay root
  have hbinds := ((hbinding {} hfit).2 trivial ⟨rfl, by simp⟩).1
  obtain ⟨inst, callee, args, fn, hinst, hop, hfn, hbound⟩ := hbinds.journal _ he
  cases (run_accounts built.program c root).journal _ he with
  | @entering _ _ args' funcs _ _ _ hcalling hf hentered =>
      cases hcalling with
      | call h hinst' hop' hfuncs hbefore =>
          have hcalling := h.call hinst' hop' hfuncs hbefore
          rw [hinst] at hinst'
          cases hinst'
          rw [hop] at hop'
          cases hop'
          exact ⟨inst, callee, args, _, fn, hinst, hop, hcalling, hf, hentered, hfn, hbound⟩

/-- A function with a pointer parameter that is called for two objects, one after the other. -/
def twice : List Step :=
  [.define "use" [.ptr] .void, .load "x" .ptr (.ofNat 1), .ret none, .define "main" [] .void,
    .alloca "a" .ptr, .alloca "b" .ptr, .call "" .void (.ofNat 0) [.ofNat 5],
    .call "" .void (.ofNat 0) [.ofNat 6], .ret none]

/-- The second call binds the parameter to the second object alone, and the body is analysed from
there. -/
theorem parameters_bound_exactly_twice : ∃ built path before context,
    build twice = .ok built ∧ built.program.Addressable ∧
    (∀ f fn, built.program.function f = .ok fn → built.program.BranchesStay fn) ∧
    built.program.OperandsLocal ∧
    ⟨path, .entering (.ofNat 8) (.ofNat 0) before context⟩ ∈
      ((run built.program {} (.ofNat 1)).final {}).journal ∧
    Happens built.program {} (.ofNat 1) (.ofNat 0 :: path) (.entered context) ∧
    context.explicit? (.self (.ofNat 1)) = some ((∅ : LocSet).insert (.self (.ofNat 6))) := by
  obtain ⟨built, fn, hbuilt, hvalues, hblocks, hlocal, hsuccs, hentries, hfirst, hsecond, hfn,
      hparams, hparam, hptr, hptr', hobject⟩ :
      ∃ built fn, build twice = .ok built ∧ built.program.values.size = 10 ∧
        built.program.blocks.size = 2 ∧
        (∀ i < 10, built.program.operandsLocalAt (.ofNat i) = true) ∧
        (∀ i < 2, built.program.successors (.ofNat i) = .ok []) ∧
        ((run built.program {} (.ofNat 1)).final {}).entries =
          [(.ofNat 8, .ofNat 0), (.ofNat 7, .ofNat 0)] ∧
        built.program.inst? (.ofNat 7) =
          .ok (some ⟨.ofNat 1, .call (.ofNat 0) [.ofNat 5], none⟩) ∧
        built.program.inst? (.ofNat 8) =
          .ok (some ⟨.ofNat 1, .call (.ofNat 0) [.ofNat 6], none⟩) ∧
        built.program.function (.ofNat 0) = .ok fn ∧ fn.params = [.ofNat 1] ∧
        built.program.isPtr (.ofNat 1) = .ok true ∧ built.program.isPtr (.ofNat 5) = .ok true ∧
        built.program.isPtr (.ofNat 6) = .ok true ∧
        built.program.isObject (.ofNat 6) = .ok true :=
    ⟨_, _, rfl, rfl, rfl, by decide +kernel, by decide +kernel, by decide +kernel, rfl, rfl, rfl,
      rfl, rfl, rfl, rfl, rfl⟩
  have haddr : built.program.Addressable :=
    ⟨by rw [hvalues]; decide, by rw [hblocks]; decide⟩
  have hstay : ∀ f fn, built.program.function f = .ok fn → built.program.BranchesStay fn :=
    fun _ fn _ => Program.branchesStay_of_successors (hblocks ▸ hsuccs) fn
  have hlocal := Program.operandsLocal_of_values (hvalues ▸ hlocal)
  have hfit : ∀ object, built.program.isPtr object = .ok true →
      Call.ArgsFit built.program fn.params [object] := by
    intro object hobject
    rw [hparams]
    refine ⟨Nat.le_refl _, fun param arg hmem => ?_⟩
    cases List.mem_singleton.mp hmem
    rw [hobject, hparam]
  obtain ⟨new, hjournal, hbinds⟩ :=
    parameters_bound_exactly hbuilt haddr hstay hlocal {} (.ofNat 1) (s := {}) rfl
  rw [List.append_nil] at hjournal
  have hfits : ∀ path call f before context, ⟨path, .entering call f before context⟩ ∈ new →
      built.program.CallFits call f := by
    intro path call f before context he
    have hmem := Session.mem_entries_iff.mpr ⟨path, before, context, hjournal ▸ he⟩
    rw [hentries] at hmem
    rcases List.mem_cons.mp hmem with heq | hmem
    · cases heq
      exact .of_inst hsecond rfl hfn (hfit _ hptr')
    · cases List.mem_singleton.mp hmem
      exact .of_inst hfirst rfl hfn (hfit _ hptr)
  obtain ⟨path, before, context, he⟩ :=
    Session.mem_entries_iff.mp (hentries ▸ List.mem_cons_self)
  obtain ⟨inst, callee, args, funcs, fn', hinst, hop, -, -, hentered, hfn', hbound⟩ :=
    hbinds hfits path _ _ before context (hjournal ▸ he)
  rw [hsecond] at hinst
  cases hinst
  cases hop
  rw [hfn] at hfn'
  cases hfn'
  rw [hparams] at hbound
  obtain ⟨pointees, hpointees, hcontext⟩ :=
    hbound.param (.ofNat 1) (.ofNat 6) (List.mem_singleton_self _) hptr'
  rw [before.operand_of_object hobject] at hpointees
  cases hpointees
  exact ⟨built, path, before, context, hbuilt, haddr, hstay, hlocal, he, hentered, hcontext⟩

end CallTargets
