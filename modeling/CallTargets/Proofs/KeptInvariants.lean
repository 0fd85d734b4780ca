import CallTargets.Proofs.CallAgreement

/-!
# Invariants through the solver and through calls

A property of states that merges and transfers keep holds of all states that the solver
records.  What a call does is described once, relative to what is known about the bodies
of its callees: it changes nothing, or it records its candidates and splices what the
entered callees did into the store.  Along the way the session remembers stores in its
journal, and these are spoken of too.
-/

namespace CallTargets

/-- Both states of every recorded block satisfy `P`. -/
def StatesHold {D : Type} (P : D → Prop) (states : BlockStates D) : Prop :=
  ∀ (b : BlockId) (state : BlockState D), states[b]? = some state → P state.entry ∧ P state.exit

theorem StatesHold.empty {D : Type} {P : D → Prop} : StatesHold P (∅ : BlockStates D) := by
  intro b state h
  simp at h

theorem StatesHold.imp {D : Type} {P Q : D → Prop} {states : BlockStates D}
    (h : StatesHold P states) (hPQ : ∀ d, P d → Q d) : StatesHold Q states := by
  intro b state hstate
  obtain ⟨hentry, hexit⟩ := h b state hstate
  exact ⟨hPQ _ hentry, hPQ _ hexit⟩

theorem StatesHold.insert {D : Type} {P : D → Prop} {states : BlockStates D}
    (h : StatesHold P states) (b : BlockId) {entry exit : D} (hentry : P entry) (hexit : P exit) :
    StatesHold P (states.insert b ⟨entry, exit⟩) := by
  intro b' state hstate
  rw [Std.ExtTreeMap.getElem?_insert] at hstate
  split at hstate
  · cases hstate
    exact ⟨hentry, hexit⟩
  · exact h b' state hstate

theorem StatesHold.start? {D : Type} {P : D → Prop} {states : BlockStates D}
    (h : StatesHold P states) {g : FlowGraph} {init : D} (hinit : P init) (b : BlockId) :
    ∀ d ∈ Solver.start? g init states b, P d := by
  intro d hd
  unfold Solver.start? at hd
  cases hstate : states[b]? with
  | some state =>
      simp only [hstate] at hd
      cases hd
      exact (h b state hstate).1
  | none =>
      simp only [hstate] at hd
      split at hd
      · cases hd
        exact hinit
      · cases hd

/-! ## The solver -/

/-- Merges and transfers keep a property of states and an invariant of the visitor. -/
structure Visitor.Keeps {ε σ D : Type} (I : σ → Prop) (P : D → Prop) (v : Visitor ε σ D) :
    Prop where
  merge : ∀ a b, P a → P b → P (v.merge a b)
  noteMerge : ∀ a b s, I s → I (v.noteMerge a b s)
  transfer : ∀ inst d, P d → Halting.Keeps I P (v.transfer inst d)

namespace Visitor.Keeps

open Solver

variable {ε σ D : Type} {I : σ → Prop} {P : D → Prop} {v : Visitor ε σ D}

theorem mergePred (h : v.Keeps I P) {states : BlockStates D} (hstates : StatesHold P states)
    {known : Option D} (hknown : ∀ d ∈ known, P d) (pred : BlockId) :
    Halting.Keeps I (fun known => ∀ d ∈ known, P d) (mergePred v states known pred) := by
  unfold Solver.mergePred
  cases hstate : states[pred]? with
  | none => exact Halting.Keeps.pure hknown
  | some state =>
      have hexit := (hstates pred state hstate).2
      cases known with
      | none => exact Halting.Keeps.pure (by simpa using hexit)
      | some entry =>
          refine Halting.Keeps.bind (Halting.Keeps.modify (h.noteMerge entry state.exit)) ?_
          intro _ _
          exact Halting.Keeps.pure (by simpa using h.merge _ _ (hknown entry rfl) hexit)

theorem merges (h : v.Keeps I P) {g : FlowGraph} {init : D} (hinit : P init)
    {states : BlockStates D} (hstates : StatesHold P states) (b : BlockId)
    (preds : List BlockId) :
    Halting.Keeps I (fun known => ∀ d ∈ known, P d)
      (preds.foldlM (Solver.mergePred v states) (start? g init states b)) := by
  refine Halting.Keeps.foldlM (fun known hknown pred _ => h.mergePred hstates hknown pred) ?_
  exact hstates.start? hinit b

theorem transferAll (h : v.Keeps I P) (insts : List ValueId) {d : D} (hd : P d) :
    Halting.Keeps I P (transferAll v insts d) :=
  Halting.Keeps.foldlM (fun d hd inst _ => h.transfer inst d hd) hd

variable [DecidableEq D]

theorem visit (h : v.Keeps I P) {g : FlowGraph} {init : D} (hinit : P init)
    {progress : Progress D} (hstates : StatesHold P progress.states) (b : BlockId) :
    Halting.Keeps I (fun progress => StatesHold P progress.states)
      (visit g v init progress b) := by
  refine Halting.Keeps.bind (h.merges hinit hstates b (g.preds b)) (fun entry? hentry => ?_)
  cases entry? with
  | none => exact Halting.Keeps.pure hstates
  | some entry =>
      have hentry := hentry entry rfl
      refine Halting.Keeps.bind (h.transferAll (g.insts b) hentry) (fun exit hexit => ?_)
      have hnew := hstates.insert b hentry hexit
      dsimp only
      split
      · exact Halting.Keeps.ofExcept_bind (fun _ _ => Halting.Keeps.pure hnew)
      · exact Halting.Keeps.pure hnew

theorem run (h : v.Keeps I P) {g : FlowGraph} {init : D} (hinit : P init) (fuel : Nat)
    {progress : Progress D} (hstates : StatesHold P progress.states) :
    Halting.Keeps I (StatesHold P) (Solver.run g v init fuel progress) := by
  induction fuel generalizing progress with
  | zero =>
      unfold Solver.run
      split
      · exact Halting.Keeps.pure hstates
      · exact Halting.Keeps.throw _
  | succ fuel ih =>
      unfold Solver.run
      split
      · exact Halting.Keeps.pure hstates
      · exact Halting.Keeps.bind (h.visit hinit hstates _) (fun _ hvisited => ih hvisited)

theorem forward (h : v.Keeps I P) (p : Program) (func : FuncId) (height : Nat) {init : D}
    (hinit : P init) : Halting.Keeps I (StatesHold P) (forward p func v height init) := by
  refine Halting.Keeps.ofExcept_bind (fun g? _ => ?_)
  cases g? with
  | none => exact Halting.Keeps.pure .empty
  | some g =>
      exact Halting.Keeps.ofExcept_bind (fun _ _ => h.run hinit _ .empty)

end Visitor.Keeps

/-! ## Sessions -/

/-- The stores that a note mentions. -/
def Note.stores : Note → List Store
  | .entering _ _ before context => [before, context]
  | .leaving _ summary => [summary]
  | _ => []

namespace Session

/-- A session with a given path that remembers only stores with the property `P`. -/
structure Remembers (P : Store → Prop) (path : List FuncId) (s : Session) : Prop where
  path_eq : s.path = path
  journal : ∀ e ∈ s.journal, ∀ t ∈ e.note.stores, P t

namespace Remembers

variable {P : Store → Prop} {path : List FuncId} {s : Session}

theorem fresh (P : Store → Prop) (path : List FuncId) : Remembers P path { path } :=
  ⟨rfl, by simp⟩

theorem note (h : Remembers P path s) {n : Note} (hn : ∀ t ∈ n.stores, P t) :
    Remembers P path (s.note n) := by
  refine ⟨h.path_eq, fun e he => ?_⟩
  rcases List.mem_cons.mp he with rfl | he
  · exact hn
  · exact h.journal e he

theorem cut (h : Remembers P path s) (c : Cutoff) : Remembers P path (s.cut c) := by
  have hnote : Remembers P path (s.note (.notEntering c)) := h.note (by simp [Note.stores])
  exact ⟨hnote.path_eq, hnote.journal⟩

end Remembers

end Session

theorem Analysis.note_keeps {ε : Type} {P : Store → Prop} {path : List FuncId} {n : Note}
    (hn : ∀ t ∈ n.stores, P t) :
    Halting.Keeps (Session.Remembers P path) (fun _ => True)
      (Analysis.note n : Analysis ε Unit) :=
  Halting.Keeps.modify (fun _ hs => hs.note hn)

theorem Halting.Keeps.within {ε α : Type} {I J : Session → Prop} {f : FuncId} {Q : α → Prop}
    {x : Analysis ε α} (h : Halting.Keeps J Q x) (henter : ∀ s, I s → J (s.enter f))
    (hleave : ∀ s, J s → I s.leave) : Halting.Keeps I Q (Analysis.within f x) := by
  intro s hs
  have hkeeps := h (s.enter f) (henter s hs)
  unfold Analysis.within
  cases hx : x (s.enter f) with
  | ok a t =>
      rw [hx] at hkeeps
      exact ⟨hkeeps.1, hleave t hkeeps.2⟩
  | error halt t =>
      rw [hx] at hkeeps
      exact hleave t hkeeps

theorem Analysis.within_keeps {ε α : Type} {P : Store → Prop} {path : List FuncId} {f : FuncId}
    {Q : α → Prop} {x : Analysis ε α} (h : Halting.Keeps (Session.Remembers P (f :: path)) Q x) :
    Halting.Keeps (Session.Remembers P path) Q (Analysis.within f x) := by
  apply h.within
  · exact fun s hs => ⟨congrArg (f :: ·) hs.path_eq, hs.journal⟩
  · exact fun s hs => ⟨congrArg List.tail hs.path_eq, hs.journal⟩

/-! ## Calls -/

namespace Call

/-- A description of how the body of a function is analysed from a store. -/
abbrev BodySpec := FuncId → Store → BlockStates Store → Prop

/-- An effect of the function `f`, whose body was analysed as `Body` describes. -/
def IsEffect (Body : BodySpec) (p : Program) (args : List ValueId) (before : Store)
    (f : FuncId) (effect : Effect) : Prop :=
  ∃ fn context states, p.function f = .ok fn ∧ fn.isDeclaration = false ∧
    bindParams p before fn.params args = .ok context ∧ Body f context states ∧
    effect.returns = (summarize states).values (.returned fn.value) ∧
    visible p f (summarize states) = .ok effect.writes

/-- What a call can do to a store `s`. -/
inductive Result (Body : BodySpec) (p : Program) (c : Config) (call callee : ValueId)
    (args : List ValueId) (s : Store) : Store → Prop where
  | unresolved {funcs : FuncSet} (hfuncs : candidates p c s callee = .ok funcs)
      (hempty : funcs.toList = []) : Result Body p c call callee args s s
  | resolved {funcs : FuncSet} {before : Store} {isPtr : Bool} {effects : List Effect}
      (hfuncs : candidates p c s callee = .ok funcs)
      (hbefore : recordTargets p call s funcs.toList = .ok before)
      (heffects : ∀ effect ∈ effects, ∃ f ∈ funcs.toList, IsEffect Body p args before f effect) :
      Result Body p c call callee args s (splice call isPtr before effects)

variable {P : Store → Prop} {Body : BodySpec} {p : Program} {c : Config} {path : List FuncId}
  {enter : Entering}

theorem canEnter_keeps {ε : Type} (call : ValueId) (callee : FuncId) :
    Halting.Keeps (Session.Remembers P path)
      (fun answer => answer = true → cutoff? c path callee = none)
      (canEnter c call callee : Analysis ε Bool) := by
  intro s hs
  rw [canEnter_apply, hs.path_eq]
  cases cutoff? c path callee with
  | none => exact ⟨fun _ => rfl, hs⟩
  | some reason => exact ⟨nofun, hs.cut _⟩

/-- What is known about the bodies of callees that can be entered on a path. -/
structure Enterable (P : Store → Prop) (Body : BodySpec) (p : Program) (path : List FuncId)
    (enter : Entering) : Prop where
  body : ∀ f fn context, p.function f = .ok fn → f ∉ path → P context →
    Halting.Keeps (Session.Remembers P path) (Body f context) (enter f context)
  summary : ∀ f context states, Body f context states → P (summarize states)
  bind : ∀ before params args context, P before → bindParams p before params args = .ok context →
    P context

theorem enterOne_keeps (henter : Enterable P Body p path enter) (call : ValueId)
    (args : List ValueId) {before : Store} (hbefore : P before) (f : FuncId) :
    Halting.Keeps (Session.Remembers P path)
      (fun effect? => ∀ effect ∈ effect?, IsEffect Body p args before f effect)
      (enterOne p c enter call args before f) := by
  refine Halting.Keeps.ofExcept_bind (fun fn hfn => ?_)
  split
  · exact Halting.Keeps.pure (by simp)
  next hdecl =>
    refine Halting.Keeps.bind (canEnter_keeps (c := c) call f) (fun answer hanswer => ?_)
    cases answer with
    | false => exact Halting.Keeps.pure (by simp)
    | true =>
        refine Halting.Keeps.ofExcept_bind (fun context hcontext => ?_)
        have hP := henter.bind _ _ _ _ hbefore hcontext
        have hentering : ∀ t ∈ Note.stores (.entering call f before context), P t := by
          simpa [Note.stores] using ⟨hbefore, hP⟩
        refine Halting.Keeps.bind (Analysis.note_keeps hentering) (fun _ _ => ?_)
        have hbody := henter.body f fn context hfn (notMem_of_cutoff?_eq_none (hanswer rfl)) hP
        refine Halting.Keeps.bind hbody.mapFailure (fun states hstates => ?_)
        have hleaving : ∀ t ∈ Note.stores (.leaving f (summarize states)), P t := by
          simpa [Note.stores] using henter.summary f context states hstates
        refine Halting.Keeps.bind (Analysis.note_keeps hleaving) (fun _ _ => ?_)
        refine Halting.Keeps.ofExcept_bind (fun writes hwrites => Halting.Keeps.pure ?_)
        rintro effect ⟨⟩
        exact ⟨fn, context, states, hfn, by simpa using hdecl, hcontext, hstates, rfl, hwrites⟩

theorem enterAll_keeps (henter : Enterable P Body p path enter) (call : ValueId)
    (args : List ValueId) {before : Store} (hbefore : P before) (funcs : List FuncId) :
    Halting.Keeps (Session.Remembers P path)
      (fun effects => ∀ effect ∈ effects, ∃ f ∈ funcs, IsEffect Body p args before f effect)
      (enterAll p c enter call args before funcs) := by
  induction funcs with
  | nil => exact Halting.Keeps.pure (by simp)
  | cons f rest ih =>
      refine Halting.Keeps.bind (enterOne_keeps henter call args hbefore f) (fun effect? hf => ?_)
      refine Halting.Keeps.bind ih (fun effects hrest => Halting.Keeps.pure ?_)
      intro effect heffect
      rcases List.mem_append.mp heffect with heffect | heffect
      · exact ⟨f, by simp, hf effect (by simpa using heffect)⟩
      · obtain ⟨f', hf', hIs⟩ := hrest effect heffect
        exact ⟨f', by simp [hf'], hIs⟩

theorem transfer_keeps (henter : Enterable P Body p path enter) (call callee : ValueId)
    (args : List ValueId) {s : Store}
    (hrecord : ∀ funcs before, candidates p c s callee = .ok funcs →
      recordTargets p call s funcs.toList = .ok before → P before) :
    Halting.Keeps (Session.Remembers P path) (Result Body p c call callee args s)
      (transfer p c enter call callee args s) := by
  refine Halting.Keeps.ofExcept_bind (fun funcs hfuncs => ?_)
  dsimp only
  split
  · next hempty =>
      have hsame : Result Body p c call callee args s s :=
        .unresolved hfuncs (by simpa using hempty)
      refine Halting.Keeps.ofExcept_bind (fun func? _ => ?_)
      split
      · refine Halting.Keeps.bind (Analysis.note_keeps (by simp [Note.stores])) ?_
        exact fun _ _ => Halting.Keeps.pure hsame
      · exact Halting.Keeps.pure hsame
  · refine Halting.Keeps.ofExcept_bind (fun before hbefore => ?_)
    have hP := hrecord funcs before hfuncs hbefore
    refine Halting.Keeps.bind (Analysis.note_keeps (by simp [Note.stores])) (fun _ _ => ?_)
    refine Halting.Keeps.bind (enterAll_keeps henter call args hP _) (fun effects heffects => ?_)
    refine Halting.Keeps.ofExcept_bind (fun isPtr _ => Halting.Keeps.pure ?_)
    exact .resolved hfuncs hbefore heffects

end Call

end CallTargets
