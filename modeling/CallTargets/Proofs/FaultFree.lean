import CallTargets.Analysis.Log
import CallTargets.Proofs.Independence
import CallTargets.Proofs.SafeTransfer

/-!
# The analysis without faults

In a closed program the analysis of bodies inside bodies is safe at every depth: callees are
entered from grounded stores and come back with grounded states.  What it notes on the way can
be written to the log.  Budgets are never spent, so that only the refusal of an address
computation can stand in place of a result.
-/

namespace CallTargets

open Store (Grounded)

variable {p : Program} {c : Config} {old : List Event}

/-! ## The journal -/

/-- The functions that the message of a note names. -/
def Note.functions : Note → List FuncId
  | .analyzing f => [f]
  | .unresolved _ => []
  | .mayCall _ callees => callees
  | .notEntering k => [k.callee]
  | .entering _ f _ _ => [f]
  | .leaving f _ => [f]

/-- The functions of a note exist, and its stores are grounded. -/
structure Note.Writable (p : Program) (n : Note) : Prop where
  functions : ∀ f ∈ n.functions, p.HasFunction f
  stores : ∀ s ∈ n.stores, s.Grounded p

theorem Note.Writable.text {n : Note} (h : n.Writable p) : Gives (fun _ => True) (n.text p) := by
  obtain ⟨hfunctions, hstores⟩ := h
  cases n with
  | analyzing f =>
      exact Gives.bind (hfunctions f (by simp [Note.functions])).function
        (fun _ _ _ => Gives.pure trivial)
  | unresolved call => exact Gives.pure trivial
  | mayCall call callees =>
      refine Gives.bind (Gives.mapM (fun f hf => ?_)) (fun _ _ _ => Gives.pure trivial)
      exact Gives.bind (hfunctions f hf).function (fun _ _ _ => Gives.pure trivial)
  | notEntering k =>
      exact Gives.bind (hfunctions k.callee (by simp [Note.functions])).function
        (fun _ _ _ => Gives.pure trivial)
  | entering call f before context =>
      refine Gives.bind (hfunctions f (by simp [Note.functions])).function (fun _ _ _ => ?_)
      exact Gives.bind (hstores context (by simp [Note.stores])).text
        (fun _ _ _ => Gives.pure trivial)
  | leaving f summary =>
      refine Gives.bind (hfunctions f (by simp [Note.functions])).function (fun _ _ _ => ?_)
      exact Gives.bind (hstores summary (by simp [Note.stores])).text
        (fun _ _ _ => Gives.pure trivial)

/-- What was noted since the old events can be written to the log. -/
def Session.Writable (p : Program) (old : List Event) (s : Session) : Prop :=
  ∀ e ∈ s.journal, e ∈ old ∨ e.note.Writable p

theorem Session.Writable.note {s : Session} (h : s.Writable p old) {n : Note}
    (hn : n.Writable p) : (s.note n).Writable p old := by
  intro e he
  rcases List.mem_cons.mp he with rfl | he
  · exact Or.inr hn
  · exact h e he

theorem Log.write_complete (level : Level) {notes : List Note}
    (h : ∀ n ∈ notes, Gives (fun _ => True) (n.text p)) : (write p level notes).2 = none := by
  induction notes with
  | nil => rfl
  | cons n rest ih =>
      have hrest := ih (fun m hm => h m (List.mem_cons_of_mem n hm))
      obtain ⟨message, hmessage, -⟩ := h n List.mem_cons_self
      unfold write
      split
      · rw [hmessage]
        exact hrest
      · exact hrest

/-! ## Calls -/

open Halting (Safe)

theorem Analysis.note_safe {ε : Type} {E : ε → Prop} {n : Note} (hn : n.Writable p) :
    Safe (Session.Writable p old) E (fun _ => True) (Analysis.note n : Analysis ε Unit) :=
  Safe.modify (fun _ hs => hs.note hn)

theorem Analysis.within_safe {ε α : Type} {E : ε → Prop} {P : α → Prop} {f : FuncId}
    {x : Analysis ε α} (h : Safe (Session.Writable p old) E P x) :
    Safe (Session.Writable p old) E P (Analysis.within f x) := by
  intro s hs
  have hsafe := h (s.enter f) hs
  unfold Analysis.within
  cases hx : x (s.enter f) with
  | ok a t =>
      rw [hx] at hsafe
      exact hsafe
  | error halt t =>
      rw [hx] at hsafe
      exact hsafe

/-- The analysis of bodies is safe from grounded stores. -/
def Entering.Safe (p : Program) (old : List Event) (enter : Entering) : Prop :=
  ∀ f context, p.HasFunction f → context.Grounded p →
    Halting.Safe (Session.Writable p old) (Unsupported.AtAddress p) (StatesHold (Grounded p))
      (enter f context)

namespace Call

variable {enter : Entering} {call callee : ValueId} {args : List ValueId} {s before : Store}

theorem canEnter_safe {ε : Type} {E : ε → Prop} {f : FuncId} (hf : p.HasFunction f) :
    Safe (Session.Writable p old) E (fun _ => True) (canEnter c call f : Analysis ε Bool) := by
  intro s hs
  rw [canEnter_apply]
  cases cutoff? c s.path f with
  | none => exact ⟨trivial, hs⟩
  | some reason =>
      have hnote : Note.Writable p (.notEntering ⟨call, f, reason⟩) :=
        ⟨by simpa [Note.functions] using hf, by simp [Note.stores]⟩
      exact ⟨trivial, hs.note hnote⟩

theorem enterOne_safe (h : p.Linked) (henter : enter.Safe p old)
    (hargs : ∀ v ∈ args, p.HasValue v) (hbefore : before.Grounded p) {f : FuncId}
    (hf : p.HasFunction f) :
    Safe (Session.Writable p old) (Interrupted.AtAddress p)
      (fun effect? => ∀ effect ∈ effect?, Effect.Grounded p effect)
      (enterOne p c enter call args before f) := by
  refine Safe.ofExcept_bind (h.function hf) (fun fn _ hfn => ?_)
  split
  · exact Safe.pure (by simp)
  · refine Safe.bind (canEnter_safe hf) (fun answer _ => ?_)
    cases answer with
    | false => exact Safe.pure (by simp)
    | true =>
        have hparams := bindParams_gives hbefore hfn.params hargs
        refine Safe.ofExcept_bind hparams (fun context _ hcontext => ?_)
        have hentering : Note.Writable p (.entering call f before context) :=
          ⟨by simpa [Note.functions] using hf, by simpa [Note.stores] using ⟨hbefore, hcontext⟩⟩
        refine Safe.bind (Analysis.note_safe hentering) (fun _ _ => ?_)
        have hbody : Safe (Session.Writable p old) (Interrupted.AtAddress p)
            (StatesHold (Grounded p))
            ((enter f context).mapFailure (fun cause => { cause, reached := before })) :=
          (henter f context hf hcontext).mapFailure (fun _ he => he)
        refine Safe.bind hbody (fun states hstates => ?_)
        have hsummary := summarize_grounded hstates
        have hleaving : Note.Writable p (.leaving f (summarize states)) :=
          ⟨by simpa [Note.functions] using hf, by simpa [Note.stores] using hsummary⟩
        refine Safe.bind (Analysis.note_safe hleaving) (fun _ _ => ?_)
        refine Safe.ofExcept_bind (visible_gives h f hsummary) (fun writes _ hwrites => ?_)
        refine Safe.pure ?_
        rintro effect ⟨⟩
        exact ⟨fun x hx => hsummary.values (l := .returned fn.value) hfn.value hx, hwrites⟩

theorem enterAll_safe (h : p.Linked) (henter : enter.Safe p old)
    (hargs : ∀ v ∈ args, p.HasValue v) (hbefore : before.Grounded p) {funcs : List FuncId}
    (hfuncs : ∀ f ∈ funcs, p.HasFunction f) :
    Safe (Session.Writable p old) (Interrupted.AtAddress p)
      (fun effects => ∀ effect ∈ effects, Effect.Grounded p effect)
      (enterAll p c enter call args before funcs) := by
  induction funcs with
  | nil => exact Safe.pure (by simp)
  | cons f rest ih =>
      have hf := hfuncs f List.mem_cons_self
      refine Safe.bind (enterOne_safe h henter hargs hbefore hf) (fun effect? heffect => ?_)
      have hothers := ih (fun g hg => hfuncs g (List.mem_cons_of_mem f hg))
      refine Safe.bind hothers (fun effects heffects => Safe.pure ?_)
      intro effect hmem
      rcases List.mem_append.mp hmem with hmem | hmem
      · exact heffect effect (by simpa using hmem)
      · exact heffects effect hmem

theorem transfer_safe (h : p.Linked) (henter : enter.Safe p old) (hcall : p.HasValue call)
    (hcallee : p.HasValue callee) (hargs : ∀ v ∈ args, p.HasValue v) (hs : s.Grounded p) :
    Safe (Session.Writable p old) (Interrupted.AtAddress p) (Grounded p)
      (transfer p c enter call callee args s) := by
  refine Safe.ofExcept_bind (candidates_gives h c hs hcallee) (fun found _ hfound => ?_)
  have hfuncs : ∀ f ∈ found.toList, p.HasFunction f := fun f hf => hfound f (by simpa using hf)
  dsimp only
  split
  · refine Safe.ofExcept_bind (h.asFunction? hcallee) (fun f? _ _ => ?_)
    split
    · have hnote : Note.Writable p (.unresolved call) :=
        ⟨by simp [Note.functions], by simp [Note.stores]⟩
      exact Safe.bind (Analysis.note_safe hnote) (fun _ _ => Safe.pure hs)
    · exact Safe.pure hs
  · have htargets := recordTargets_gives h hcall hs hfuncs
    refine Safe.ofExcept_bind htargets (fun before _ hbefore => ?_)
    have hnote : Note.Writable p (.mayCall call found.toList) := ⟨hfuncs, by simp [Note.stores]⟩
    refine Safe.bind (Analysis.note_safe hnote) (fun _ _ => ?_)
    refine Safe.bind (enterAll_safe h henter hargs hbefore hfuncs) (fun effects heffects => ?_)
    refine Safe.ofExcept_bind hcall.isPtr (fun isPtr _ _ => Safe.pure ?_)
    exact splice_grounded hcall isPtr hbefore heffects

end Call

/-! ## Bodies and roots -/

section Closed

variable (h : p.Linked) (hclosed : p.Closed) (hfits : p.TypesFit)

include h hclosed hfits

theorem transferInst_safe {enter : Entering} (henter : enter.Safe p old) {v : ValueId}
    (hv : p.HasValue v) {s : Store} (hs : s.Grounded p) :
    Safe (Session.Writable p old) (Interrupted.AtAddress p) (Grounded p)
      (transferInst p c enter v s) := by
  refine Safe.ofExcept_bind hv.inst? (fun inst? hinst _ => ?_)
  split
  · exact Safe.pure hs
  · next block callee args line =>
      have hvalues := hclosed.values v _ hinst
      have hcallee := hvalues callee (by simp [Op.values])
      exact Call.transfer_safe h henter hv hcallee
        (fun u hu => hvalues u (by simp [Op.values, hu])) hs
  · exact Safe.ofFailing (Transfer.plain_safe h hclosed hfits c hinst hs)

theorem storeVisitor_safe {enter : Entering} (henter : enter.Safe p old) :
    Visitor.Safe p (Session.Writable p old) (Unsupported.AtAddress p) (Grounded p)
      (storeVisitor p c enter) where
  merge _ _ ha hb := ha.join hb
  noteMerge _ _ _ hs := hs
  transfer _ _ hv hs :=
    (transferInst_safe h hclosed hfits henter hv hs).mapFailure (fun _ he => he)

/-- The induction is on the depth, as callees are analysed one level further down. -/
theorem analyzeBody_safe (height depth : Nat) : (analyzeBody p c height depth).Safe p old := by
  induction depth with
  | zero => exact fun f context _ _ => Safe.exhausted
  | succ depth ih =>
      intro f context hf hcontext
      have hvisitor := storeVisitor_safe (c := c) h hclosed hfits ih
      exact Analysis.within_safe (hvisitor.forward h hclosed hf height hcontext)

theorem run_safe {f : FuncId} (hf : p.HasFunction f) :
    Safe (Session.Writable p old) (Unsupported.AtAddress p) (fun _ => True) (run p c f) := by
  refine Safe.ofExcept_bind hf.function (fun fn _ _ => ?_)
  have hnote : Note.Writable p (.analyzing f) :=
    ⟨by simpa [Note.functions] using hf, by simp [Note.stores]⟩
  refine Safe.bind (Analysis.note_safe hnote) (fun _ _ => ?_)
  have hbodies : (enterBody p c).Safe p old := analyzeBody_safe h hclosed hfits _ _
  refine Safe.bind (hbodies f ∅ hf .empty) (fun states hstates => ?_)
  have hedges := (summarize_grounded hstates).ofSummary h
  exact Safe.ofExcept_bind hedges (fun _ _ _ => Safe.pure trivial)

theorem runAllBy_safe (found : Edges) {funcs : List FuncId}
    (hfuncs : ∀ f ∈ funcs, p.HasFunction f) :
    Safe (Session.Writable p old) (Unsupported.AtAddress p) (fun _ => True)
      (runAllBy p c (enterBody p c) found funcs) := by
  induction funcs generalizing found with
  | nil => exact Safe.pure trivial
  | cons f rest ih =>
      have hf := hfuncs f List.mem_cons_self
      have hothers := fun found => ih found (fun g hg => hfuncs g (List.mem_cons_of_mem f hg))
      have hroot : Gives (fun _ => True) (isRoot p c f) := by
        refine Gives.bind hf.function (fun fn _ _ => ?_)
        exact Gives.bind (hf.isIntrinsic c) (fun _ _ _ => Gives.pure trivial)
      refine Safe.ofExcept_bind hroot (fun answer _ _ => ?_)
      cases answer with
      | false => exact hothers found
      | true =>
          exact Safe.bind (run_safe h hclosed hfits hf) (fun result _ => hothers _)

theorem analyze_safe :
    Safe (Session.Writable p old) (Unsupported.AtAddress p) (fun _ => True) (analyze p c) := by
  have hfuncs : ∀ f ∈ p.functionIds, p.HasFunction f := by
    intro f hf
    obtain ⟨fn, hfn⟩ := mem_functionIds.mp hf
    exact Program.lt_of_fetch hfn
  refine Safe.bind (runAllBy_safe h hclosed hfits {} hfuncs) (fun edges _ => ?_)
  exact fun s hs => ⟨trivial, hs⟩

end Closed

/-! ## Closed programs -/

/-- A result, or the refusal of an address computation of the program. -/
def Settled {α : Type} (p : Program) (out : Failing Unsupported α) : Prop :=
  (∃ a, out = .ok a) ∨ ∃ e, out = .error (.failed e) ∧ e.AtAddress p

theorem outcome_settled {α : Type} {x : Analysis Unsupported α} {s : Session}
    (h : Safe (Session.Writable p s.journal) (Unsupported.AtAddress p) (fun _ => True) x)
    (hends : (x.outcome s).Ends) : Settled p (x.outcome s) := by
  have hsafe := h s (fun e he => Or.inl he)
  unfold Halting.outcome at hends ⊢
  cases hx : x s with
  | ok a t => exact Or.inl ⟨a, rfl⟩
  | error halt t =>
      rw [hx] at hsafe hends
      cases halt with
      | fault cause => exact hsafe.1.elim
      | failed e => exact Or.inr ⟨e, rfl, hsafe.1⟩
      | exhausted => exact absurd rfl hends

/-- Writing the log has no part in how a safe computation ends. -/
theorem outcome_watch {α : Type} {x : Analysis Unsupported α}
    (h : Safe (Session.Writable p []) (Unsupported.AtAddress p) (fun _ => True) x)
    (level : Option Level) (s : Session) :
    (watch p level x s).outcome = x.outcome { s with journal := [] } := by
  have hwrite : ∀ t : Session, t.Writable p [] → ∀ level,
      (Log.write p level (Log.notes t.journal)).2 = none := by
    refine fun t ht level => Log.write_complete level (fun n hn => ?_)
    obtain ⟨e, he, rfl⟩ : ∃ e ∈ t.journal, e.note = n := by simpa [Log.notes] using hn
    exact ((ht e he).resolve_left (by simp)).text
  have hsafe := h { s with journal := [] } (by simp [Session.Writable])
  unfold watch Halting.outcome
  cases hx : x { s with journal := [] } with
  | ok a t | error halt t =>
      rw [hx] at hsafe
      cases level with
      | none => rfl
      | some level =>
          have hnone := hwrite t hsafe.2 level
          dsimp only
          split
          · rfl
          · next heq => simp [heq] at hnone

theorem settled {α : Type} {x : Analysis Unsupported α}
    (h : ∀ old, Safe (Session.Writable p old) (Unsupported.AtAddress p) (fun _ => True) x)
    (hends : ∀ s : Session, s.path = [] → (x.outcome s).Ends) {s : Session}
    (hrest : s.path = []) :
    Settled p (x.outcome s) ∧ ∀ level, Settled p (watch p level x s).outcome := by
  refine ⟨outcome_settled (h _) (hends s hrest), fun level => ?_⟩
  rw [outcome_watch (h [])]
  exact outcome_settled (h []) (hends _ hrest)

/-- In a closed program with types that can be counted, every run and the whole analysis come
to a result or refuse an address computation, from every session at rest.  They do so also
while their log is written, at any level. -/
theorem fails_only_at_addresses {steps : List Step} {built : Built}
    (h : build steps = .ok built) (hclosed : built.program.Closed)
    (hfits : built.program.TypesFit) (c : Config) {s : Session} (hrest : s.path = []) :
    (∀ f, built.program.HasFunction f →
      Settled built.program ((run built.program c f).outcome s) ∧
      ∀ level,
        Settled built.program (watch built.program level (run built.program c f) s).outcome) ∧
    Settled built.program ((analyze built.program c).outcome s) ∧
    ∀ level,
      Settled built.program (watch built.program level (analyze built.program c) s).outcome := by
  have hlinked := Program.linked_of_build h
  -- Safety allows for a spent budget, which the bounds of the analysis rule out.
  have hself : Entering.AgreeOff .equal built.program [] (enterBody built.program c)
      (enterBody built.program c) :=
    analyzeBody_agree le_rfl le_rfl (.nil _) (by simp) (by simp)
  refine ⟨fun f hf => ?_, ?_⟩
  · apply settled (fun old => run_safe hlinked hclosed hfits hf) ?_ hrest
    intro t ht
    obtain ⟨out, hout, hcomputes⟩ := runBy_agree hself f
    obtain ⟨t', -, -, heq, -⟩ := hcomputes t t ⟨rfl, ht⟩
    rwa [run, Halting.outcome_of_eq heq]
  · apply settled (fun old => analyze_safe hlinked hclosed hfits) ?_ hrest
    exact fun t ht => (analyzeBy_agree hself ht).1

/-- A table of four pointers inside a struct that has no field after it. -/
def overreaching : List Step :=
  [.define "reach" [.ptr] .void, .int 0, .int 1, .int 2,
    .gep "entry" (.struct [.ptr, .array .ptr 4]) (.ofNat 1) [.ofNat 2, .ofNat 3, .ofNat 4],
    .setLine 7, .gep "beyond" (.struct [.ptr, .array .ptr 4]) (.ofNat 1) [.ofNat 2, .ofNat 4],
    .ret none]

/-- Stepping beyond the table is refused. -/
theorem fails_only_at_addresses_overreaching : ∃ built e, build overreaching = .ok built ∧
    (analyze built.program {}).outcome {} = .error (.failed e) ∧ e.AtAddress built.program ∧
    Settled built.program
      (watch built.program (some .trace) (run built.program {} (.ofNat 0)) {}).outcome := by
  obtain ⟨built, hbuilt, hf, hclosed, hfits, hfails⟩ : ∃ built, build overreaching = .ok built ∧
      built.program.HasFunction (.ofNat 0) ∧ built.program.Closed ∧ built.program.TypesFit ∧
      ((analyze built.program {}).outcome {}).toOption.any (fun _ => true) = false := by
    refine ⟨_, rfl, by decide, .of_ops ?_, .of_ops ?_, ?_⟩ <;> decide +kernel
  have hrest : ({} : Session).path = [] := rfl
  obtain ⟨hruns, hanalyze, -⟩ := fails_only_at_addresses hbuilt hclosed hfits {} hrest
  rcases hanalyze with ⟨res, hres⟩ | ⟨e, hfailed, hat⟩
  · rw [hres] at hfails
    cases hfails
  · exact ⟨built, e, hbuilt, hfailed, hat, (hruns _ hf).2 _⟩

end CallTargets
