import CallTargets.Proofs.EnteredCallees
import CallTargets.Proofs.Independence

/-!
# What a call puts together

A call that comes to a result enters the candidates that are defined and that neither the path
nor the depth keeps out, and no others.  What its store holds afterwards at some location depends
on which of them wrote there: nobody, some, or all.  Nothing is assumed about the store before
the call or about the functions under analysis.
-/

namespace CallTargets

variable {p : Program} {c : Config} {path : List FuncId}

/-! ## Any path -/

/-- The functions that are not on a path. -/
def Program.offPath (p : Program) (path : List FuncId) : List FuncId :=
  p.functionIds.filter fun f => !path.contains f

namespace Program

theorem length_offPath_le (p : Program) (path : List FuncId) :
    (p.offPath path).length ≤ p.functions.size := by
  apply Nat.le_trans (List.length_filter_le _ _)
  simp [functionIds]

theorem length_offPath_cons_lt {f : FuncId} {fn : Function} (hfn : p.function f = .ok fn)
    (hf : f ∉ path) : (p.offPath (f :: path)).length < (p.offPath path).length := by
  have hstep : p.offPath (f :: path) = (p.offPath path).filter (· ≠ f) := by
    unfold offPath
    rw [List.filter_filter]
    apply List.filter_congr
    intro g _
    simp
  rw [hstep, List.length_filter_lt_length_iff_exists]
  refine ⟨f, List.mem_filter.mpr ⟨mem_functionIds.mpr ⟨fn, hfn⟩, by simpa using hf⟩, by simp⟩

end Program

/-- Whatever the functions under analysis are, there is room for the remaining ones. -/
theorem enterBody_agreeOff {R : Coupling} (p : Program) (c : Config) (path : List FuncId) :
    Entering.AgreeOff R p path (enterBody p c) (enterBody p c) := by
  have hdepth : (p.offPath path).length ≤ p.functions.size + 1 :=
    Nat.le_succ_of_le (p.length_offPath_le path)
  unfold enterBody
  generalize p.functions.size + 1 = depth at hdepth
  induction depth generalizing path with
  | zero =>
      intro f fn init hfn hf
      have hlt := Program.length_offPath_cons_lt hfn hf
      omega
  | succ depth ih =>
      intro f fn init hfn hf
      have hlt := Program.length_offPath_cons_lt hfn hf
      exact Analysis.within_agree (forward_agree (ih (f :: path) (by omega)) le_rfl le_rfl f init)

theorem enterBody_eq_bodyAt {f : FuncId} {fn : Function} (hfn : p.function f = .ok fn)
    (hf : f ∉ path) (init : Store) {session : Session} (hsession : session.path = path) :
    ∃ session', session'.path = path ∧
      enterBody p c f init session = Halting.ofFailing (bodyAt p c path f init) session' :=
  (enterBody_agreeOff p c path f fn init hfn hf).eq_outcome hsession

/-- The bodies of callees as they are analysed on a path. -/
theorem bodyAt_enterable (p : Program) (c : Config) (path : List FuncId) :
    Call.Enterable (fun _ => True)
      (fun f context states => bodyAt p c path f context = .ok states) p path (enterBody p c) where
  body f fn context hfn hf _ := by
    intro session hsession
    obtain ⟨session', hpath, heq⟩ :=
      enterBody_eq_bodyAt hfn hf context hsession.path_eq
    rw [heq]
    have hremembers : Session.Remembers (fun _ => True) path session' :=
      ⟨hpath, fun _ _ _ _ => trivial⟩
    cases hbody : bodyAt p c path f context with
    | ok states => exact ⟨rfl, hremembers⟩
    | error halt => exact hremembers
  summary _ _ _ _ := trivial
  bind _ _ _ _ _ _ := trivial

namespace Call

variable {Body : BodySpec} {enter : Entering} {call callee : ValueId} {args : List ValueId}
  {s s' before : Store} {funcs : List FuncId} {f : FuncId} {fn : Function}

/-! ## Entered candidates -/

/-- A call that is made on `s` enters its candidate `f`: the body of `f` is analysed from the
store before the call with the parameters bound, and `summary` holds at its end. -/
def Enters (p : Program) (c : Config) (path : List FuncId) (call callee : ValueId)
    (args : List ValueId) (s : Store) (f : FuncId) (fn : Function) (summary : Store) : Prop :=
  ∃ funcs before context states, candidates p c s callee = .ok funcs ∧ f ∈ funcs.toList ∧
    CanFollow p c path f fn ∧ recordTargets p call s funcs.toList = .ok before ∧
    bindParams p before fn.params args = .ok context ∧
    bodyAt p c path f context = .ok states ∧ summary = summarize states

/-- At the end of the body of `f` there is an entry that its caller sees. -/
def Writes (p : Program) (f : FuncId) (summary : Store) (l : Loc) : Prop :=
  summary.contains l = true ∧ escapes p f l = .ok true

/-- What the candidate `f` returns and writes, read off its summary. -/
structure Effect.Of (p : Program) (f : FuncId) (fn : Function) (summary : Store)
    (effect : Effect) : Prop where
  returns : effect.returns = summary.values (.returned fn.value)
  writes : visible p f summary = .ok effect.writes

/-- The effects of a call are those of the candidates that it enters. -/
structure AreEffects (p : Program) (Entered : FuncId → Function → Store → Prop)
    (effects : List Effect) : Prop where
  sound : ∀ effect ∈ effects, ∃ f fn summary, Entered f fn summary ∧ effect.Of p f fn summary
  complete : ∀ f fn summary, Entered f fn summary → ∃ effect ∈ effects, effect.Of p f fn summary

theorem canFollow_of_enterOne {session session' : Session} {effect : Effect}
    (hsession : session.path = path)
    (h : enterOne p c enter call args before f session = .ok (some effect) session') :
    ∃ fn, CanFollow p c path f fn := by
  obtain ⟨fn, s₁, hread, h⟩ := Halting.bind_eq_ok_iff.mp h
  obtain ⟨hfn, rfl⟩ := Halting.ofExcept_eq_ok_iff.mp hread
  split at h
  · cases (Halting.pure_eq_ok_iff.mp h).1
  · next hdefined =>
      obtain ⟨answer, s₂, hanswer, h⟩ := Halting.bind_eq_ok_iff.mp h
      rw [canEnter_apply, hsession] at hanswer
      cases hcutoff : cutoff? c path f with
      | none => exact ⟨fn, hfn, by simpa using hdefined, hcutoff⟩
      | some reason =>
          rw [hcutoff] at hanswer
          cases hanswer
          cases (Halting.pure_eq_ok_iff.mp h).1

theorem enterAll_follows (henter : Enterable (fun _ => True) Body p path enter) :
    Halting.Keeps (Session.Remembers (fun _ => True) path)
      (fun effects => ∀ effect ∈ effects, ∃ f fn, f ∈ funcs ∧ CanFollow p c path f fn ∧
        IsEffect Body p args before f effect)
      (enterAll p c enter call args before funcs) := by
  induction funcs with
  | nil => exact Halting.Keeps.pure (by simp)
  | cons g rest ih =>
      have hfirst : Halting.Keeps (Session.Remembers (fun _ => True) path)
          (fun effect? => ∀ effect ∈ effect?, (∃ fn, CanFollow p c path g fn) ∧
            IsEffect Body p args before g effect)
          (enterOne p c enter call args before g) := by
        apply (enterOne_keeps henter call args trivial g).strengthen
        intro session effect? session' hsession heq hIs effect heffect
        cases heffect
        exact ⟨canFollow_of_enterOne hsession.path_eq heq, hIs effect rfl⟩
      refine Halting.Keeps.bind hfirst (fun effect? hg => ?_)
      refine Halting.Keeps.bind ih (fun effects hrest => Halting.Keeps.pure ?_)
      intro effect heffect
      rcases List.mem_append.mp heffect with hmem | hmem
      · obtain ⟨⟨fn, hfollow⟩, hIs⟩ := hg effect (by simpa using hmem)
        exact ⟨g, fn, by simp, hfollow, hIs⟩
      · obtain ⟨f, fn, hf, hfollow, hIs⟩ := hrest effect hmem
        exact ⟨f, fn, by simp [hf], hfollow, hIs⟩

theorem enterAll_areEffects {session session' : Session} {found : FuncSet}
    {effects : List Effect} (hsession : session.path = path)
    (hfound : candidates p c s callee = .ok found)
    (hrecord : recordTargets p call s found.toList = .ok before)
    (h : enterAll p c (enterBody p c) call args before found.toList session =
      .ok effects session') :
    AreEffects p (Enters p c path call callee args s) effects ∧
      ∀ f fn, f ∈ found.toList → CanFollow p c path f fn →
        ∃ summary, Enters p c path call callee args s f fn summary := by
  have hremembers : Session.Remembers (fun _ => True) path session :=
    ⟨hsession, fun _ _ _ _ => trivial⟩
  have henter := bodyAt_enterable p c path
  have hall := (enterAll_enters henter trivial).of_eq_ok hremembers h
  refine ⟨⟨?_, ?_⟩, ?_⟩
  · intro effect heffect
    obtain ⟨f, fn, hf, hfollow, fn', context, states, hfn', -, hcontext, hstates, hreturns,
      hwrites⟩ := (enterAll_follows henter).of_eq_ok hremembers h effect heffect
    cases hfollow.function_eq.symm.trans hfn'
    exact ⟨f, fn, summarize states, ⟨found, before, context, states, hfound, hf, hfollow, hrecord,
      hcontext, hstates, rfl⟩, hreturns, hwrites⟩
  · rintro f fn summary ⟨found', before', context, states, hfound', hf, hfollow, hrecord',
      hcontext, hstates, rfl⟩
    cases hfound.symm.trans hfound'
    cases hrecord.symm.trans hrecord'
    obtain ⟨effect, heffect, fn', context', states', hfn', -, hcontext', hstates', hreturns,
      hwrites⟩ := hall f hf fn hfollow
    cases hfollow.function_eq.symm.trans hfn'
    cases hcontext.symm.trans hcontext'
    cases hstates.symm.trans hstates'
    exact ⟨effect, heffect, hreturns, hwrites⟩
  · intro f fn hf hfollow
    obtain ⟨effect, -, fn', context, states, hfn', -, hcontext, hstates, -⟩ := hall f hf fn hfollow
    cases hfollow.function_eq.symm.trans hfn'
    exact ⟨summarize states, found, before, context, states, hfound, hf, hfollow, hrecord,
      hcontext, hstates, rfl⟩

/-! ## What is put together -/

variable {isPtr : Bool} {effects : List Effect} {l x : Loc}

theorem contains_allWrites :
    (allWrites effects).contains l = true ↔
      ∃ effect ∈ effects, effect.writes.contains l = true := by
  rw [allWrites, Store.contains_foldl_absorb Effect.writes effects ∅ l]
  simp [Store.contains_iff]

theorem mem_stored_allWrites :
    x ∈ (allWrites effects).stored l ↔ ∃ effect ∈ effects, x ∈ effect.writes.stored l := by
  rw [allWrites, Store.mem_stored_foldl_absorb Effect.writes effects ∅ l x]
  simp

theorem mem_allReturns : x ∈ allReturns effects ↔ ∃ effect ∈ effects, x ∈ effect.returns := by
  have hfold : ∀ all : LocSet, x ∈ effects.foldl (fun all effect => all ∪ effect.returns) all ↔
      x ∈ all ∨ ∃ effect ∈ effects, x ∈ effect.returns := by
    induction effects with
    | nil => simp
    | cons effect rest ih =>
        intro all
        rw [List.foldl_cons, ih, Std.ExtTreeSet.mem_union_iff]
        simp [or_assoc]
  simpa [allReturns] using hfold ∅

theorem splice_nil (call : ValueId) (isPtr : Bool) (before : Store) :
    splice call isPtr before [] = before := by
  cases isPtr <;> rfl

/-- Where no callee wrote, the store holds what it held before and what was returned. -/
theorem values_splice_of_unwritten
    (h : ∀ effect ∈ effects, effect.writes.contains l = false) :
    (splice call isPtr before effects).values l =
      (withReturns call isPtr before effects).values l := by
  have hnone : (allWrites effects).explicit? l = none := by
    rw [← Store.not_contains_iff, ← Bool.not_eq_true, contains_allWrites]
    rintro ⟨effect, heffect, hwrites⟩
    rw [h effect heffect] at hwrites
    cases hwrites
  rw [Store.values, explicit?_splice_eq, hnone]
  rfl

/-- Where a callee wrote, the store holds what the callees wrote, and what it held before if some
callee did not write there. -/
theorem mem_values_splice_of_written
    (h : ∃ effect ∈ effects, effect.writes.contains l = true) :
    x ∈ (splice call isPtr before effects).values l ↔
      (∃ effect ∈ effects, x ∈ effect.writes.stored l) ∨
        (∃ effect ∈ effects, effect.writes.contains l = false) ∧ x ∈ before.values l := by
  obtain ⟨e, he⟩ := Store.contains_iff.mp (contains_allWrites.mpr h)
  have hspliced := explicit?_splice_eq call isPtr before effects l
  rw [he, Option.elim_some] at hspliced
  rw [Store.values_of_explicit hspliced, ← mem_stored_allWrites, Store.stored_of_explicit he]
  by_cases hall : effects.all (fun effect => effect.writes.contains l) = true
  · have hnone : ¬ ∃ effect ∈ effects, effect.writes.contains l = false := by
      rintro ⟨effect, heffect, hwrites⟩
      rw [List.all_eq_true.mp hall effect heffect] at hwrites
      cases hwrites
    rw [if_pos hall]
    simp [hnone]
  · have hsome : ∃ effect ∈ effects, effect.writes.contains l = false := by
      simpa using hall
    rw [if_neg hall, Std.ExtTreeSet.mem_union_iff]
    simp [hsome]

theorem mem_values_withReturns_of_returned (hx : x ∈ allReturns effects) :
    x ∈ (withReturns call true before effects).values (.self call) := by
  have hsome : (allReturns effects).isEmpty = false := by
    rw [← Bool.not_eq_true]
    intro hempty
    rw [Std.ExtTreeSet.isEmpty_iff.mp hempty] at hx
    simp at hx
  simp only [withReturns, if_true, hsome, Bool.false_eq_true, if_false]
  rw [Store.values_of_explicit (Store.explicit?_extend_self _ _ _)]
  exact Std.ExtTreeSet.mem_union_iff.mpr (Or.inr hx)

/-- Returned values are added to what the result of the call is known to be. -/
theorem mem_values_withReturns_of_contains (hl : before.contains (.self call) = true)
    (hx : x ∈ before.values (.self call)) :
    x ∈ (withReturns call isPtr before effects).values (.self call) := by
  obtain ⟨e, he⟩ := Store.contains_iff.mp hl
  rw [Store.values_of_explicit he] at hx
  unfold withReturns
  generalize (if isPtr then allReturns effects else ∅) = returns
  dsimp only
  split
  · rwa [Store.values_of_explicit he]
  · rw [Store.values_of_explicit (Store.explicit?_extend_self _ _ _), he]
    exact Std.ExtTreeSet.mem_union_iff.mpr (Or.inl hx)

/-! ## From summaries to effects -/

theorem explicit?_visible_of_hidden {summary writes : Store}
    (h : visible p f summary = .ok writes) (hl : escapes p f l ≠ .ok true) :
    writes.explicit? l = none := by
  refine foldlM_ok_induction h (fun kept => kept.explicit? l = none) (Store.explicit?_empty l) ?_
  intro kept entry kept' _ hkept hstep
  obtain ⟨seen, hseen, hstep⟩ := bind_eq_ok_iff.mp hstep
  cases seen with
  | false =>
      cases hstep
      exact hkept
  | true =>
      have hne : entry.1 ≠ l := by
        rintro rfl
        exact hl hseen
      cases hstep
      rwa [Store.explicit?_set_of_ne hne]

variable {summary : Store} {effect : Effect}

theorem Effect.Of.contains_iff (h : effect.Of p f fn summary) :
    effect.writes.contains l = true ↔ Writes p f summary l := by
  by_cases hl : escapes p f l = .ok true
  · simp only [Writes, hl, and_true, Store.contains_iff, explicit?_visible h.writes hl]
  · simp [Writes, hl, Store.contains_iff, explicit?_visible_of_hidden h.writes hl]

theorem Effect.Of.mem_iff (h : effect.Of p f fn summary) :
    x ∈ effect.writes.stored l ↔ Writes p f summary l ∧ x ∈ summary.values l := by
  by_cases hl : effect.writes.contains l = true
  · have hwrites := h.contains_iff.mp hl
    obtain ⟨e, he⟩ := Store.contains_iff.mp hl
    have hsummary := (explicit?_visible h.writes hwrites.2).symm.trans he
    rw [Store.stored_of_explicit he, Store.values_of_explicit hsummary]
    exact ⟨fun hx => ⟨hwrites, hx⟩, And.right⟩
  · have hnone := Store.not_contains_iff.mp (Bool.not_eq_true _ ▸ hl)
    rw [h.contains_iff] at hl
    simp [Store.stored, hnone, hl]

theorem recordTargets_explicit? (h : recordTargets p call s funcs = .ok before)
    (hl : Loc.callees call ≠ l) : before.explicit? l = s.explicit? l := by
  refine foldlM_ok_induction h (fun t => t.explicit? l = s.explicit? l) rfl ?_
  intro t g t' _ ht hstep
  obtain ⟨fn, -, hstep⟩ := bind_eq_ok_iff.mp hstep
  cases hstep
  rwa [Store.explicit?_insert_of_ne hl]

/-- What a call comes to: the effects of the candidates that it enters are spliced into the store
in which its candidates are recorded. -/
theorem transfer_splices {session session' : Session} {hasPtr : Bool}
    (hptr : p.isPtr call = .ok hasPtr)
    (h : transfer p c (enterBody p c) call callee args s session = .ok s' session') :
    ∃ funcs before effects, candidates p c s callee = .ok funcs ∧
      (∀ f fn, f ∈ funcs.toList → CanFollow p c session.path f fn →
        ∃ summary, Enters p c session.path call callee args s f fn summary) ∧
      AreEffects p (Enters p c session.path call callee args s) effects ∧
      (∀ l, .callees call ≠ l → before.explicit? l = s.explicit? l) ∧
      s' = splice call hasPtr before effects := by
  obtain ⟨funcs, s₁, hread, h⟩ := Halting.bind_eq_ok_iff.mp h
  obtain ⟨hfuncs, rfl⟩ := Halting.ofExcept_eq_ok_iff.mp hread
  by_cases hempty : funcs.toList = []
  · have hsame : s' = s := by
      simp only [hempty, List.isEmpty_nil, if_true] at h
      obtain ⟨func?, s₂, -, h⟩ := Halting.bind_eq_ok_iff.mp h
      split at h
      · obtain ⟨-, s₃, -, h⟩ := Halting.bind_eq_ok_iff.mp h
        exact (Halting.pure_eq_ok_iff.mp h).1.symm
      · exact (Halting.pure_eq_ok_iff.mp h).1.symm
    refine ⟨funcs, s, [], hfuncs, by simp [hempty], ⟨by simp, ?_⟩, fun _ _ => rfl, ?_⟩
    · rintro f fn summary ⟨funcs', -, -, -, hfuncs', hf, -⟩
      rw [show candidates p c s callee = .ok funcs from hfuncs] at hfuncs'
      cases hfuncs'
      simp [hempty] at hf
    · rw [hsame, splice_nil]
  · simp only [List.isEmpty_iff, hempty, if_false] at h
    obtain ⟨before, s₂, hread, h⟩ := Halting.bind_eq_ok_iff.mp h
    obtain ⟨hbefore, rfl⟩ := Halting.ofExcept_eq_ok_iff.mp hread
    obtain ⟨u, s₃, hnote, h⟩ := Halting.bind_eq_ok_iff.mp h
    cases hnote
    obtain ⟨effects, s₄, heffects, h⟩ := Halting.bind_eq_ok_iff.mp h
    obtain ⟨isPtr, s₅, hread, h⟩ := Halting.bind_eq_ok_iff.mp h
    obtain ⟨hisPtr, rfl⟩ := Halting.ofExcept_eq_ok_iff.mp hread
    rw [hptr] at hisPtr
    cases hisPtr
    have hpath : (session.note (.mayCall call funcs.toList)).path = session.path := rfl
    obtain ⟨hare, hfollowed⟩ := enterAll_areEffects hpath hfuncs hbefore heffects
    exact ⟨funcs, before, effects, hfuncs, hfollowed, hare,
      fun l hl => recordTargets_explicit? hbefore hl, (Halting.pure_eq_ok_iff.mp h).1.symm⟩

/-! ## From effects to summaries -/

variable {Entered : FuncId → Function → Store → Prop}

/-- What holds of some effect is what holds of the summary of some entered candidate. -/
theorem AreEffects.exists_iff (h : AreEffects p Entered effects)
    {P : Effect → Prop} {Q : FuncId → Function → Store → Prop}
    (hPQ : ∀ effect f fn summary, effect.Of p f fn summary → (P effect ↔ Q f fn summary)) :
    (∃ effect ∈ effects, P effect) ↔
      ∃ f fn summary, Entered f fn summary ∧ Q f fn summary := by
  constructor
  · rintro ⟨effect, heffect, hP⟩
    obtain ⟨f, fn, summary, hentered, hof⟩ := h.sound effect heffect
    exact ⟨f, fn, summary, hentered, (hPQ effect f fn summary hof).mp hP⟩
  · rintro ⟨f, fn, summary, hentered, hQ⟩
    obtain ⟨effect, heffect, hof⟩ := h.complete f fn summary hentered
    exact ⟨effect, heffect, (hPQ effect f fn summary hof).mpr hQ⟩

/-- What the store holds after a call at a location where some candidate wrote. -/
theorem AreEffects.mem_values_iff (h : AreEffects p Entered effects)
    (hwritten : ∃ f fn summary, Entered f fn summary ∧ Writes p f summary l) :
    x ∈ (splice call isPtr before effects).values l ↔
      (∃ f fn summary, Entered f fn summary ∧ Writes p f summary l ∧ x ∈ summary.values l) ∨
      (∃ f fn summary, Entered f fn summary ∧ ¬ Writes p f summary l) ∧ x ∈ before.values l := by
  have hsome := (h.exists_iff (P := fun effect => effect.writes.contains l = true)
    (Q := fun f _ summary => Writes p f summary l)
    fun _ _ _ _ hof => hof.contains_iff).mpr hwritten
  have hnone := h.exists_iff (P := fun effect => effect.writes.contains l = false)
    (Q := fun f _ summary => ¬ Writes p f summary l)
    fun _ _ _ _ hof => by rw [← hof.contains_iff, Bool.not_eq_true]
  have hstored := h.exists_iff (P := fun effect => x ∈ effect.writes.stored l)
    (Q := fun f _ summary => Writes p f summary l ∧ x ∈ summary.values l)
    fun _ _ _ _ hof => hof.mem_iff
  rw [mem_values_splice_of_written hsome, hstored, hnone]

theorem AreEffects.values_eq (h : AreEffects p Entered effects)
    (hunwritten : ∀ f fn summary, Entered f fn summary → ¬ Writes p f summary l) :
    (splice call isPtr before effects).values l =
      (withReturns call isPtr before effects).values l := by
  refine values_splice_of_unwritten fun effect heffect => ?_
  obtain ⟨f, fn, summary, hentered, hof⟩ := h.sound effect heffect
  rw [← Bool.not_eq_true, hof.contains_iff]
  exact hunwritten f fn summary hentered

theorem AreEffects.mem_allReturns_iff (h : AreEffects p Entered effects) :
    x ∈ allReturns effects ↔
      ∃ f fn summary, Entered f fn summary ∧ x ∈ summary.values (.returned fn.value) := by
  rw [mem_allReturns]
  exact h.exists_iff fun _ _ _ _ hof => by rw [hof.returns]

end Call

/-- A step at a call is the transfer of that call. -/
theorem transfer_of_step {call callee : ValueId} {args : List ValueId} {inst : Inst}
    {s s' : Store} {session session' : Session} (hinst : p.inst? call = .ok (some inst))
    (hop : inst.op = .call callee args) (h : step p c call s session = .ok s' session') :
    Call.transfer p c (enterBody p c) call callee args s session = .ok s' session' := by
  obtain ⟨inst?, s₁, hread, h⟩ := Halting.bind_eq_ok_iff.mp h
  obtain ⟨hinst?, rfl⟩ := Halting.ofExcept_eq_ok_iff.mp hread
  rw [show p.inst? call = .ok inst? from hinst?] at hinst
  cases hinst
  obtain ⟨block, op, line⟩ := inst
  cases hop
  exact h

end CallTargets
