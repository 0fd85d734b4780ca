import CallTargets.Proofs.Splicing

/-!
# Facts over a call

What a store knows about memory goes into the body of each candidate that a call enters, and
comes back from there.  A fact is lost when every entered candidate has overwritten it.
Candidates that are not entered have no say in this: neither declarations nor those that the path
or the depth keeps out.
-/

namespace CallTargets

open Call (CanFollow Enters Writes)

variable {p : Program} {c : Config} {session session' : Session} {call callee : ValueId}
  {args : List ValueId} {inst : Inst} {s s' : Store}

/-- The call gives its own result an entry, where the result stood for itself before. -/
def Call.MakesResult (p : Program) (call : ValueId) (s : Store)
    (Entered : FuncId → Function → Store → Prop) (l : Loc) : Prop :=
  l = .self call ∧ s.contains l = false ∧ p.isPtr call = .ok true ∧
    (∃ f fn summary x, Entered f fn summary ∧ x ∈ summary.values (.returned fn.value)) ∧
    ∀ f fn summary, Entered f fn summary → ¬ Writes p f summary l

namespace Call

variable {Entered : FuncId → Function → Store → Prop} {effects : List Effect} {before : Store}
  {isPtr : Bool} {l x : Loc}

/-- Where some candidate wrote, a fact is kept if one of them did not write or knows it still. -/
theorem mem_values_splice_iff_of_written (heffects : AreEffects p Entered effects)
    (hwritten : ∃ f fn summary, Entered f fn summary ∧ Writes p f summary l)
    (hx : x ∈ before.values l) :
    x ∈ (splice call isPtr before effects).values l ↔
      ∃ f fn summary, Entered f fn summary ∧ (Writes p f summary l → x ∈ summary.values l) := by
  rw [heffects.mem_values_iff hwritten]
  constructor
  · rintro (⟨f, fn, summary, hentered, -, hknown⟩ | ⟨⟨f, fn, summary, hentered, hleft⟩, -⟩)
    · exact ⟨f, fn, summary, hentered, fun _ => hknown⟩
    · exact ⟨f, fn, summary, hentered, fun hwrites => absurd hwrites hleft⟩
  · rintro ⟨f, fn, summary, hentered, hknown⟩
    by_cases hwrites : Writes p f summary l
    · exact Or.inl ⟨f, fn, summary, hentered, hwrites, hknown hwrites⟩
    · exact Or.inr ⟨⟨f, fn, summary, hentered, hwrites⟩, hx⟩

theorem mem_values_withReturns_of_kept (heffects : AreEffects p Entered effects)
    (hptr : p.isPtr call = .ok isPtr) (hbefore : before.explicit? l = s.explicit? l)
    (hunwritten : ∀ f fn summary, Entered f fn summary → ¬ Writes p f summary l)
    (hresult : ¬ MakesResult p call s Entered l) (hx : x ∈ before.values l) :
    x ∈ (withReturns call isPtr before effects).values l := by
  by_cases hl : .self call = l
  · subst hl
    cases hcontains : before.contains (.self call) with
    | true => exact mem_values_withReturns_of_contains hcontains hx
    | false =>
        have hnone : (if isPtr then allReturns effects else ∅) = (∅ : LocSet) := by
          cases isPtr with
          | false => rfl
          | true =>
              apply Std.ExtTreeSet.ext_mem
              intro y
              rw [if_pos rfl, heffects.mem_allReturns_iff]
              constructor
              · rintro ⟨f, fn, summary, hentered, hy⟩
                refine absurd ⟨rfl, ?_, hptr, ⟨f, fn, summary, y, hentered, hy⟩, hunwritten⟩ hresult
                rwa [Store.not_contains_iff, ← hbefore, ← Store.not_contains_iff]
              · intro hy
                simp at hy
        simpa [withReturns, hnone] using hx
  · rwa [Store.values, explicit?_withReturns_of_ne isPtr before effects hl, ← Store.values]

end Call

theorem isPtr_of_inst? {v : ValueId} (h : p.inst? v = .ok (some inst)) :
    ∃ isPtr, p.isPtr v = .ok isPtr := by
  obtain ⟨value, hvalue, -⟩ := bind_eq_ok_iff.mp h
  exact ⟨value.ty.isPtr, bind_eq_ok_iff.mpr ⟨value, hvalue, rfl⟩⟩

/-- A fact about memory is kept over a call just if no candidate is entered, or some entered
candidate leaves the location alone or still knows the fact at its end. -/
theorem facts_kept_at_call (hinst : p.inst? call = .ok (some inst))
    (hop : inst.op = .call callee args) (h : step p c call s session = .ok s' session') :
    ∃ funcs, Call.candidates p c s callee = .ok funcs ∧
      (∀ f fn, f ∈ funcs.toList → CanFollow p c session.path f fn →
        ∃ summary, Enters p c session.path call callee args s f fn summary) ∧
      ∀ l x, l.slot? ≠ none → x ∈ s.values l →
        ¬ Call.MakesResult p call s (Enters p c session.path call callee args s) l →
        (x ∈ s'.values l ↔
          (¬ ∃ f fn summary, Enters p c session.path call callee args s f fn summary) ∨
          ∃ f fn summary, Enters p c session.path call callee args s f fn summary ∧
            (Writes p f summary l → x ∈ summary.values l)) := by
  obtain ⟨isPtr, hptr⟩ := isPtr_of_inst? hinst
  obtain ⟨funcs, before, effects, hfuncs, hfollowed, heffects, hbefore, rfl⟩ :=
    Call.transfer_splices hptr (transfer_of_step hinst hop h)
  refine ⟨funcs, hfuncs, hfollowed, fun l x hl hx hresult => ?_⟩
  have hsame : before.explicit? l = s.explicit? l := by
    apply hbefore
    rintro rfl
    exact hl rfl
  have hx : x ∈ before.values l := by rwa [Store.values, hsame]
  by_cases hwritten : ∃ f fn summary, Enters p c session.path call callee args s f fn summary ∧
      Writes p f summary l
  · have hsome : ∃ f fn summary, Enters p c session.path call callee args s f fn summary := by
      obtain ⟨f, fn, summary, hentered, -⟩ := hwritten
      exact ⟨f, fn, summary, hentered⟩
    rw [Call.mem_values_splice_iff_of_written heffects hwritten hx,
      or_iff_right (not_not_intro hsome)]
  · have hunwritten : ∀ f fn summary,
        Enters p c session.path call callee args s f fn summary → ¬ Writes p f summary l :=
      fun f fn summary hentered hwrites => hwritten ⟨f, fn, summary, hentered, hwrites⟩
    rw [heffects.values_eq hunwritten]
    constructor
    · intro _
      by_cases hsome : ∃ f fn summary, Enters p c session.path call callee args s f fn summary
      · obtain ⟨f, fn, summary, hentered⟩ := hsome
        exact Or.inr ⟨f, fn, summary, hentered,
          fun hwrites => absurd hwrites (hunwritten f fn summary hentered)⟩
      · exact Or.inl hsome
    · intro _
      exact Call.mem_values_withReturns_of_kept heffects hptr hsame hunwritten hresult hx

/-- A global is set to `a`, then `set` or a function that is only declared is called, and then
what the global holds.  The first of the two may have set it to `b`. -/
def diverting : List Step :=
  [.define "a" [] .void, .ret none, .define "b" [] .void, .ret none, .global "gp",
    .declare "ext" [] .void, .define "set" [] .void, .store (.ofNat 2) (.ofNat 4), .ret none,
    .define "main" [.int 1] .void, .block (.ofNat 4) "l", .block (.ofNat 4) "r",
    .block (.ofNat 4) "m", .store (.ofNat 0) (.ofNat 4),
    .condBr (.ofNat 10) (.ofNat 4) (.ofNat 5), .positionAtEnd (.ofNat 4), .br (.ofNat 6),
    .positionAtEnd (.ofNat 5), .br (.ofNat 6), .positionAtEnd (.ofNat 6), .phi "p" .ptr,
    .incoming (.ofNat 15) (.ofNat 6) (.ofNat 4), .incoming (.ofNat 15) (.ofNat 5) (.ofNat 5),
    .call "" .void (.ofNat 15) [], .load "q" .ptr (.ofNat 4), .call "" .void (.ofNat 17) [],
    .ret none]

/-- The store with which the first call of `diverting` is reached. -/
def diverted : Store :=
  let values (vs : List Nat) : LocSet := vs.foldl (fun s v => s.insert (.self (.ofNat v))) ∅
  ((∅ : Store).set (.self (.ofNat 4)) (values [0])).set (.self (.ofNat 15)) (values [5, 6])

/-- `set` does not touch the function pointer that it is called through. -/
theorem facts_kept_at_call_diverting : ∃ built s' session', build diverting = .ok built ∧
    step built.program {} (.ofNat 16) diverted { path := [.ofNat 4] } = .ok s' session' ∧
    Loc.self (.ofNat 5) ∈ s'.values (.self (.ofNat 15)) := by
  obtain ⟨built, fn, hbuilt, hinst, hptr, hfn, hdefined, hparams, hstep, hcall⟩ :
      ∃ built fn, build diverting = .ok built ∧
        built.program.inst? (.ofNat 16) = .ok (some ⟨.ofNat 6, .call (.ofNat 15) [], none⟩) ∧
        built.program.isPtr (.ofNat 16) = .ok false ∧
        built.program.function (.ofNat 3) = .ok fn ∧ fn.isDeclaration = false ∧ fn.params = [] ∧
        ((step built.program {} (.ofNat 16) diverted).outcome { path := [.ofNat 4] }).toOption.any
          (fun _ => true) = true ∧
        (Call.candidates built.program {} diverted (.ofNat 15)).toOption.any (fun funcs =>
          funcs.contains (.ofNat 3) &&
            (Call.recordTargets built.program (.ofNat 16) diverted funcs.toList).toOption.any
              fun before =>
                (bodyAt built.program {} [.ofNat 4] (.ofNat 3) before).toOption.any fun states =>
                  ((summarize states).values (.self (.ofNat 15))).contains
                    (.self (.ofNat 5))) = true :=
    ⟨_, _, rfl, rfl, rfl, rfl, rfl, rfl, by decide +kernel, by decide +kernel⟩
  obtain ⟨s', session', hstep, -⟩ := Halting.eq_ok_of_outcome_any hstep
  obtain ⟨funcs, hfuncs, hcall⟩ := eq_ok_of_toOption_any hcall
  obtain ⟨hset, hcall⟩ := Bool.and_eq_true_iff.mp hcall
  obtain ⟨before, hbefore, hcall⟩ := eq_ok_of_toOption_any hcall
  obtain ⟨states, hstates, hknown⟩ := eq_ok_of_toOption_any hcall
  obtain ⟨-, -, -, hkept⟩ := facts_kept_at_call hinst rfl hstep
  have hresult : ∀ Entered,
      ¬ Call.MakesResult built.program (.ofNat 16) diverted Entered (.self (.ofNat 15)) := by
    rintro Entered ⟨hsame, -⟩
    cases hsame
  refine ⟨built, s', session', hbuilt, hstep,
    (hkept _ _ (by decide) ?_ (hresult _)).mpr (Or.inr ?_)⟩
  · exact Std.ExtTreeSet.contains_iff_mem.mp (by decide +kernel)
  · refine ⟨.ofNat 3, fn, summarize states, ⟨funcs, before, before, states, hfuncs,
      by simpa using hset, ⟨hfn, hdefined, rfl⟩, hbefore, by rw [hparams]; rfl, hstates, rfl⟩, ?_⟩
    exact fun _ => Std.ExtTreeSet.contains_iff_mem.mp hknown

/-- `ext` may be the one that is called, and leaves the global alone, but after the call the
global is not known to hold `a` any more. -/
theorem fact_lost_beside_declaration : ∃ built s' funcs fn, build diverting = .ok built ∧
    stepAt built.program {} [.ofNat 4] (.ofNat 16) diverted = .ok s' ∧
    Call.candidates built.program {} diverted (.ofNat 15) = .ok funcs ∧
    (.ofNat 2 : FuncId) ∈ funcs ∧ built.program.function (.ofNat 2) = .ok fn ∧
    fn.isDeclaration = true ∧
    Loc.self (.ofNat 0) ∈ diverted.values (.self (.ofNat 4)) ∧
    Loc.self (.ofNat 0) ∉ s'.values (.self (.ofNat 4)) := by
  obtain ⟨built, fn, hbuilt, hfn, hdeclared, hfuncs, hstep⟩ :
      ∃ built fn, build diverting = .ok built ∧
        built.program.function (.ofNat 2) = .ok fn ∧ fn.isDeclaration = true ∧
        (Call.candidates built.program {} diverted (.ofNat 15)).toOption.any
          (fun funcs => funcs.contains (.ofNat 2)) = true ∧
        (stepAt built.program {} [.ofNat 4] (.ofNat 16) diverted).toOption.any (fun s' =>
          !(s'.values (.self (.ofNat 4))).contains (.self (.ofNat 0))) = true :=
    ⟨_, _, rfl, rfl, rfl, by decide +kernel, by decide +kernel⟩
  obtain ⟨funcs, hfuncs, hext⟩ := eq_ok_of_toOption_any hfuncs
  obtain ⟨s', hs', hlost⟩ := eq_ok_of_toOption_any hstep
  refine ⟨built, s', funcs, fn, hbuilt, hs', hfuncs, by simpa using hext, hfn, hdeclared,
    Std.ExtTreeSet.contains_iff_mem.mp (by decide +kernel), ?_⟩
  intro hmem
  rw [Std.ExtTreeSet.contains_iff_mem.mpr hmem] at hlost
  cases hlost

end CallTargets
