import CallTargets.Proofs.Splicing

/-!
# Returned values

The result of a call gets what the entered candidates return.  The store in which they are
analysed is a copy of the caller's, though, and when the result has an entry there already, the
candidates bring this older entry back, in place of the one with the returned values.
-/

namespace CallTargets

open Call (CanFollow Enters Writes)

variable {p : Program} {c : Config} {session session' : Session} {call callee : ValueId}
  {args : List ValueId} {inst : Inst} {s s' : Store}

/-- After a call, its result holds all that the entered candidates return, as long as none of
them brings back an entry for the result.  Otherwise it holds just what they bring back, together
with what it held before if one of them does not. -/
theorem returned_at_call (hinst : p.inst? call = .ok (some inst))
    (hop : inst.op = .call callee args) (hptr : p.isPtr call = .ok true)
    (h : step p c call s session = .ok s' session') :
    ∃ funcs, Call.candidates p c s callee = .ok funcs ∧
      (∀ f fn, f ∈ funcs.toList → CanFollow p c session.path f fn →
        ∃ summary, Enters p c session.path call callee args s f fn summary) ∧
      ((∀ f fn summary, Enters p c session.path call callee args s f fn summary →
          ¬ Writes p f summary (.self call)) →
        ∀ f fn summary, Enters p c session.path call callee args s f fn summary →
          ∀ x ∈ summary.values (.returned fn.value), x ∈ s'.values (.self call)) ∧
      ((∃ f fn summary, Enters p c session.path call callee args s f fn summary ∧
          Writes p f summary (.self call)) →
        ∀ x, x ∈ s'.values (.self call) ↔
          (∃ f fn summary, Enters p c session.path call callee args s f fn summary ∧
            Writes p f summary (.self call) ∧ x ∈ summary.values (.self call)) ∨
          (∃ f fn summary, Enters p c session.path call callee args s f fn summary ∧
            ¬ Writes p f summary (.self call)) ∧ x ∈ s.values (.self call)) := by
  obtain ⟨funcs, before, effects, hfuncs, hfollowed, heffects, hbefore, rfl⟩ :=
    Call.transfer_splices hptr (transfer_of_step hinst hop h)
  have hsame : before.values (.self call) = s.values (.self call) := by
    rw [Store.values, hbefore _ (by simp [Loc.self, Loc.callees]), Store.values]
  refine ⟨funcs, hfuncs, hfollowed, ?_, ?_⟩
  · intro hunwritten f fn summary hentered x hx
    rw [heffects.values_eq hunwritten]
    apply Call.mem_values_withReturns_of_returned
    exact heffects.mem_allReturns_iff.mpr ⟨f, fn, summary, hentered, hx⟩
  · intro hwritten x
    rw [heffects.mem_values_iff hwritten, hsame]

/-- When the function pointer of `relay` is known, the call gives back the address of the slot. -/
theorem returned_at_call_relay : ∃ built s' session', build relay = .ok built ∧
    step built.program {} (.ofNat 7)
      ((∅ : Store).set (.self (.ofNat 6)) ((∅ : LocSet).insert (.self (.ofNat 0))))
      { path := [.ofNat 1] } = .ok s' session' ∧
    Loc.self (.ofNat 4) ∈ s'.values (.self (.ofNat 7)) := by
  let known : Store := (∅ : Store).set (.self (.ofNat 6)) ((∅ : LocSet).insert (.self (.ofNat 0)))
  obtain ⟨built, fn, hbuilt, hinst, hptr, hfn, hdefined, hvalue, hstep, hcall⟩ :
      ∃ built fn, build relay = .ok built ∧
        built.program.inst? (.ofNat 7) =
          .ok (some ⟨.ofNat 1, .call (.ofNat 6) [.ofNat 4], none⟩) ∧
        built.program.isPtr (.ofNat 7) = .ok true ∧
        built.program.function (.ofNat 0) = .ok fn ∧ fn.isDeclaration = false ∧
        fn.value = .ofNat 0 ∧
        ((step built.program {} (.ofNat 7) known).outcome { path := [.ofNat 1] }).toOption.any
          (fun _ => true) = true ∧
        (Call.candidates built.program {} known (.ofNat 6)).toOption.any (fun funcs =>
          funcs.toList = [.ofNat 0] &&
            (Call.recordTargets built.program (.ofNat 7) known funcs.toList).toOption.any
              fun before =>
                (Call.bindParams built.program before fn.params [.ofNat 4]).toOption.any
                  fun context =>
                    (bodyAt built.program {} [.ofNat 1] (.ofNat 0) context).toOption.any
                      fun states => !(summarize states).contains (.self (.ofNat 7)) &&
                        ((summarize states).values (.returned (.ofNat 0))).contains
                          (.self (.ofNat 4))) = true :=
    ⟨_, _, rfl, rfl, rfl, rfl, rfl, rfl, by decide +kernel, by decide +kernel⟩
  obtain ⟨s', session', hstep, -⟩ := Halting.eq_ok_of_outcome_any hstep
  obtain ⟨funcs, hfuncs, hcall⟩ := eq_ok_of_toOption_any hcall
  obtain ⟨hzero, hcall⟩ := Bool.and_eq_true_iff.mp hcall
  have hzero : funcs.toList = [.ofNat 0] := by simpa using hzero
  obtain ⟨before, hbefore, hcall⟩ := eq_ok_of_toOption_any hcall
  obtain ⟨context, hcontext, hcall⟩ := eq_ok_of_toOption_any hcall
  obtain ⟨states, hstates, hcall⟩ := eq_ok_of_toOption_any hcall
  obtain ⟨hleft, hreturned⟩ := Bool.and_eq_true_iff.mp hcall
  obtain ⟨-, -, -, hkept, -⟩ := returned_at_call hinst rfl hptr hstep
  refine ⟨built, s', session', hbuilt, hstep, hkept ?_ (.ofNat 0) fn (summarize states) ?_ _ ?_⟩
  · rintro f fn' summary ⟨funcs', before', context', states', hfuncs', hf, hfollow, hbefore',
      hcontext', hstates', rfl⟩ hwrites
    cases hfuncs.symm.trans hfuncs'
    obtain rfl : f = .ofNat 0 := by simpa [hzero] using hf
    cases hfn.symm.trans hfollow.function_eq
    cases hbefore.symm.trans hbefore'
    cases hcontext.symm.trans hcontext'
    cases hstates.symm.trans hstates'
    rw [hwrites.1] at hleft
    cases hleft
  · exact ⟨funcs, before, context, states, hfuncs, by simp [hzero], ⟨hfn, hdefined, rfl⟩, hbefore,
      hcontext, hstates, rfl⟩
  · rw [hvalue]
    exact Std.ExtTreeSet.contains_iff_mem.mp hreturned

/-- A loop calls what a global held when the loop was entered or at the end of its last round. -/
def refetching : List Step :=
  [.define "f" [] .void, .ret none, .define "g" [] .void, .ret none, .global "gp",
    .define "get" [] .ptr, .load "x" .ptr (.ofNat 4), .ret (some (.ofNat 6)),
    .define "main" [.int 1] .void, .block (.ofNat 3) "loop", .block (.ofNat 3) "exit",
    .store (.ofNat 0) (.ofNat 4), .br (.ofNat 4), .positionAtEnd (.ofNat 4),
    .call "p" .ptr (.ofNat 5) [], .call "" .void (.ofNat 12) [],
    .store (.ofNat 2) (.ofNat 4), .condBr (.ofNat 9) (.ofNat 4) (.ofNat 5),
    .positionAtEnd (.ofNat 5), .ret none]

/-- The store with which the loop of `refetching` is visited again: by then the global holds `f`
or `g`, and the first call of `get` has given back `f`. -/
def secondRound : Store :=
  let values (vs : List Nat) : LocSet := vs.foldl (fun s v => s.insert (.self (.ofNat v))) ∅
  ((((∅ : Store).set (.self (.ofNat 4)) (values [0, 2])).set (.self (.ofNat 12))
    (values [0, 12])).set (.callees (.ofNat 12)) (values [5])).set (.callees (.ofNat 13))
      (values [0])

/-- In the second round `get` may return `g`, but the result of its call stays what it was. -/
theorem returned_value_lost : ∃ built s' fn summary, build refetching = .ok built ∧
    built.program.isPtr (.ofNat 12) = .ok true ∧
    stepAt built.program {} [.ofNat 3] (.ofNat 12) secondRound = .ok s' ∧
    Enters built.program {} [.ofNat 3] (.ofNat 12) (.ofNat 5) [] secondRound (.ofNat 2) fn
      summary ∧
    Loc.self (.ofNat 2) ∈ summary.values (.returned fn.value) ∧
    Loc.self (.ofNat 2) ∉ s'.values (.self (.ofNat 12)) := by
  obtain ⟨built, fn, hbuilt, hptr, hfn, hdefined, hvalue, hparams, hstep, hcall⟩ :
      ∃ built fn, build refetching = .ok built ∧ built.program.isPtr (.ofNat 12) = .ok true ∧
        built.program.function (.ofNat 2) = .ok fn ∧ fn.isDeclaration = false ∧
        fn.value = .ofNat 5 ∧ fn.params = [] ∧
        (stepAt built.program {} [.ofNat 3] (.ofNat 12) secondRound).toOption.any (fun s' =>
          !(s'.values (.self (.ofNat 12))).contains (.self (.ofNat 2))) = true ∧
        (Call.candidates built.program {} secondRound (.ofNat 5)).toOption.any (fun funcs =>
          funcs.contains (.ofNat 2) &&
            (Call.recordTargets built.program (.ofNat 12) secondRound funcs.toList).toOption.any
              fun before =>
                (bodyAt built.program {} [.ofNat 3] (.ofNat 2) before).toOption.any fun states =>
                  ((summarize states).values (.returned (.ofNat 5))).contains
                    (.self (.ofNat 2))) = true :=
    ⟨_, _, rfl, rfl, rfl, rfl, rfl, rfl, by decide +kernel, by decide +kernel⟩
  obtain ⟨s', hs', hlost⟩ := eq_ok_of_toOption_any hstep
  obtain ⟨funcs, hfuncs, hcall⟩ := eq_ok_of_toOption_any hcall
  obtain ⟨hget, hcall⟩ := Bool.and_eq_true_iff.mp hcall
  obtain ⟨before, hbefore, hcall⟩ := eq_ok_of_toOption_any hcall
  obtain ⟨states, hstates, hreturned⟩ := eq_ok_of_toOption_any hcall
  refine ⟨built, s', fn, summarize states, hbuilt, hptr, hs', ?_, ?_, ?_⟩
  · exact ⟨funcs, before, before, states, hfuncs, by simpa using hget, ⟨hfn, hdefined, rfl⟩,
      hbefore, by rw [hparams]; rfl, hstates, rfl⟩
  · rw [hvalue]
    exact Std.ExtTreeSet.contains_iff_mem.mp hreturned
  · intro hmem
    rw [Std.ExtTreeSet.contains_iff_mem.mpr hmem] at hlost
    cases hlost

end CallTargets
