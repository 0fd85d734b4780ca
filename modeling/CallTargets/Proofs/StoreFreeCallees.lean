import CallTargets.Proofs.DirectCalls
import CallTargets.Proofs.FactsAtCalls
import CallTargets.Proofs.MemoryWrites
import CallTargets.Proofs.OperandFlow
import CallTargets.Proofs.Ownership
import CallTargets.Proofs.Proviso

/-!
# Calls to code that does not store

A callee is analysed from the whole store of its caller, and what it leaves behind is written back
over the caller's entries.  Where no function below a call stores a pointer, each of them leaves
behind what it was given, apart from its own values, from return values and from what its calls
record.  The caller sees none of these but the last, so that its own entries come back as they
were, however deep the calls are nested.
-/

namespace CallTargets

/-- What merges keep, and the instructions of a function whose branches stay, holds of all states
of the function. -/
theorem plainForward_keeps_of_branchesStay {ε D : Type} [DecidableEq D] {P : D → Prop}
    {p : Program} {f : FuncId} {merge : D → D → D} {transfer : ValueId → D → Failing ε D}
    {height : Nat} {init : D} {states : BlockStates D}
    (hstay : ∀ fn, p.function f = .ok fn → p.BranchesStay fn)
    (hmerge : ∀ a b, P a → P b → P (merge a b))
    (htransfer : ∀ v ∈ p.bodyOf f, ∀ d d', P d → transfer v d = .ok d' → P d') (hinit : P init)
    (h : plainForward p f merge transfer height init = .ok states) : StatesHold P states := by
  have hfunctional := Visitor.stateless_functional merge transfer
  have hprovided : (Visitor.stateless merge transfer).Provided (fun _ => True) (fun _ => True)
      (· ∈ p.bodyOf f) P :=
    { merge := hmerge
      noteMerge := fun _ _ _ => rfl
      transfer := fun v d => Halting.Provided.ofFailing fun d' hstep hd =>
        htransfer v hd.1 d d' hd.2 hstep }
  obtain ⟨s, -, -, hforward, -⟩ :=
    hfunctional.computes.forward p f init (Or.inl (Eq.refl height)) () () ⟨rfl, trivial⟩
  change _ = Halting.ofFailing (plainForward p f merge transfer height init) s at hforward
  rw [h] at hforward
  obtain ⟨-, hkept⟩ := hprovided.forward (fun _ hv => hv) hstay height init () trivial
  exact (hkept hinit trivial).2 states s hforward

/-! ## What callers see -/

variable {p : Program} {c : Config} {path : List FuncId} {f : FuncId} {s t u : Store} {l : Loc}

/-- Where a caller of `f` can see them, `t` has the entries of `s`, apart from recorded callees. -/
def Store.SameOutside (p : Program) (f : FuncId) (s t : Store) : Prop :=
  ∀ l, l.role ≠ .callees → Call.escapes p f l = .ok true → t.explicit? l = s.explicit? l

namespace Store.SameOutside

protected theorem refl (p : Program) (f : FuncId) (s : Store) : SameOutside p f s s :=
  fun _ _ _ => rfl

protected theorem trans (hst : SameOutside p f s t) (htu : SameOutside p f t u) :
    SameOutside p f s u :=
  fun l hrole hl => (htu l hrole hl).trans (hst l hrole hl)

theorem join (ht : SameOutside p f s t) (hu : SameOutside p f s u) :
    SameOutside p f s (t.join u) := by
  intro l hrole hl
  have hsame : u.explicit? l = t.explicit? l := (hu l hrole hl).trans (ht l hrole hl).symm
  exact (explicit?_join_of_eq hsame).trans (ht l hrole hl)

end Store.SameOutside

open Store (SameOutside)

theorem Call.ne_self_of_escapes {v : ValueId} (hv : p.owner? v = .ok (some f))
    (h : escapes p f l = .ok true) : .self v ≠ l := by
  rintro rfl
  simp [escapes, Loc.self, hv, bind, Except.bind, pure, Except.pure] at h

theorem Call.ne_returned_of_escapes (func : ValueId) (h : escapes p f l = .ok true) :
    .returned func ≠ l := by
  rintro rfl
  cases h

/-- An instruction of a function that neither is a call nor stores a pointer gives entries to
nothing but values of the function and return values. -/
theorem Transfer.plain_sameOutside {v : ValueId} {op : Op} (hv : p.owner? v = .ok (some f))
    (hstore : ∀ value ptr, op = .store value ptr → p.isPtr value ≠ .ok true)
    (h : plain p c v op s = .ok t) : SameOutside p f s t := by
  intro l _ hl
  have hflow : ResultFlow p v op (fun t => t.explicit? l = s.explicit? l) (fun _ => True) :=
    { operand := fun _ _ _ _ _ _ => trivial
      values := fun _ _ _ _ => trivial
      offset := fun _ _ => trivial
      result := fun ht _ =>
        (Store.explicit?_extend_of_ne (Call.ne_self_of_escapes hv hl) _ _).trans ht
      returned := fun func ht _ =>
        (Store.explicit?_extend_of_ne (Call.ne_returned_of_escapes func hl) _ _).trans ht }
  exact hflow.plain hstore rfl h

/-! ## Store-free functions -/

/-- The function has no body. -/
def Program.Declares (p : Program) (f : FuncId) : Prop :=
  ∃ fn, p.function f = .ok fn ∧ fn.isDeclaration = true

/-- Branches of the functions `F` stay in their function, none of their instructions stores a
pointer, and they call nothing but each other, declarations and intrinsics, all of them
directly. -/
structure Program.StoreFree (p : Program) (c : Config) (F : FuncId → Prop) : Prop where
  stay : ∀ f, F f → ∀ fn, p.function f = .ok fn → p.BranchesStay fn
  noStore : ∀ f, F f → ∀ v ∈ p.bodyOf f, ∀ inst, p.inst? v = .ok (some inst) →
    ∀ value ptr, inst.op = .store value ptr → p.isPtr value ≠ .ok true
  direct : ∀ f, F f → ∀ v ∈ p.bodyOf f, ∀ inst, p.inst? v = .ok (some inst) →
    ∀ callee args, inst.op = .call callee args → ∃ g, p.asFunction? callee = .ok (some g) ∧
      ((F g ∨ p.Declares g) ∨ p.isIntrinsic c g = .ok true)

variable {F : FuncId → Prop}

/-- Bodies of the functions `F` that are entered on the path leave what callers see as it was. -/
def LeavesOutside (p : Program) (c : Config) (F : FuncId → Prop) (path : List FuncId) : Prop :=
  ∀ f, F f → ∀ fn context states, p.function f = .ok fn → f ∉ path →
    bodyAt p c path f context = .ok states → StatesHold (SameOutside p f context) states

namespace Call

variable {call callee : ValueId} {args : List ValueId} {before context : Store}
  {effects : List Effect} {fn : Function}

/-- Where every callee has written back what was there before, it is there after the call. -/
theorem explicit?_splice_of_same (isPtr : Bool) (hl : .self call ≠ l)
    (h : ∀ effect ∈ effects, effect.writes.explicit? l = none ∨
      effect.writes.explicit? l = before.explicit? l) :
    (splice call isPtr before effects).explicit? l = before.explicit? l := by
  rw [explicit?_splice isPtr before effects hl]
  rcases Store.explicit?_foldl_absorb Effect.writes h with hall | hall
  · rw [allWrites, hall, Option.elim_none]
  · rw [allWrites, hall]
    cases hbefore : before.explicit? l with
    | none => rfl
    | some e => simp [Store.values_of_explicit hbefore]

theorem bindParams_sameOutside (howned : p.Owned) (hfn : p.function f = .ok fn)
    (h : bindParams p before fn.params args = .ok context) : SameOutside p f before context := by
  refine foldlM_ok_induction h (SameOutside p f before) (.refl p f before) ?_
  rintro t ⟨param, arg⟩ t' hpair ht hstep
  obtain ⟨isPtr, -, hstep⟩ := bind_eq_ok_iff.mp hstep
  cases isPtr with
  | false =>
      cases hstep
      exact ht
  | true =>
      obtain ⟨pointees, -, hstep⟩ := bind_eq_ok_iff.mp hstep
      cases hstep
      obtain ⟨j, hj⟩ := List.getElem?_of_mem (List.of_mem_zip hpair).1
      obtain ⟨value, hvalue, hkind⟩ := howned.kind_of_param hfn hj
      have howner : p.owner? param = .ok (some f) := by
        simp [Program.owner?, hvalue, hkind, bind, Except.bind, pure, Except.pure]
      intro l hrole hl
      rw [Store.explicit?_extend_of_ne (ne_self_of_escapes howner hl)]
      exact ht l hrole hl

/-- What a store-free callee writes back is what its caller had. -/
theorem explicit?_of_entered (howned : p.Owned) (hbodies : LeavesOutside p c F path) (hf : F f)
    {summary : Store} {effect : Effect} (hrole : l.role ≠ .callees)
    (hentered : Enters p c path call callee args s f fn summary)
    (heffect : effect.Of p f fn summary) :
    effect.writes.explicit? l = none ∨ effect.writes.explicit? l = s.explicit? l := by
  by_cases hl : escapes p f l = .ok true
  · obtain ⟨funcs, before, context, states, -, -, hfollow, hrecord, hcontext, hstates, rfl⟩ :=
      hentered
    have hsame : ∀ entry ∈ states.toList, entry.2.exit.explicit? l = s.explicit? l := by
      intro ⟨b, state⟩ hstate
      have hbody := hbodies f hf fn context states hfollow.function_eq
        (notMem_of_cutoff?_eq_none hfollow.free) hstates b state
        (Std.ExtTreeMap.mem_toList_iff_getElem?_eq_some.mp hstate)
      calc state.exit.explicit? l
          = context.explicit? l := hbody.2 l hrole hl
        _ = before.explicit? l :=
            bindParams_sameOutside howned hfollow.function_eq hcontext l hrole hl
        _ = s.explicit? l := by
            apply recordTargets_explicit? hrecord
            rintro rfl
            exact hrole rfl
    rw [explicit?_visible heffect.writes hl]
    exact Store.explicit?_foldl_absorb _ fun entry hentry => Or.inr (hsame entry hentry)
  · exact Or.inl (explicit?_visible_of_hidden heffect.writes hl)

end Call

variable {call callee : ValueId} {args : List ValueId} {inst : Inst}

/-- Over a call that enters nothing but store-free functions, only the result of the call and
recorded callees change. -/
theorem explicit?_of_call (howned : p.Owned) (hbodies : LeavesOutside p c F path)
    (hinst : p.inst? call = .ok (some inst)) (hop : inst.op = .call callee args)
    (hfuncs : ∀ funcs, Call.candidates p c s callee = .ok funcs →
      ∀ g ∈ funcs, F g ∨ p.Declares g)
    (h : stepAt p c path call s = .ok t) (hrole : l.role ≠ .callees) (hl : .self call ≠ l) :
    t.explicit? l = s.explicit? l := by
  obtain ⟨session', hstep⟩ := Halting.outcome_eq_ok_iff.mp h
  obtain ⟨isPtr, hptr⟩ := isPtr_of_inst? hinst
  obtain ⟨-, before, effects, -, -, heffects, hbefore, rfl⟩ :=
    Call.transfer_splices hptr (transfer_of_step hinst hop hstep)
  have hsame : before.explicit? l = s.explicit? l := by
    apply hbefore
    rintro rfl
    exact hrole rfl
  rw [← hsame]
  refine Call.explicit?_splice_of_same isPtr hl (fun effect heffect => ?_)
  obtain ⟨f, fn, summary, hentered, hof⟩ := heffects.sound effect heffect
  have hf : F f := by
    obtain ⟨funcs, -, -, -, hcandidates, hmem, hfollow, -⟩ := hentered
    apply (hfuncs funcs hcandidates f (Std.ExtTreeSet.mem_toList.mp hmem)).resolve_right
    rintro ⟨fn', hfn', hdeclared⟩
    rw [hfollow.function_eq] at hfn'
    cases hfn'
    rw [hfollow.defined] at hdeclared
    cases hdeclared
  rw [hsame]
  exact Call.explicit?_of_entered howned hbodies hf hrole hentered hof

namespace Program.StoreFree

variable (howned : p.Owned) (hfree : p.StoreFree c F)

include howned hfree

/-- An instruction of a store-free function leaves what callers see as it was. -/
theorem stepAt_sameOutside (hf : F f) (hbodies : LeavesOutside p c F path) {v : ValueId}
    (hv : v ∈ p.bodyOf f) (h : stepAt p c path v s = .ok t) : SameOutside p f s t := by
  have howner := howned.owner?_of_mem_bodyOf hv
  rcases stepAt_cases h with rfl | ⟨inst, hinst, ⟨callee, args, hop⟩ | hplain⟩
  · exact .refl p f t
  · obtain ⟨g, hcallee, hg⟩ := hfree.direct f hf v hv inst hinst callee args hop
    intro l hrole hl
    apply explicit?_of_call howned hbodies hinst hop ?_ h hrole
      (Call.ne_self_of_escapes howner hl)
    -- The operand points to nothing but the function, which is a candidate unless intrinsic.
    intro funcs hfuncs g' hg'
    cases Call.eq_of_mem_candidates hcallee hfuncs hg'
    apply hg.resolve_right
    intro hintrinsic
    obtain ⟨pointees, -, hcandidates⟩ := Call.mem_candidates hfuncs
    obtain ⟨x, -, -, hnot⟩ := (hcandidates g).mp hg'
    rw [hintrinsic] at hnot
    cases hnot
  · exact Transfer.plain_sameOutside howner (hfree.noStore f hf v hv inst hinst) hplain

/-- The induction is on the functions that are not on the path yet: a callee has one less. -/
theorem leavesOutside (hpath : IsPath p path) : LeavesOutside p c F path := by
  induction hpath using IsPath.extension_induction with
  | extend path hpath ih =>
      intro f hf fn context states hfn hfresh hstates
      have hplain := plainForward_of_bodyAt hpath hfn hfresh hstates
      refine plainForward_keeps_of_branchesStay (hfree.stay f hf) (fun _ _ ha hb => ha.join hb) ?_
        (.refl p f context) hplain
      intro v hv d d' hd hstep
      apply hd.trans
      apply hfree.stepAt_sameOutside howned hf (ih f fn hfn hfresh) hv
      exact transferAt_eq_ok_iff.mp hstep

end Program.StoreFree

/-- In programs that were built step by step and are short enough for their identifiers: if at
some moment of a run a call comes to a result, and all its candidates are store-free or only
declared, then every location has the entry that it had before, or none as before, apart from
the result of the call and from recorded callees. -/
theorem store_free_callees_keep_entries {steps : List Step} {built : Built}
    (hbuilt : build steps = .ok built) (haddr : built.program.Addressable) {c : Config}
    {F : FuncId → Prop} (hfree : built.program.StoreFree c F) {root : FuncId} {path : List FuncId}
    {s s' : Store} {call callee : ValueId} {rest args : List ValueId} {inst : Inst}
    {funcs : FuncSet} (h : Happens built.program c root path (.within s (call :: rest)))
    (hinst : built.program.inst? call = .ok (some inst)) (hop : inst.op = .call callee args)
    (hfuncs : Call.candidates built.program c s callee = .ok funcs)
    (hall : ∀ g ∈ funcs, F g ∨ built.program.Declares g)
    (hstep : stepAt built.program c path call s = .ok s') {l : Loc} (hrole : l.role ≠ .callees)
    (hl : l ≠ .self call) : s'.explicit? l = s.explicit? l := by
  have howned := Program.owned_of_build hbuilt haddr
  refine explicit?_of_call howned (hfree.leavesOutside howned h.isPath) hinst hop ?_ hstep hrole
    hl.symm
  intro funcs' hfuncs'
  rw [hfuncs] at hfuncs'
  cases hfuncs'
  exact hall

/-- `main` has a global point to `f` and looks it up through two functions, one of which also
calls something unknown. -/
def lookingUp : List Step :=
  [.define "f" [] .void, .ret none, .global "gp", .declare "ext" [] .void,
    .define "inner" [.ptr] .ptr, .load "x" .ptr (.ofNat 5), .ret (some (.ofNat 6)),
    .define "outer" [.ptr] .ptr, .call "" .void (.ofNat 3) [],
    .call "r" .ptr (.ofNat 4) [.ofNat 9], .ret (some (.ofNat 11)), .define "main" [] .void,
    .store (.ofNat 0) (.ofNat 2), .call "g" .ptr (.ofNat 8) [.ofNat 2], .ret none]

/-- The global still points to `f`, and to nothing else, once it has been looked up. -/
theorem store_free_callees_keep_entries_looking_up : ∃ built s s' rest,
    build lookingUp = .ok built ∧
    built.program.Addressable ∧
    built.program.StoreFree {} (fun f => f ∈ [Ident.ofNat 2, .ofNat 3]) ∧
    Happens built.program {} (.ofNat 4) [.ofNat 4] (.within s (.ofNat 15 :: rest)) ∧
    stepAt built.program {} [.ofNat 4] (.ofNat 15) s = .ok s' ∧
    s'.explicit? (.self (.ofNat 2)) = some ((∅ : LocSet).insert (.self (.ofNat 0))) := by
  let harmless : Program → ValueId → Bool := fun p v =>
    (p.inst? v).toOption.join.all fun inst =>
      match inst.op with
      | .store value _ => decide (p.isPtr value ≠ .ok true)
      | .call callee _ => (p.asFunction? callee).toOption.join.any fun g =>
          g = .ofNat 1 || g = .ofNat 2
      | _ => true
  obtain ⟨built, fn, ext, hbuilt, hvalues, hblocks, hsuccs, hharmless, hext, hdeclared, hfn,
      hstart, hinst, hsteps⟩ :
      ∃ built fn ext, build lookingUp = .ok built ∧ built.program.values.size = 17 ∧
        built.program.blocks.size = 4 ∧
        (∀ i < 4, built.program.successors (.ofNat i) = .ok []) ∧
        (∀ f ∈ [Ident.ofNat 2, .ofNat 3], ∀ v ∈ built.program.bodyOf f,
          harmless built.program v = true) ∧
        built.program.function (.ofNat 1) = .ok ext ∧ ext.isDeclaration = true ∧
        built.program.function (.ofNat 4) = .ok fn ∧
        Happens.startsWith built.program (.ofNat 4)
          ([.ofNat 14] ++ [.ofNat 15, .ofNat 16]) = true ∧
        built.program.inst? (.ofNat 15) =
          .ok (some ⟨.ofNat 3, .call (.ofNat 8) [.ofNat 2], none⟩) ∧
        ([Ident.ofNat 14].foldlM (fun s v => stepAt built.program {} [.ofNat 4] v s)
          ∅).toOption.any (fun s =>
            (stepAt built.program {} [.ofNat 4] (.ofNat 15) s).toOption.any (fun _ => true) &&
            decide (s.explicit? (.self (.ofNat 2)) =
              some ((∅ : LocSet).insert (.self (.ofNat 0)))) &&
            (Call.candidates built.program {} s (.ofNat 8)).toOption.any
              (fun funcs => funcs.toList = [.ofNat 3])) = true :=
    ⟨_, _, _, rfl, rfl, rfl, by decide +kernel, by decide +kernel, rfl, rfl, rfl,
      by decide +kernel, rfl, by decide +kernel⟩
  have haddr : built.program.Addressable :=
    ⟨by rw [hvalues]; decide, by rw [hblocks]; decide⟩
  have hfree : built.program.StoreFree {} (fun f => f ∈ [Ident.ofNat 2, .ofNat 3]) := by
    refine ⟨fun _ _ fn _ => Program.branchesStay_of_successors (hblocks ▸ hsuccs) fn, ?_, ?_⟩
    · intro f hf v hv inst hinst value ptr hop
      have hv := hharmless f hf v hv
      simp only [harmless, hinst, hop, Except.toOption, Option.join_some, Option.all_some] at hv
      exact of_decide_eq_true hv
    · intro f hf v hv inst hinst callee args hop
      have hv := hharmless f hf v hv
      rcases hcallee : built.program.asFunction? callee with cause | _ | g <;>
        simp only [harmless, hinst, hop, hcallee, Except.toOption, Option.join_some,
          Option.join_none, Option.all_some, Option.any_some, Option.any_none,
          Bool.false_eq_true, Bool.or_eq_true, decide_eq_true_eq] at hv
      rcases hv with rfl | rfl
      · exact ⟨_, rfl, Or.inl (Or.inr ⟨ext, hext, hdeclared⟩)⟩
      · exact ⟨_, rfl, Or.inl (Or.inl List.mem_cons_self)⟩
  obtain ⟨s, hs, hsteps⟩ := eq_ok_of_toOption_any hsteps
  obtain ⟨hsteps, hcandidates⟩ := Bool.and_eq_true_iff.mp hsteps
  obtain ⟨hstep, hbefore⟩ := Bool.and_eq_true_iff.mp hsteps
  obtain ⟨s', hs', -⟩ := eq_ok_of_toOption_any hstep
  obtain ⟨funcs, hfuncs, hlist⟩ := eq_ok_of_toOption_any hcandidates
  have hcall := (Happens.first_of_startsWith (c := {}) hfn hstart).advance hs
  have hall : ∀ g ∈ funcs, g ∈ [Ident.ofNat 2, .ofNat 3] ∨ built.program.Declares g := by
    intro g hg
    rw [← Std.ExtTreeSet.mem_toList, of_decide_eq_true hlist] at hg
    exact Or.inl (List.mem_cons_of_mem _ hg)
  refine ⟨built, s, s', _, hbuilt, haddr, hfree, hcall, hs', ?_⟩
  rw [store_free_callees_keep_entries hbuilt haddr hfree hcall hinst rfl hfuncs hall hs'
    (by decide) (by decide)]
  exact of_decide_eq_true hbefore

end CallTargets
