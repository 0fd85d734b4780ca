import CallTargets.Proofs.Occurrence

/-!
# What stores write

A store gives new entries to the locations that its address may point to, and to no others.  The
location of a pointer itself is also the first slot of the memory that the pointer stands for
while nothing is known about it.  A store to that slot is a store to the pointer, which points to
what was written from then on, and no longer to its own memory.
-/

namespace CallTargets

namespace Transfer

variable {p : Program} {update : StoreUpdate} {value ptr : ValueId} {s s' : Store}
  {targets pointees : LocSet}

/-- What a target holds after a store, by what it held before. -/
def written (update : StoreUpdate) (targets pointees old : LocSet) : LocSet :=
  if overwrites update targets then pointees else old ∪ pointees

/-- A store rewrites the entries of its targets, and no other ones. -/
theorem explicit?_of_store (htargets : s.operand p ptr = .ok targets)
    (hpointees : s.operand p value = .ok pointees) (h : store p update value ptr s = .ok s')
    (l : Loc) :
    s'.explicit? l =
      if l ∈ targets then some (written update targets pointees (s.stored l))
      else s.explicit? l := by
  obtain ⟨targets', htargets', h⟩ := bind_eq_ok_iff.mp h
  rw [htargets] at htargets'
  cases htargets'
  obtain ⟨pointees', hpointees', h⟩ := bind_eq_ok_iff.mp h
  rw [hpointees] at hpointees'
  cases hpointees'
  cases h
  let write : Store → Loc → Store := fun s target =>
    (if overwrites update targets then Store.set else Store.extend) s target pointees
  let entry : Loc → Option LocSet → Option LocSet := fun _ old =>
    some (written update targets pointees (old.getD ∅))
  have hwrite : ∀ s target k, (write s target).explicit? k =
      if id target = k then entry target (s.explicit? k) else s.explicit? k := by
    intro s target k
    simp only [write, entry, written, id]
    split
    · exact Store.explicit?_set s target k pointees
    · exact Store.explicit?_extend s target k pointees
  by_cases hl : l ∈ targets
  · have hnodup : (targets.toList.map id).Nodup := by
      rw [List.map_id]
      exact nodup_toList targets
    rw [if_pos hl]
    exact Store.explicit?_foldl_of_mem id entry hwrite hnodup (Std.ExtTreeSet.mem_toList.mpr hl) s
  · rw [if_neg hl]
    refine Store.explicit?_foldl_of_notMem id entry hwrite (fun hmem => hl ?_) s
    rw [List.map_id] at hmem
    exact Std.ExtTreeSet.mem_toList.mp hmem

theorem values_of_store (htargets : s.operand p ptr = .ok targets)
    (hpointees : s.operand p value = .ok pointees) (h : store p update value ptr s = .ok s')
    (l : Loc) :
    s'.values l =
      if l ∈ targets then written update targets pointees (s.stored l) else s.values l := by
  rw [Store.values, explicit?_of_store htargets hpointees h]
  split
  · rfl
  · rfl

/-- A target that is overwritten, or had no entry, holds what is stored and nothing else. -/
theorem written_eq_of_renewed {l : Loc}
    (h : overwrites update targets = true ∨ s.contains l = false) :
    written update targets pointees (s.stored l) = pointees := by
  unfold written
  split
  · rfl
  · next hkeep =>
      have hnone := Store.not_contains_iff.mp (h.resolve_left hkeep)
      apply Std.ExtTreeSet.ext_mem
      simp [Store.stored, hnone]

/-- Any other target keeps what it may point to. -/
theorem mem_written_of_kept {l : Loc} (hkeep : overwrites update targets = false)
    (hentry : s.contains l = true) {x : Loc} :
    x ∈ written update targets pointees (s.stored l) ↔ x ∈ s.values l ∨ x ∈ pointees := by
  obtain ⟨e, he⟩ := Store.contains_iff.mp hentry
  rw [written, hkeep, Store.stored_of_explicit he, Store.values_of_explicit he]
  exact Std.ExtTreeSet.mem_union_iff

theorem written_eq_values_iff {l : Loc} :
    written update targets pointees (s.stored l) = s.values l ↔
      (∀ x ∈ pointees, x ∈ s.values l) ∧
      (overwrites update targets = true ∨ s.contains l = false →
        ∀ x ∈ s.values l, x ∈ pointees) := by
  by_cases hrenewed : overwrites update targets = true ∨ s.contains l = false
  · rw [written_eq_of_renewed hrenewed]
    constructor
    · rintro rfl
      exact ⟨fun _ hx => hx, fun _ _ hx => hx⟩
    · rintro ⟨hnew, hold⟩
      exact Std.ExtTreeSet.ext_mem fun x => ⟨hnew x, hold hrenewed x⟩
  · rw [not_or, Bool.not_eq_true, Bool.not_eq_false] at hrenewed
    have hmem : ∀ x, x ∈ written update targets pointees (s.stored l) ↔
        x ∈ s.values l ∨ x ∈ pointees := fun _ => mem_written_of_kept hrenewed.1 hrenewed.2
    constructor
    · intro heq
      refine ⟨fun x hx => ?_, fun h => ?_⟩
      · rw [← heq]
        exact (hmem x).mpr (Or.inr hx)
      · simp [hrenewed] at h
    · rintro ⟨hnew, -⟩
      exact Std.ExtTreeSet.ext_mem fun x => (hmem x).trans (or_iff_left_of_imp (hnew x))

end Transfer

/-! ## Stores on the way through a body -/

variable {p : Program} {c : Config} {path : List FuncId} {root : FuncId} {s s' : Store}

/-- An instruction that is not a call is transferred on its own. -/
theorem stepAt_eq_plain {v : ValueId} {inst : Inst} (hinst : p.inst? v = .ok (some inst))
    (hop : ∀ callee args, inst.op ≠ .call callee args) (s : Store) :
    stepAt p c path v s = Transfer.plain p c v inst.op s := by
  have heq : step p c v s { path } =
      Halting.ofFailing (Transfer.plain p c v inst.op s) { path } := by
    rw [step, transferInst, show (p.inst? v : Except Fault (Option Inst)) = _ from hinst]
    obtain ⟨block, op, line⟩ := inst
    cases op with
    | call callee args => exact absurd rfl (hop callee args)
    | _ => rfl
  exact Halting.outcome_of_eq heq

theorem plain_of_stepAt {v : ValueId} {inst : Inst} (hinst : p.inst? v = .ok (some inst))
    (hop : ∀ callee args, inst.op ≠ .call callee args) (h : stepAt p c path v s = .ok s') :
    Transfer.plain p c v inst.op s = .ok s' :=
  stepAt_eq_plain hinst hop s ▸ h

/-- A store changes the entries of its targets only.  What a value that is no object may point to
is kept, unless its own location is a target.  In that case it is kept just if the value may point
to all that is stored, and to nothing else if the target is overwritten or had no entry. -/
theorem operands_kept_by_store {v value ptr : ValueId} {inst : Inst}
    (hinst : p.inst? v = .ok (some inst)) (hop : inst.op = .store value ptr)
    (h : stepAt p c path v s = .ok s') :
    p.isPtr value = .ok false ∧ s' = s ∨
    p.isPtr value = .ok true ∧ ∃ targets pointees, s.operand p ptr = .ok targets ∧
      s.operand p value = .ok pointees ∧
      (∀ l, s'.explicit? l =
        if l ∈ targets then some (Transfer.written c.storeUpdate targets pointees (s.stored l))
        else s.explicit? l) ∧
      ∀ w, p.isObject w = .ok false →
        (s'.operand p w = s.operand p w ↔
          (.self w ∈ targets → (∀ x ∈ pointees, x ∈ s.values (.self w)) ∧
            (Transfer.overwrites c.storeUpdate targets = true ∨ s.contains (.self w) = false →
              ∀ x ∈ s.values (.self w), x ∈ pointees))) := by
  have hplain := plain_of_stepAt hinst (by simp [hop]) h
  rw [hop] at hplain
  obtain ⟨isPtr, hptr, hstore⟩ := bind_eq_ok_iff.mp hplain
  have hptr := Failing.ofExcept_eq_ok_iff.mp hptr
  cases isPtr with
  | false =>
      cases hstore
      exact Or.inl ⟨hptr, rfl⟩
  | true =>
      have hstore := Failing.ofExcept_eq_ok_iff.mp hstore
      obtain ⟨targets, htargets, hrest⟩ := bind_eq_ok_iff.mp hstore
      obtain ⟨pointees, hpointees, -⟩ := bind_eq_ok_iff.mp hrest
      refine Or.inr ⟨hptr, targets, pointees, htargets, hpointees,
        Transfer.explicit?_of_store htargets hpointees hstore, fun w hw => ?_⟩
      rw [Store.operand_of_not_object s hw, Store.operand_of_not_object s' hw,
        Except.ok.injEq, Transfer.values_of_store htargets hpointees hstore]
      by_cases hl : .self w ∈ targets
      · rw [if_pos hl, Transfer.written_eq_values_iff, forall_prop_of_true hl]
      · simp [hl]

/-- `use` stores `g` to the second field of what its parameter points to and `f` to the first,
and calls what it finds in the second field. -/
def filling : List Step :=
  let pair : Ty := .struct [.ptr, .ptr]
  [.define "f" [] .void, .ret none, .define "g" [] .void, .ret none, .define "use" [.ptr] .void,
    .int 0, .int 1, .gep "field" pair (.ofNat 5) [.ofNat 6, .ofNat 7],
    .store (.ofNat 2) (.ofNat 8), .store (.ofNat 0) (.ofNat 5),
    .gep "again" pair (.ofNat 5) [.ofNat 6, .ofNat 7], .load "q" .ptr (.ofNat 11),
    .setLine 9, .call "" .void (.ofNat 12) [], .ret none]

/-- The parameter is kept by the store to the second field. -/
theorem operands_kept_by_store_filling : ∃ built s s', build filling = .ok built ∧
    [Ident.ofNat 8].foldlM (fun s v => stepAt built.program {} [.ofNat 2] v s) ∅ = .ok s ∧
    stepAt built.program {} [.ofNat 2] (.ofNat 9) s = .ok s' ∧
    s'.operand built.program (.ofNat 5) = s.operand built.program (.ofNat 5) := by
  obtain ⟨built, hbuilt, hinst, hobject, hptr, hsteps⟩ : ∃ built, build filling = .ok built ∧
      built.program.inst? (.ofNat 9) =
        .ok (some ⟨.ofNat 2, .store (.ofNat 2) (.ofNat 8), none⟩) ∧
      built.program.isObject (.ofNat 5) = .ok false ∧
      built.program.isPtr (.ofNat 2) = .ok true ∧
      ([Ident.ofNat 8].foldlM (fun s v => stepAt built.program {} [.ofNat 2] v s)
        ∅).toOption.any (fun s =>
          (stepAt built.program {} [.ofNat 2] (.ofNat 9) s).toOption.any (fun _ => true) &&
          (s.operand built.program (.ofNat 8)).toOption.any
            (fun targets => !targets.contains (.self (.ofNat 5)))) = true :=
    ⟨_, rfl, rfl, rfl, rfl, by decide +kernel⟩
  obtain ⟨s, hs, hsteps⟩ := eq_ok_of_toOption_any hsteps
  obtain ⟨hstep, htargets⟩ := Bool.and_eq_true_iff.mp hsteps
  obtain ⟨s', hs', -⟩ := eq_ok_of_toOption_any hstep
  obtain ⟨targets, htargets, hout⟩ := eq_ok_of_toOption_any htargets
  refine ⟨built, s, s', hbuilt, hs, hs', ?_⟩
  rcases operands_kept_by_store hinst rfl hs' with
    ⟨hvalue, -⟩ | ⟨-, targets', pointees, htargets', -, -, hkept⟩
  · rw [hptr] at hvalue
    cases hvalue
  · rw [htargets] at htargets'
    cases htargets'
    refine (hkept _ hobject).mpr (fun hmem => ?_)
    rw [Std.ExtTreeSet.contains_iff_mem.mpr hmem] at hout
    cases hout

/-! ## A store to the pointer itself -/

theorem Solver.foldlM_mergePred_empty {ε σ D : Type} (v : Visitor ε σ D) (known : Option D)
    (preds : List BlockId) :
    preds.foldlM (mergePred v ∅) known = (pure known : Halting ε σ (Option D)) := by
  induction preds with
  | nil => rfl
  | cons pred preds ih =>
      rw [List.foldlM_cons, mergePred, pure_bind, ih]
      exact Std.ExtTreeMap.getElem?_empty

namespace Happens

/-- The first block of a root is begun with nothing known. -/
theorem first {fn : Function} (hfn : p.function root = .ok fn) {g : FlowGraph}
    (hg : FlowGraph.ofFunction p root = .ok (some g)) {pending : Std.ExtTreeSet BlockId}
    (hpending : Solver.pushAll g ∅ g.layout = .ok pending)
    (hnext : Solver.next? g pending = some g.entry) :
    Happens p c root [root] (.within ∅ (g.insts g.entry)) := by
  have hstart : Solver.start? g ∅ ∅ g.entry = some (∅ : Store) := by
    simp [Solver.start?]
  refine ((Happens.root hfn).start hg hpending).begin hg hnext ?_
  rw [Solver.entryState?, Solver.foldlM_mergePred_empty, hstart]
  rfl

/-- Whether the entry block of a function is visited first and has these instructions. -/
def startsWith (p : Program) (f : FuncId) (insts : List ValueId) : Bool :=
  (FlowGraph.ofFunction p f).toOption.any fun g? => g?.any fun g =>
    (Solver.pushAll g ∅ g.layout).toOption.any fun pending =>
      decide (Solver.next? g pending = some g.entry) && decide (g.insts g.entry = insts)

theorem first_of_startsWith {fn : Function} (hfn : p.function root = .ok fn)
    {insts : List ValueId} (h : startsWith p root insts = true) :
    Happens p c root [root] (.within ∅ insts) := by
  obtain ⟨g?, hg, h⟩ := eq_ok_of_toOption_any h
  obtain ⟨g, rfl, h⟩ := (Option.any_eq_true _ _).mp h
  obtain ⟨pending, hpending, h⟩ := eq_ok_of_toOption_any h
  obtain ⟨hnext, hinsts⟩ := Bool.and_eq_true_iff.mp h
  have hfirst := first (c := c) hfn hg hpending (of_decide_eq_true hnext)
  rwa [of_decide_eq_true hinsts] at hfirst

theorem advance {pre rest : List ValueId} (h : Happens p c root path (.within s (pre ++ rest)))
    (hsteps : pre.foldlM (fun s v => stepAt p c path v s) s = .ok s') :
    Happens p c root path (.within s' rest) := by
  induction pre generalizing s with
  | nil =>
      cases hsteps
      exact h
  | cons v pre ih =>
      obtain ⟨next, hstep, hsteps⟩ := bind_eq_ok_iff.mp hsteps
      exact ih (h.next hstep) hsteps

end Happens

/-- The store to the first field is one to the parameter itself, which is nothing but the address
of `f` from then on. -/
theorem parameter_overwritten : ∃ built fn s s' rest, build filling = .ok built ∧
    built.program.function (.ofNat 2) = .ok fn ∧ (.ofNat 5 : ValueId) ∈ fn.params ∧
    built.program.isObject (.ofNat 5) = .ok false ∧
    built.program.inst? (.ofNat 10) =
      .ok (some ⟨.ofNat 2, .store (.ofNat 0) (.ofNat 5), none⟩) ∧
    Happens built.program {} (.ofNat 2) [.ofNat 2] (.within s (.ofNat 10 :: rest)) ∧
    stepAt built.program {} [.ofNat 2] (.ofNat 10) s = .ok s' ∧
    s'.operand built.program (.ofNat 5) ≠ s.operand built.program (.ofNat 5) := by
  obtain ⟨built, fn, hbuilt, hfn, hparam, hobject, hinst, hstart, hsteps⟩ : ∃ built fn,
      build filling = .ok built ∧
      built.program.function (.ofNat 2) = .ok fn ∧ (.ofNat 5 : ValueId) ∈ fn.params ∧
      built.program.isObject (.ofNat 5) = .ok false ∧
      built.program.inst? (.ofNat 10) =
        .ok (some ⟨.ofNat 2, .store (.ofNat 0) (.ofNat 5), none⟩) ∧
      Happens.startsWith built.program (.ofNat 2) ([.ofNat 8, .ofNat 9] ++
        [.ofNat 10, .ofNat 11, .ofNat 12, .ofNat 13, .ofNat 14]) = true ∧
      ([Ident.ofNat 8, .ofNat 9].foldlM (fun s v => stepAt built.program {} [.ofNat 2] v s)
        ∅).toOption.any (fun s => (stepAt built.program {} [.ofNat 2] (.ofNat 10) s).toOption.any
          fun s' => (s.values (.self (.ofNat 5))).contains (.self (.ofNat 5)) &&
            !(s'.values (.self (.ofNat 5))).contains (.self (.ofNat 5))) = true :=
    ⟨_, _, rfl, rfl, by decide, rfl, rfl, by decide +kernel, by decide +kernel⟩
  obtain ⟨s, hs, hsteps⟩ := eq_ok_of_toOption_any hsteps
  obtain ⟨s', hs', hsteps⟩ := eq_ok_of_toOption_any hsteps
  obtain ⟨hbefore, hafter⟩ := Bool.and_eq_true_iff.mp hsteps
  have hfirst := Happens.first_of_startsWith (c := {}) hfn hstart
  refine ⟨built, fn, s, s', _, hbuilt, hfn, hparam, hobject, hinst, hfirst.advance hs, hs', ?_⟩
  intro hsame
  rw [s.operand_of_not_object hobject, s'.operand_of_not_object hobject, Except.ok.injEq] at hsame
  rw [hsame, hbefore] at hafter
  cases hafter

end CallTargets
