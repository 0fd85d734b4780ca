import CallTargets.Proofs.StoreInvariant

/-!
# What instructions do to stores

An instruction that is not a call rewrites entries of values, of memory and of return
values, one after the other, with pointees that they can have.  So it keeps the invariant
of stores and leaves the callees of calls alone.  A call adds its candidates to its
callees before the bodies of the candidates come in.
-/

namespace CallTargets

namespace Store

/-- The second store comes from the first through entries that a store can have, at
locations other than the callees of calls. -/
inductive Rewritten (p : Program) (c : Config) (s : Store) : Store → Prop where
  | refl : Rewritten p c s s
  | set {t : Store} {l : Loc} {e : LocSet} (h : Rewritten p c s t) (he : Entry p c l e)
      (hl : l.role ≠ .callees) : Rewritten p c s (t.set l e)

namespace Rewritten

variable {p : Program} {c : Config} {s t : Store} {l : Loc} {e : LocSet}

theorem wellFormed (h : Rewritten p c s t) (hs : s.WellFormed p c) : t.WellFormed p c := by
  induction h with
  | refl => exact hs
  | set h he hl ih => exact ih.set he

theorem explicit?_callees (h : Rewritten p c s t) (call : ValueId) :
    t.explicit? (.callees call) = s.explicit? (.callees call) := by
  induction h with
  | refl => rfl
  | set h he hl ih =>
      refine (explicit?_set_of_ne ?_ _ _).trans ih
      rintro rfl
      exact hl rfl

theorem extend (h : Rewritten p c s t) (hs : s.WellFormed p c) (he : Entry p c l e)
    (hl : l.role ≠ .callees) : Rewritten p c s (t.extend l e) := by
  refine h.set ?_ hl
  rw [LocSet.union_comm]
  exact he.union (fun x hx => (h.wellFormed hs).stored_mayHold hx)

theorem extend_self (h : Rewritten p c s t) (hs : s.WellFormed p c) (v : ValueId)
    (he : IsReading e) : Rewritten p c s (t.extend (.self v) e) :=
  h.extend hs (he.entry_self v) (by simp [Loc.self])

end Rewritten

end Store

/-! ## Offsets -/

namespace Offset

theorem constant_nonneg {p : Program} {ty : Ty} {indices : List ValueId} {k : Int64}
    (h : constant p ty indices = .ok k) : 0 ≤ k.toInt := by
  obtain ⟨n, -, h⟩ := bind_eq_ok_iff.mp h
  split at h
  · next hn =>
      cases h
      have hlt : n < 2 ^ 63 := by
        unfold offsetMax at hn
        simp only [UInt64.size] at hn
        omega
      rw [Int64.toInt_ofNat_of_lt hlt]
      omega
  · cases h

theorem toInt_add? {a b k : Int64} (h : add? a b = some k) : k.toInt = a.toInt + b.toInt := by
  unfold add? at h
  dsimp only at h
  split at h
  · next hbounds =>
      cases h
      have hmin : Int64.minValue.toInt = -2 ^ 63 := by decide
      have hmax : Int64.maxValue.toInt = 2 ^ 63 - 1 := by decide
      exact Int64.toInt_ofInt_of_le (by omega) (by omega)
  · cases h

end Offset

/-! ## Single instructions -/

namespace Transfer

open Store (Rewritten)

variable {p : Program} {c : Config} {s s' : Store}

theorem phi_rewritten (hs : s.WellFormed p c) {inst : ValueId} {incoming : List ValueId}
    (h : phi p inst incoming s = .ok s') : Rewritten p c s s' := by
  refine foldlM_ok_induction h (Rewritten p c s) .refl (fun t v t' _ ht hstep => ?_)
  obtain ⟨isPtr, -, hstep⟩ := bind_eq_ok_iff.mp hstep
  cases isPtr with
  | false =>
      cases hstep
      exact ht
  | true =>
      obtain ⟨pointees, hpointees, hstep⟩ := bind_eq_ok_iff.mp hstep
      cases hstep
      exact ht.extend_self hs inst ((ht.wellFormed hs).operand hpointees)

theorem load_rewritten (hs : s.WellFormed p c) {inst ptr : ValueId}
    (h : load p inst ptr s = .ok s') : Rewritten p c s s' := by
  obtain ⟨sources, hsources, h⟩ := bind_eq_ok_iff.mp h
  cases h
  have hreading := hs.operand hsources
  refine List.foldlRecOn sources.toList _ .refl (fun t ht source hsource => ?_)
  have htarget := hreading.targets source (by simpa using hsource)
  exact ht.extend_self hs inst ((ht.wellFormed hs).values_isReading htarget)

theorem store_rewritten (hs : s.WellFormed p c) {update : StoreUpdate} {value ptr : ValueId}
    (h : store p update value ptr s = .ok s') : Rewritten p c s s' := by
  obtain ⟨targets, htargets, h⟩ := bind_eq_ok_iff.mp h
  obtain ⟨pointees, hpointees, h⟩ := bind_eq_ok_iff.mp h
  cases h
  refine List.foldlRecOn targets.toList _ .refl (fun t ht target htarget => ?_)
  have htarget := (hs.operand htargets).targets target (by simpa using htarget)
  have hentry := (hs.operand hpointees).entry (c := c) (htarget.isKey p) htarget.role_ne_callees
  split
  · exact ht.set hentry htarget.role_ne_callees
  · exact ht.extend hs hentry htarget.role_ne_callees

theorem forwardOperand_rewritten (hs : s.WellFormed p c) {inst value : ValueId}
    (h : forwardOperand p inst value s = .ok s') : Rewritten p c s s' := by
  obtain ⟨pointees, hpointees, h⟩ := bind_eq_ok_iff.mp h
  cases h
  exact Rewritten.refl.extend_self hs inst (hs.operand hpointees)

theorem shift_rewritten (hs : s.WellFormed p c) {inst base : ValueId} {offset : Int64}
    (hoffset : 0 ≤ offset.toInt) (h : shift p inst base offset s = .ok s') :
    Rewritten p c s s' := by
  obtain ⟨pointees, hpointees, h⟩ := bind_eq_ok_iff.mp h
  have hreading := hs.operand (Failing.ofExcept_eq_ok_iff.mp hpointees)
  refine foldlM_ok_induction h (Rewritten p c s) .refl (fun t pointee t' hpointee ht hstep => ?_)
  split at hstep
  · cases hstep
    exact ht
  · next slot hslot =>
      split at hstep
      · next sum hsum =>
          cases hstep
          -- Neither the slot of the pointee nor the distance is negative.
          have hslot := (hreading.targets pointee (by simpa using hpointee)).slot?_nonneg hslot
          have htarget : (Loc.offset pointee.base sum).IsTarget :=
            .offset _ (by rw [Offset.toInt_add? hsum]; omega)
          have hrole : (Loc.self inst).role ≠ .callees := by simp [Loc.self]
          have hentry := (ht.wellFormed hs).entry_insert ((Loc.IsTarget.self inst).isKey p)
            (.of_target hrole htarget)
          exact ht.set hentry hrole
      · obtain ⟨cause, -, hstep⟩ := bind_eq_ok_iff.mp hstep
        cases hstep

theorem gep_rewritten (hs : s.WellFormed p c) {inst base : ValueId} {elem : Ty}
    {indices : List ValueId} (h : gep p inst base elem indices s = .ok s') :
    Rewritten p c s s' := by
  unfold gep at h
  split at h
  · exact forwardOperand_rewritten hs (Failing.ofExcept_eq_ok_iff.mp h)
  · split at h
    · next hconstant => exact shift_rewritten hs (Offset.constant_nonneg hconstant) h
    · obtain ⟨cause, -, h⟩ := bind_eq_ok_iff.mp h
      cases h
    · cases h
    · cases h

theorem ret_rewritten (htables : p.Tables) (hs : s.WellFormed p c) {v value : ValueId}
    {inst : Inst} (hinst : p.inst? v = .ok (some inst)) (h : ret p v value s = .ok s') :
    Rewritten p c s s' := by
  obtain ⟨owner?, howner, h⟩ := bind_eq_ok_iff.mp h
  cases owner? with
  | none =>
      cases h
      exact .refl
  | some func =>
      obtain ⟨pointees, hpointees, h⟩ := bind_eq_ok_iff.mp h
      obtain ⟨fn, hfn, h⟩ := bind_eq_ok_iff.mp h
      cases h
      have hkey : (Loc.returned fn.value).IsKey p :=
        ⟨by simp [Loc.returned], fun _ => htables.asFunction?_of_owner? hinst howner hfn,
          by simp [Loc.returned]⟩
      have hrole : (Loc.returned fn.value).role ≠ .callees := by simp [Loc.returned]
      exact Rewritten.refl.extend hs ((hs.operand hpointees).entry hkey hrole) hrole

/-- An instruction that is not a call only rewrites entries. -/
theorem plain_rewritten (htables : p.Tables) (hs : s.WellFormed p c) {v : ValueId}
    {inst : Inst} (hinst : p.inst? v = .ok (some inst)) {op : Op}
    (h : plain p c v op s = .ok s') : Rewritten p c s s' := by
  have hguard : ∀ {w : ValueId} {x : Failing Interrupted Store},
      (do if ← (p.isPtr w : Except Fault Bool) then x else return s :
        Failing Interrupted Store) = .ok s' →
      (x = .ok s' → Rewritten p c s s') → Rewritten p c s s' := by
    intro w x h hx
    obtain ⟨isPtr, -, h⟩ := bind_eq_ok_iff.mp h
    cases isPtr with
    | false =>
        cases h
        exact .refl
    | true => exact hx h
  unfold plain at h
  split at h
  · exact hguard h (fun h => phi_rewritten hs (Failing.ofExcept_eq_ok_iff.mp h))
  · exact hguard h (fun h => load_rewritten hs (Failing.ofExcept_eq_ok_iff.mp h))
  · exact hguard h (fun h => store_rewritten hs (Failing.ofExcept_eq_ok_iff.mp h))
  · exact hguard h (fun h => gep_rewritten hs h)
  · exact hguard h (fun h => forwardOperand_rewritten hs (Failing.ofExcept_eq_ok_iff.mp h))
  · exact hguard h (fun h => ret_rewritten htables hs hinst (Failing.ofExcept_eq_ok_iff.mp h))
  · cases h
    exact .refl

end Transfer

/-! ## Calls -/

namespace Call

open Store (Rewritten WellFormed)

variable {p : Program} {c : Config} {s : Store}

theorem mem_addCandidate {pointee : Loc} {found found' : FuncSet}
    (h : addCandidate p c found pointee = .ok found') (f : FuncId) :
    f ∈ found' ↔ f ∈ found ∨
      p.asFunction? pointee.base = .ok (some f) ∧ p.isIntrinsic c f = .ok false := by
  obtain ⟨func?, hfunc?, h⟩ := bind_eq_ok_iff.mp h
  rw [hfunc?]
  cases func? with
  | none =>
      cases h
      simp
  | some g =>
      simp only [Except.ok.injEq, Option.some.injEq]
      obtain ⟨intrinsic, hintrinsic, h⟩ := bind_eq_ok_iff.mp h
      cases intrinsic with
      | true =>
          cases h
          refine ⟨Or.inl, fun hf => hf.resolve_right ?_⟩
          rintro ⟨rfl, hnot⟩
          rw [hintrinsic] at hnot
          cases hnot
      | false =>
          cases h
          rw [Std.ExtTreeSet.mem_insert, Std.LawfulEqOrd.compare_eq_iff_eq]
          constructor
          · rintro (rfl | hf)
            · exact Or.inr ⟨rfl, hintrinsic⟩
            · exact Or.inl hf
          · rintro (hf | ⟨rfl, -⟩)
            · exact Or.inr hf
            · exact Or.inl rfl

theorem mem_foldlM_addCandidate {pointees : List Loc} {found funcs : FuncSet}
    (h : pointees.foldlM (addCandidate p c) found = .ok funcs) (f : FuncId) :
    f ∈ funcs ↔ f ∈ found ∨
      ∃ x ∈ pointees, p.asFunction? x.base = .ok (some f) ∧ p.isIntrinsic c f = .ok false := by
  induction pointees generalizing found with
  | nil =>
      cases h
      simp
  | cons pointee rest ih =>
      rw [List.foldlM_cons] at h
      obtain ⟨found', hfound', h⟩ := bind_eq_ok_iff.mp h
      rw [ih h, mem_addCandidate hfound', or_assoc]
      simp only [List.mem_cons, exists_eq_or_imp]

/-- The candidates of a call are the functions that its callee operand may be, except
for intrinsic ones. -/
theorem mem_candidates {callee : ValueId} {funcs : FuncSet}
    (h : candidates p c s callee = .ok funcs) :
    ∃ pointees, s.operand p callee = .ok pointees ∧ ∀ f, f ∈ funcs ↔
      ∃ x ∈ pointees, p.asFunction? x.base = .ok (some f) ∧ p.isIntrinsic c f = .ok false := by
  obtain ⟨pointees, hpointees, h⟩ := bind_eq_ok_iff.mp h
  refine ⟨pointees, hpointees, fun f => ?_⟩
  rw [mem_foldlM_addCandidate h f]
  simp

theorem recordTargets_wellFormed (htables : p.Tables) (hs : s.WellFormed p c)
    {call callee : ValueId} {inst : Inst} {args : List ValueId} {funcs : FuncSet} {before : Store}
    (hinst : p.inst? call = .ok (some inst)) (hop : inst.op = .call callee args)
    (hfuncs : candidates p c s callee = .ok funcs)
    (h : recordTargets p call s funcs.toList = .ok before) : before.WellFormed p c := by
  obtain ⟨pointees, -, hmem⟩ := mem_candidates hfuncs
  refine foldlM_ok_induction h (WellFormed p c) hs (fun t f t' hf ht hstep => ?_)
  obtain ⟨fn, hfn, hstep⟩ := bind_eq_ok_iff.mp hstep
  cases hstep
  obtain ⟨x, -, hx, hintrinsic⟩ := (hmem f).mp (by simpa using hf)
  obtain ⟨fn', hfn', hvalue⟩ := htables.function_of_asFunction? hx
  rw [hfn] at hfn'
  cases hfn'
  refine ht.insert ⟨by simp [Loc.callees], by simp [Loc.callees], fun _ => ?_⟩
    ⟨.self _, fun _ => ⟨f, rfl, hvalue ▸ hx, hintrinsic⟩⟩
  obtain ⟨block, op, line⟩ := inst
  exact ⟨block, callee, args, line, hop ▸ hinst⟩

theorem bindParams_rewritten {before context : Store} (h : before.WellFormed p c)
    {params args : List ValueId} (hbind : bindParams p before params args = .ok context) :
    Rewritten p c before context := by
  refine foldlM_ok_induction hbind (Rewritten p c before) .refl (fun t pair t' _ ht hstep => ?_)
  obtain ⟨isPtr, -, hstep⟩ := bind_eq_ok_iff.mp hstep
  cases isPtr with
  | false =>
      cases hstep
      exact ht
  | true =>
      obtain ⟨pointees, hpointees, hstep⟩ := bind_eq_ok_iff.mp hstep
      cases hstep
      exact ht.extend_self h pair.1 (h.operand hpointees)

theorem visible_wellFormed {f : FuncId} {summary writes : Store} (hs : summary.WellFormed p c)
    (h : visible p f summary = .ok writes) : writes.WellFormed p c := by
  refine foldlM_ok_induction h (WellFormed p c) .empty
    (fun kept entry kept' hentry hkept hstep => ?_)
  obtain ⟨seen, -, hstep⟩ := bind_eq_ok_iff.mp hstep
  cases seen with
  | false =>
      cases hstep
      exact hkept
  | true =>
      cases hstep
      exact hkept.set (hs entry.1 entry.2 (Store.mem_toList_iff.mp hentry))

/-- What entered callees return and write can be put into a store. -/
structure Effect.IsSound (p : Program) (c : Config) (effect : Effect) : Prop where
  returns : ∀ x ∈ effect.returns, x.IsTarget
  writes : effect.writes.WellFormed p c

theorem IsEffect.isSound {Body : BodySpec} {args : List ValueId} {before : Store} {f : FuncId}
    {effect : Effect}
    (hBody : ∀ f context states, Body f context states → (summarize states).WellFormed p c)
    (h : IsEffect Body p args before f effect) : effect.IsSound p c := by
  obtain ⟨fn, context, states, -, -, -, hbody, hreturns, hwrites⟩ := h
  have hsummary := hBody f context states hbody
  refine ⟨fun x hx => ?_, visible_wellFormed hsummary hwrites⟩
  rw [hreturns] at hx
  exact (hsummary.values_mayHold hx).target

theorem allReturns_targets {effects : List Effect} (h : ∀ effect ∈ effects, effect.IsSound p c) :
    ∀ x ∈ allReturns effects, x.IsTarget := by
  unfold allReturns
  refine List.foldlRecOn (motive := fun all : LocSet => ∀ x ∈ all, x.IsTarget) effects _
    (by simp) (fun all hall effect heffect x hx => ?_)
  rcases Std.ExtTreeSet.mem_union_iff.mp hx with hx | hx
  · exact hall x hx
  · exact (h effect heffect).returns x hx

theorem allWrites_wellFormed {effects : List Effect}
    (h : ∀ effect ∈ effects, effect.IsSound p c) : (allWrites effects).WellFormed p c :=
  List.foldlRecOn effects _ .empty (fun _ hall effect heffect =>
    hall.absorb (h effect heffect).writes)

theorem splice_wellFormed {call : ValueId} {isPtr : Bool} {before : Store}
    {effects : List Effect} (hbefore : before.WellFormed p c)
    (heffects : ∀ effect ∈ effects, effect.IsSound p c) :
    (splice call isPtr before effects).WellFormed p c := by
  have hwrites := allWrites_wellFormed heffects
  unfold splice
  refine List.foldlRecOn (allWrites effects).toList _ ?_ (fun t ht entry hentry => ?_)
  · cases isPtr with
    | false => simpa using hbefore
    | true =>
        simp only [if_true]
        split
        · exact hbefore
        · next hsome =>
            have hreading : Store.IsReading (allReturns effects) := by
              refine ⟨?_, allReturns_targets heffects⟩
              by_contra hnone
              exact hsome (Std.ExtTreeSet.isEmpty_iff.mpr
                (Std.ExtTreeSet.eq_empty_iff_forall_not_mem.mpr (fun x hx => hnone ⟨x, hx⟩)))
            exact hbefore.extend (hreading.entry_self call)
  · have he := hwrites entry.1 entry.2 (Store.mem_toList_iff.mp hentry)
    dsimp only
    split
    · exact ht.set he
    · exact ht.set (he.union (fun x hx => hbefore.values_mayHold hx))

/-- The bodies of callees give well-formed states. -/
abbrev WellFormedBody (p : Program) (c : Config) : BodySpec :=
  fun _ _ states => StatesHold (WellFormed p c) states

theorem Result.wellFormed (htables : p.Tables) (hs : s.WellFormed p c) {Body : BodySpec}
    {call callee : ValueId} {inst : Inst} {args : List ValueId} {s' : Store}
    (hinst : p.inst? call = .ok (some inst)) (hop : inst.op = .call callee args)
    (hBody : ∀ f context states, Body f context states → (summarize states).WellFormed p c)
    (h : Result Body p c call callee args s s') : s'.WellFormed p c := by
  cases h with
  | unresolved => exact hs
  | resolved hfuncs hbefore heffects =>
      refine splice_wellFormed (recordTargets_wellFormed htables hs hinst hop hfuncs hbefore) ?_
      intro effect heffect
      obtain ⟨f, -, hIs⟩ := heffects effect heffect
      exact hIs.isSound hBody

end Call

/-! ## Bodies and roots -/

section Bodies

open Store (WellFormed)

variable {p : Program} {c : Config} {path : List FuncId} {enter : Entering}

theorem enterable_of_keeps
    (h : ∀ f context, context.WellFormed p c → Halting.Keeps
      (Session.Remembers (WellFormed p c) path) (StatesHold (WellFormed p c)) (enter f context)) :
    Call.Enterable (WellFormed p c) (Call.WellFormedBody p c) p path enter where
  body f _ context _ _ hcontext := h f context hcontext
  summary _ _ _ hstates := summarize_wellFormed hstates
  bind _ _ _ _ hbefore hbind := (Call.bindParams_rewritten hbefore hbind).wellFormed hbefore

theorem transferInst_keeps (htables : p.Tables)
    (henter : Call.Enterable (WellFormed p c) (Call.WellFormedBody p c) p path enter)
    (inst : ValueId) {s : Store} (hs : s.WellFormed p c) :
    Halting.Keeps (Session.Remembers (WellFormed p c) path) (WellFormed p c)
      (transferInst p c enter inst s) := by
  refine Halting.Keeps.ofExcept_bind (fun inst? hinst => ?_)
  split
  · exact Halting.Keeps.pure hs
  · refine (Call.transfer_keeps henter inst _ _ ?_).imp ?_
    · intro funcs before hfuncs hbefore
      exact Call.recordTargets_wellFormed htables hs hinst rfl hfuncs hbefore
    · intro s' h
      exact h.wellFormed htables hs hinst rfl (fun _ _ _ hstates => summarize_wellFormed hstates)
  · exact Halting.Keeps.ofFailing
      (fun s' h => (Transfer.plain_rewritten htables hs hinst h).wellFormed hs)

theorem storeVisitor_keeps (htables : p.Tables)
    (henter : Call.Enterable (WellFormed p c) (Call.WellFormedBody p c) p path enter) :
    (storeVisitor p c enter).Keeps (Session.Remembers (WellFormed p c) path)
      (WellFormed p c) where
  merge _ _ ha hb := ha.join hb
  noteMerge _ _ _ h := h
  transfer inst _ hs := (transferInst_keeps htables henter inst hs).mapFailure

/-- At every depth of nested calls, bodies that start from a well-formed store have
well-formed states. -/
theorem analyzeBody_keeps (htables : p.Tables) (height depth : Nat) (path : List FuncId)
    (f : FuncId) {init : Store} (hinit : init.WellFormed p c) :
    Halting.Keeps (Session.Remembers (WellFormed p c) path) (StatesHold (WellFormed p c))
      (analyzeBody p c height depth f init) := by
  induction depth generalizing path f init with
  | zero => exact Halting.Keeps.throw _
  | succ depth ih =>
      have henter := enterable_of_keeps (fun f' context hcontext => ih (f :: path) f' hcontext)
      exact Analysis.within_keeps
        ((storeVisitor_keeps htables henter).forward p f height hinit)

theorem enterBody_enterable (htables : p.Tables) (path : List FuncId) :
    Call.Enterable (WellFormed p c) (Call.WellFormedBody p c) p path (enterBody p c) :=
  enterable_of_keeps (fun f _ hcontext => analyzeBody_keeps htables _ _ path f hcontext)

theorem run_keeps (htables : p.Tables) (f : FuncId) :
    Halting.Keeps (Session.Remembers (WellFormed p c) [])
      (fun r => StatesHold (WellFormed p c) r.states ∧ r.summary.WellFormed p c)
      (run p c f) := by
  refine Halting.Keeps.ofExcept_bind (fun fn _ => ?_)
  refine Halting.Keeps.bind (Analysis.note_keeps (by simp [Note.stores])) (fun _ _ => ?_)
  refine Halting.Keeps.bind (analyzeBody_keeps htables _ _ [] f .empty) (fun states hstates => ?_)
  refine Halting.Keeps.ofExcept_bind (fun edges _ => Halting.Keeps.pure ?_)
  exact ⟨hstates, summarize_wellFormed hstates⟩

end Bodies

end CallTargets
