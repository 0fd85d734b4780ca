import CallTargets.Proofs.CutoffOrigin
import CallTargets.Proofs.OperandFlow
import CallTargets.Proofs.PointeeLaws

/-!
# No target without an address taken

Pointees other than default ones come into a store through the operands of instructions.
So the base of each of them is an operand somewhere in the program, whatever joins, slots,
parameters and returns it went through.  A function that is reported as a callee therefore
has its address taken, and the same goes for the callees of edges that were cut off.
-/

namespace CallTargets

/-! ## Operands -/

/-- A pointer can get into some instruction through the value; at a phi only pointers count. -/
def Program.IsOperand (p : Program) (v : ValueId) : Prop :=
  ∃ user inst, p.inst? user = .ok (some inst) ∧ v ∈ inst.op.pointers ∧
    ∀ incoming, inst.op = .phi incoming → p.isPtr user = .ok true ∧ p.isPtr v = .ok true

theorem Program.IsOperand.of_mem {p : Program} {user v : ValueId} {inst : Inst}
    (hinst : p.inst? user = .ok (some inst)) (hv : v ∈ inst.op.pointers)
    (hphi : ∀ incoming, inst.op ≠ .phi incoming) : p.IsOperand v :=
  ⟨user, inst, hinst, hv, fun incoming hop => absurd hop (hphi incoming)⟩

/-! ## The law of operands -/

/-- A pointee other than the default one is based at an operand. -/
def OperandLaw (p : Program) (l x : Loc) : Prop := l.default? = some x ∨ p.IsOperand x.base

variable {p : Program} {c : Config} {s s' : Store}

namespace OperandLaw

theorem base_of_mem_values (hs : s.Obeys (OperandLaw p)) {l x : Loc} (hl : p.IsOperand l.base)
    (hx : x ∈ s.values l) : p.IsOperand x.base := by
  rcases hs.values (fun _ _ h => Or.inl h) hx with hdefault | hoperand
  · rwa [Loc.base_of_default? hdefault]
  · exact hoperand

theorem base_of_mem_operand (hs : s.Obeys (OperandLaw p)) {v : ValueId} {e : LocSet} {x : Loc}
    (hv : p.IsOperand v) (he : s.operand p v = .ok e) (hx : x ∈ e) : p.IsOperand x.base := by
  obtain ⟨isObject, -, he⟩ := bind_eq_ok_iff.mp he
  cases isObject with
  | true =>
      cases he
      rw [mem_insert_empty_iff.mp hx]
      exact hv
  | false =>
      cases he
      have hself : p.IsOperand (Loc.self v).base := hv
      exact base_of_mem_values hs hself hx

theorem extend (hs : s.Obeys (OperandLaw p)) (l : Loc) {e : LocSet}
    (he : ∀ x ∈ e, p.IsOperand x.base) : (s.extend l e).Obeys (OperandLaw p) :=
  Store.Obeys.extend hs (fun x hx => Or.inr (he x hx))

theorem flow {v : ValueId} {inst : Inst} (hinst : p.inst? v = .ok (some inst)) :
    Transfer.Flow p v inst.op (Store.Obeys (OperandLaw p)) (fun x => p.IsOperand x.base) where
  operand hs hw hphi he _ hx := base_of_mem_operand hs ⟨v, inst, hinst, hw, hphi⟩ he hx
  values hs hl _ hx := base_of_mem_values hs hl hx
  -- Slots move, bases do not.
  offset k hl := (Loc.base_offset _ k).symm ▸ hl
  result hs he := extend hs _ he
  returned _ hs he := extend hs _ he
  overwrite hs _ he := hs.set (fun x hx => Or.inr (he x hx))
  add hs _ he := extend hs _ he

end OperandLaw

theorem operandLaw (htables : p.Tables) (c : Config) : PointeeLaw p c (OperandLaw p) where
  default l x h := Or.inl h
  plain hinst hs h := (OperandLaw.flow hinst).plain hs.obeys h
  record {call inst callee args s funcs before} hinst hop hs hfuncs h := by
    have hcallee : p.IsOperand callee :=
      .of_mem hinst (by simp [hop, Op.pointers]) (by simp [hop])
    obtain ⟨pointees, hpointees, hmem⟩ := Call.mem_candidates hfuncs
    apply foldlM_ok_induction h _ hs.obeys
    intro t g t' hg ht hstep
    obtain ⟨fn, hfn, hstep⟩ := bind_eq_ok_iff.mp hstep
    cases hstep
    obtain ⟨x, hx, hxg, -⟩ := (hmem g).mp (by simpa using hg)
    obtain ⟨fn', hfn', hvalue⟩ := htables.function_of_asFunction? hxg
    rw [hfn] at hfn'
    cases hfn'
    have hbase : p.IsOperand fn.value :=
      hvalue ▸ OperandLaw.base_of_mem_operand hs.obeys hcallee hpointees hx
    exact ht.insert (Or.inr hbase)
  bind {call inst callee args before params context} hinst hop hs h := by
    apply foldlM_ok_induction h _ hs.obeys
    rintro t ⟨param, arg⟩ t' hpair ht hstep
    obtain ⟨isPtr, -, hstep⟩ := bind_eq_ok_iff.mp hstep
    cases isPtr with
    | false =>
        cases hstep
        exact ht
    | true =>
        obtain ⟨pointees, hpointees, hstep⟩ := bind_eq_ok_iff.mp hstep
        cases hstep
        have harg : p.IsOperand arg := by
          refine .of_mem hinst ?_ (by simp [hop])
          simp [hop, Op.pointers, (List.of_mem_zip hpair).2]
        apply OperandLaw.extend ht
        exact fun x hx => OperandLaw.base_of_mem_operand hs.obeys harg hpointees hx
  result h := by
    rcases h with h | h
    · cases h
    · exact Or.inr h

/-! ## Callees -/

/-- A call instruction. -/
def Program.IsCall (p : Program) (call : ValueId) : Prop :=
  ∃ inst callee args, p.inst? call = .ok (some inst) ∧ inst.op = .call callee args

/-- A function whose name does not mark it as intrinsic and whose value is an operand. -/
def Program.AddressTaken (p : Program) (c : Config) (f : FuncId) : Prop :=
  ∃ fn, p.function f = .ok fn ∧ p.asFunction? fn.value = .ok (some f) ∧
    ¬ c.intrinsicStem.toList <+: fn.name.toList ∧ p.IsOperand fn.value

theorem not_isPrefix_of_isIntrinsic {f : FuncId} {fn : Function} (hfn : p.function f = .ok fn)
    (h : p.isIntrinsic c f = .ok false) : ¬ c.intrinsicStem.toList <+: fn.name.toList := by
  have hname : c.marksIntrinsic fn.name = false := by
    simpa [Program.isIntrinsic, hfn, bind, Except.bind, pure, Except.pure] using h
  rw [← List.isPrefixOf_iff_prefix, ← Config.marksIntrinsic, hname]
  simp

/-- What a store that obeys the law records for a call. -/
theorem Edges.Records.addressTaken (htables : p.Tables) (hs : s.Lawful p c (OperandLaw p))
    {call : ValueId} {f : FuncId} (h : Edges.Records p s call f) :
    p.IsCall call ∧ p.AddressTaken c f := by
  obtain ⟨x, hx, hxf⟩ := h
  obtain ⟨e, he⟩ : ∃ e, s.explicit? (.callees call) = some e := by
    cases hs : s.explicit? (.callees call) with
    | none => simp [Store.stored, hs] at hx
    | some e => exact ⟨e, rfl⟩
  obtain ⟨block, callee, args, line, hinst⟩ := (hs.wellFormed _ e he).key.callees_base rfl
  obtain ⟨g, -, hxg, hintrinsic⟩ := (hs.wellFormed.stored_mayHold hx).callee rfl
  rw [hxf] at hxg
  cases hxg
  obtain ⟨fn, hfn, hvalue⟩ := htables.function_of_asFunction? hxf
  have hoperand : p.IsOperand x.base := by
    rcases hs.obeys _ x hx with hdefault | hoperand
    · cases hdefault
    · exact hoperand
  refine ⟨⟨_, callee, args, hinst, rfl⟩, fn, hfn, hvalue ▸ hxf, ?_, hvalue ▸ hoperand⟩
  exact not_isPrefix_of_isIntrinsic hfn hintrinsic

theorem Happens.records (htables : p.Tables) {root f : FuncId} {path : List FuncId}
    {call : ValueId} {args : List ValueId} {funcs : List FuncId} {before : Store}
    (h : Happens p c root path (.calling call args funcs before)) (hf : f ∈ funcs) :
    Edges.Records p before call f := by
  cases h with
  | call h hinst hop hfuncs hbefore =>
      obtain ⟨pointees, -, hmem⟩ := Call.mem_candidates hfuncs
      obtain ⟨x, -, hxf, -⟩ := (hmem f).mp (by simpa using hf)
      obtain ⟨fn, hfn, hvalue⟩ := htables.function_of_asFunction? hxf
      refine ⟨.self fn.value, Call.recordTargets_mem hbefore hf hfn, ?_⟩
      rw [show (Loc.self fn.value).base = x.base from hvalue]
      exact hxf

/-- In programs that were built step by step, the results of a successful analysis name
calls only, and as their callees, also where an edge was cut off, functions only that are
not intrinsic and whose address is taken by some instruction. -/
theorem callees_address_taken {steps : List Step} {built : Built}
    (hbuilt : build steps = .ok built) {c : Config} {res : Results}
    (hres : (analyze built.program c).outcome {} = .ok res) :
    (∀ call f, res.targets.Lists call f →
      built.program.IsCall call ∧ built.program.AddressTaken c f) ∧
    (∀ site f, res.sites.Lists site f → ∃ call, Edges.siteOf built.program call = .ok site ∧
      built.program.IsCall call ∧ built.program.AddressTaken c f) ∧
    ∀ k ∈ res.cutoffs, built.program.IsCall k.call ∧ built.program.AddressTaken c k.callee := by
  have htables := tables_of_build hbuilt
  have hlaw := operandLaw htables c
  obtain ⟨hcombine, -⟩ := analyze_eq_ok hres
  refine ⟨fun call f h => ?_, fun site f h => ?_, fun k hk => ?_⟩
  · obtain ⟨_, ⟨root, r, -, hr, rfl⟩, hlists⟩ := (hcombine.targets.callees call f).mp h
    have hrecords := (Edges.faithful_of_freshRun hr).target call f hlists
    exact hrecords.addressTaken htables (freshRun_summary_lawful hlaw htables hr)
  · obtain ⟨_, ⟨root, r, -, hr, rfl⟩, hlists⟩ := (hcombine.sites.callees site f).mp h
    obtain ⟨call, hsite, hrecords⟩ := (Edges.faithful_of_freshRun hr).site site f hlists
    exact ⟨call, hsite, hrecords.addressTaken htables (freshRun_summary_lawful hlaw htables hr)⟩
  · obtain ⟨root, -, hcut⟩ := (hcombine.cutoffs k).mp hk
    obtain ⟨path, args, funcs, before, fn, hcalling, hcallee, -⟩ :=
      arises_of_mem_freshCutoffs hcut
    have hbefore := hcalling.lawful hlaw htables
    exact (hcalling.records htables hcallee).addressTaken htables hbefore

/-- A function that puts itself into memory and calls what it finds there. -/
def returning : List Step :=
  [.define "again" [] .void, .alloca "slot" .ptr, .store (.ofNat 0) (.ofNat 1),
    .load "fp" .ptr (.ofNat 1), .call "" .void (.ofNat 3) [], .ret none]

theorem callees_address_taken_returning : ∃ built res, build returning = .ok built ∧
    (analyze built.program {}).outcome {} = .ok res ∧
    res.targets.Lists (.ofNat 4) (.ofNat 0) ∧
    ⟨.ofNat 4, .ofNat 0, .recursive⟩ ∈ res.cutoffs ∧
    built.program.IsCall (.ofNat 4) ∧ built.program.AddressTaken {} (.ofNat 0) := by
  let found : Results → Bool := fun res =>
    (res.targets.get? (.ofNat 4)).any (fun callees => callees.contains (.ofNat 0)) &&
      res.cutoffs.contains ⟨.ofNat 4, .ofNat 0, .recursive⟩
  obtain ⟨built, hbuilt, hanalyze⟩ : ∃ built, build returning = .ok built ∧
      ((analyze built.program {}).outcome {}).toOption.any found = true :=
    ⟨_, rfl, by decide +kernel⟩
  obtain ⟨res, session', hres, hfound⟩ := Halting.eq_ok_of_outcome_any hanalyze
  obtain ⟨htargets, hcut⟩ := Bool.and_eq_true_iff.mp hfound
  obtain ⟨callees, hcallees, hmem⟩ := (Option.any_eq_true _ _).mp htargets
  have houtcome := Halting.outcome_eq_ok_iff.mpr ⟨session', hres⟩
  have hlists : res.targets.Lists (.ofNat 4) (.ofNat 0) := ⟨callees, hcallees, hmem⟩
  obtain ⟨hcall, htaken⟩ := (callees_address_taken hbuilt houtcome).1 _ _ hlists
  exact ⟨built, res, hbuilt, houtcome, hlists, hcut, hcall, htaken⟩

end CallTargets
