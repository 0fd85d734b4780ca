import CallTargets.Proofs.PointeeLaws

/-!
# Direct calls are resolved exactly

The callee operand of a direct call is a function value, and such an operand points to
nothing but itself in whatever store.  So the call records that function whenever its block
is visited, and no instruction in any context ever records another one for it.
-/

namespace CallTargets

/-! ## Blocks that are visited -/

theorem Solution.visited {E D : Type} {p : Program} {func : FuncId} {fn : Function}
    {merge : D → D → D} {transfer : ValueId → D → Except E D} {init : D}
    {states : BlockStates D} (h : Solution p func merge transfer init states)
    (hfn : p.function func = .ok fn) {b : BlockId} (hb : p.Reaches fn b) :
    ∃ state, states[b]? = some state := by
  induction hb with
  | entry hentry =>
      obtain ⟨state, hstate, -⟩ := h.entry fn _ hfn hentry
      exact ⟨state, hstate⟩
  | @branch a b succs _ ha hsuccs hb ih =>
      obtain ⟨state, hstate⟩ := ih
      obtain ⟨succs', hsuccs', hedge⟩ := h.edge fn hfn a ha state hstate
      rw [hsuccs] at hsuccs'
      cases hsuccs'
      obtain ⟨target, htarget, -⟩ := hedge b hb
      exact ⟨target, htarget⟩

/-! ## The law of direct calls -/

/-- A call whose callee operand is the value of the function `f`. -/
def Program.CallsDirectly (p : Program) (call : ValueId) (f : FuncId) : Prop :=
  ∃ inst callee args, p.inst? call = .ok (some inst) ∧ inst.op = .call callee args ∧
    p.asFunction? callee = .ok (some f)

/-- What a direct call records is the function that it calls. -/
def DirectLaw (p : Program) (l x : Loc) : Prop :=
  ∀ call f, l = .callees call → p.CallsDirectly call f → p.asFunction? x.base = .ok (some f)

variable {p : Program} {c : Config}

/-- An operand that is a function points to nothing but itself. -/
theorem Store.operand_of_asFunction? (s : Store) {v : ValueId} {f : FuncId}
    (h : p.asFunction? v = .ok (some f)) :
    s.operand p v = .ok ((∅ : LocSet).insert (.self v)) := by
  obtain ⟨value, hvalue, hkind⟩ := Program.value_kind_of_asFunction? h
  refine s.operand_of_object (bind_eq_ok_iff.mpr ⟨value, fetch_eq_ok_iff.mpr hvalue, ?_⟩)
  rw [hkind]
  rfl

theorem Call.eq_of_mem_candidates {s : Store} {callee : ValueId} {f g : FuncId}
    {funcs : FuncSet} (hf : p.asFunction? callee = .ok (some f))
    (hfuncs : candidates p c s callee = .ok funcs) (hg : g ∈ funcs) : g = f := by
  obtain ⟨pointees, hpointees, hmem⟩ := mem_candidates hfuncs
  rw [s.operand_of_asFunction? hf] at hpointees
  cases hpointees
  obtain ⟨x, hx, hxg, -⟩ := (hmem g).mp hg
  have hself : x = .self callee := mem_insert_empty_iff.mp hx
  rw [hself, show (Loc.self callee).base = callee from rfl, hf] at hxg
  cases hxg
  rfl

theorem directLaw_of_rewritten {s t : Store} (hs : s.Obeys (DirectLaw p))
    (h : Store.Rewritten p c s t) : t.Obeys (DirectLaw p) := by
  rintro _ x hx call f rfl hf
  rw [Store.stored, h.explicit?_callees] at hx
  exact hs (.callees call) x hx call f rfl hf

theorem directLaw (htables : p.Tables) (c : Config) : PointeeLaw p c (DirectLaw p) where
  default := by
    rintro _ x h call f rfl
    cases h
  plain hinst hs h :=
    directLaw_of_rewritten hs.obeys (Transfer.plain_rewritten htables hs.wellFormed hinst h)
  record {call inst callee args s funcs before} hinst hop hs hfuncs h := by
    apply foldlM_ok_induction h (Store.Obeys (DirectLaw p)) hs.obeys
    intro t g t' hg ht hstep
    obtain ⟨fn, hfn, hstep⟩ := bind_eq_ok_iff.mp hstep
    cases hstep
    apply ht.insert
    rintro call' f hcall ⟨inst', callee', args', hinst', hop', hf⟩
    cases hcall
    rw [hinst] at hinst'
    cases hinst'
    rw [hop] at hop'
    cases hop'
    -- The only candidate is the function at the callee operand.
    have hgf : g = f := Call.eq_of_mem_candidates hf hfuncs (by simpa using hg)
    obtain ⟨fn', hfn', hvalue⟩ := htables.function_of_asFunction? hf
    rw [← hgf, hfn] at hfn'
    cases hfn'
    rw [show (Loc.self fn.value).base = callee from hvalue]
    exact hf
  bind _ _ hs h := directLaw_of_rewritten hs.obeys (Call.bindParams_rewritten hs.wellFormed h)
  result _ _ _ heq := by
    cases heq

/-! ## Direct calls in reachable blocks -/

theorem freshRun_lists_direct (htables : p.Tables) {root f : FuncId} {r : RootResult}
    (h : freshRun p c root = .ok r) {fn : Function} (hfn : p.function root = .ok fn)
    {b : BlockId} {block : Block} {call : ValueId} (hb : p.Reaches fn b)
    (hblock : p.block b = .ok block) (hcall : call ∈ block.insts.toList)
    (hf : p.CallsDirectly call f) (hintrinsic : p.isIntrinsic c f = .ok false) :
    r.edges.targets.Lists call f := by
  obtain ⟨session', hrun⟩ := Halting.outcome_eq_ok_iff.mp h
  obtain ⟨-, -, -, hsummary, hedges⟩ := runBy_eq_ok hrun
  obtain ⟨-, -, hplain⟩ := plainForward_of_run rfl hrun
  have hpath : IsPath p [root] := (IsPath.nil p).cons hfn (by simp)
  have hstates := ((run_keeps htables root).of_eq_ok (.fresh _ []) hrun).1
  have hsolution := solution_of_plainForward hplain
  obtain ⟨state, hstate⟩ := hsolution.visited hfn hb
  obtain ⟨pre, post, hinsts⟩ := List.append_of_mem hcall
  obtain ⟨s, s', hs, hs', hexit⟩ := hsolution.split_block hstate hblock hinsts
  have hwf := foldlM_stepAt_wellFormed htables (hstates b state hstate).1 hs
  obtain ⟨inst, callee, args, hinst, hop, hcallee⟩ := hf
  obtain ⟨pointees, hpointees, hrecorded⟩ := stepAt_records htables hpath hwf hinst hop hs'
  rw [s.operand_of_asFunction? hcallee] at hpointees
  cases hpointees
  have hstored : .self callee ∈ s'.stored (.callees call) :=
    hrecorded (.self callee) (by simp) f hcallee hintrinsic
  -- What the call has recorded is still there at the exit of its block.
  have hkept := foldlM_stepAt_grows htables
    (fun _ _ _ ht hstep => stepAt_grows htables hpath ht hstep)
    (stepAt_wellFormed htables hwf hs') hexit
  have hgrows : Store.Grows s' r.summary := hsummary ▸ hkept.trans (.exit_summarize hstate)
  obtain ⟨site, hsite⟩ := Edges.siteOf_of_inst? hinst
  exact (Edges.hold_of_stored hedges hsite (hgrows call _ hstored) hcallee).target

theorem freshRun_lists_only_direct (htables : p.Tables) {root f g : FuncId} {r : RootResult}
    (h : freshRun p c root = .ok r) {call : ValueId} (hf : p.CallsDirectly call f)
    (hg : r.edges.targets.Lists call g) : g = f := by
  obtain ⟨x, hx, hxg⟩ := (Edges.faithful_of_freshRun h).target call g hg
  have hlawful := freshRun_summary_lawful (directLaw htables c) htables h
  have hxf := hlawful.obeys (.callees call) x hx call f rfl hf
  rw [hxf] at hxg
  cases hxg
  rfl

/-- In programs that were built step by step, a successful analysis resolves every direct
call of a function that is not intrinsic to exactly that function, provided that the call
stands in a block that control can get to within some root. -/
theorem direct_calls_exact {steps : List Step} {built : Built}
    (hbuilt : build steps = .ok built) {c : Config} {res : Results}
    (hres : (analyze built.program c).outcome {} = .ok res)
    {root f : FuncId} {fn : Function} {b : BlockId} {block : Block} {call : ValueId}
    (hroot : IsRoot built.program c root) (hfn : built.program.function root = .ok fn)
    (hb : built.program.Reaches fn b) (hblock : built.program.block b = .ok block)
    (hcall : call ∈ block.insts.toList) (hf : built.program.CallsDirectly call f)
    (hintrinsic : built.program.isIntrinsic c f = .ok false) :
    res.targets? call = some ((∅ : FuncSet).insert f) := by
  have htables := tables_of_build hbuilt
  obtain ⟨hcombine, hall⟩ := analyze_eq_ok hres
  obtain ⟨r, hr⟩ := hall root hroot
  have hlisted : res.targets.Lists call f := (hcombine.targets.callees call f).mpr
    ⟨r.edges.targets, ⟨root, r, hroot, hr, rfl⟩,
      freshRun_lists_direct htables hr hfn hb hblock hcall hf hintrinsic⟩
  obtain ⟨callees, hcallees, hmem⟩ := hlisted
  have honly : ∀ g ∈ callees, g = f := by
    intro g hg
    obtain ⟨_, ⟨root', r', -, hr', rfl⟩, hlists⟩ :=
      (hcombine.targets.callees call g).mp ⟨callees, hcallees, hg⟩
    exact freshRun_lists_only_direct htables hr' hf hlists
  have hset : callees = (∅ : FuncSet).insert f := by
    apply Std.ExtTreeSet.ext_mem
    intro g
    rw [mem_insert_empty_iff]
    constructor
    · exact honly g
    · rintro rfl
      exact hmem
  exact hset ▸ hcallees

/-- A function that stores another one through its parameter and then, in a second block,
calls itself with the other one as argument. -/
def descending : List Step :=
  [.define "other" [] .void, .ret none, .define "down" [.ptr] .void, .block (.ofNat 1) "again",
    .br (.ofNat 2), .positionAtEnd (.ofNat 2), .store (.ofNat 0) (.ofNat 3),
    .call "" .void (.ofNat 2) [.ofNat 0], .ret none]

theorem direct_calls_exact_descending : ∃ built res, build descending = .ok built ∧
    (analyze built.program {}).outcome {} = .ok res ∧
    ⟨.ofNat 6, .ofNat 1, .recursive⟩ ∈ res.cutoffs ∧
    res.targets? (.ofNat 6) = some ((∅ : FuncSet).insert (.ofNat 1)) := by
  let cuts : Results → Bool := fun res =>
    res.cutoffs.contains ⟨.ofNat 6, .ofNat 1, .recursive⟩
  obtain ⟨built, fn, block, inst, hbuilt, hanalyze, hfn, hbody, hname, hentry, hmem, hsuccs, hblock,
      hcall, hinst, hop, hcallee, hintrinsic⟩ :
      ∃ built fn block inst, build descending = .ok built ∧
      ((analyze built.program {}).outcome {}).toOption.any cuts = true ∧
      built.program.function (.ofNat 1) = .ok fn ∧ fn.isDeclaration = false ∧
      Config.marksIntrinsic {} fn.name = false ∧ fn.entryBlock? = some (.ofNat 1) ∧
      .ofNat 1 ∈ fn.blocks ∧ built.program.successors (.ofNat 1) = .ok [.ofNat 2] ∧
      built.program.block (.ofNat 2) = .ok block ∧ .ofNat 6 ∈ block.insts.toList ∧
      built.program.inst? (.ofNat 6) = .ok (some inst) ∧ inst.op = .call (.ofNat 2) [.ofNat 0] ∧
      built.program.asFunction? (.ofNat 2) = .ok (some (.ofNat 1)) ∧
      built.program.isIntrinsic {} (.ofNat 1) = .ok false :=
    ⟨_, _, _, _, rfl, by decide +kernel, rfl, rfl, by decide, rfl, by decide, rfl, rfl,
      by decide, rfl, rfl, rfl, by rfl⟩
  obtain ⟨res, session', hres, hcut⟩ := Halting.eq_ok_of_outcome_any hanalyze
  have houtcome := Halting.outcome_eq_ok_iff.mpr ⟨session', hres⟩
  have hreach : built.program.Reaches fn (.ofNat 2) :=
    .branch (.entry hentry) hmem hsuccs (by simp)
  have htargets := direct_calls_exact hbuilt houtcome ⟨fn, hfn, hbody, hname⟩ hfn hreach hblock
    hcall ⟨inst, _, _, hinst, hop, hcallee⟩ hintrinsic
  exact ⟨built, res, hbuilt, houtcome, hcut, htargets⟩

end CallTargets
