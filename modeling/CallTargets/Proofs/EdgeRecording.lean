import CallTargets.Proofs.Occurrence

/-!
# No resolved edge is lost

The callees that a store records for a call are never given up again.  Instructions other
than calls do not touch them, a call adds to its own, and joins, contexts and summaries
hold whatever their parts hold.  The one place where entries are replaced is the return
of callees: there each entered callee has started from the callees recorded before, so it
writes back at least those.  What is resolved at a call therefore reaches the summary of
the root, and from there the tables of edges.
-/

namespace CallTargets

namespace Store

/-- Whatever the first store records as callees, the second records too. -/
def Grows (s t : Store) : Prop :=
  ∀ call x, x ∈ s.stored (.callees call) → x ∈ t.stored (.callees call)

theorem values_callees (s : Store) (call : ValueId) :
    s.values (.callees call) = s.stored (.callees call) := rfl

namespace Grows

variable {p : Program} {c : Config} {s t u : Store}

theorem refl (s : Store) : Grows s s := fun _ _ hx => hx

theorem trans (hst : Grows s t) (htu : Grows t u) : Grows s u :=
  fun call x hx => htu call x (hst call x hx)

theorem of_rewritten (h : Rewritten p c s t) : Grows s t := by
  intro call x hx
  rwa [stored, h.explicit?_callees]

theorem of_join_eq (h : s.join t = s) : Grows t s := by
  intro call x hx
  rw [← values_callees] at hx ⊢
  rw [← h, values_join]
  exact Std.ExtTreeSet.mem_union_iff.mpr (Or.inr hx)

theorem exit_summarize {states : BlockStates Store} {b : BlockId} {state : BlockState Store}
    (h : states[b]? = some state) : Grows state.exit (summarize states) := by
  intro call x hx
  have hmem : (b, state) ∈ states.toList :=
    Std.ExtTreeMap.mem_toList_iff_getElem?_eq_some.mpr h
  have hsummary := mem_stored_foldl_absorb (fun entry : BlockId × BlockState Store => entry.2.exit)
    states.toList ∅ (.callees call) x
  exact hsummary.mpr (Or.inr ⟨(b, state), hmem, hx⟩)

end Grows

end Store

/-! ## Calls -/

namespace Call

open Store (Grows WellFormed)

variable {p : Program} {c : Config} {s : Store}

theorem mem_stored_insert (t : Store) (l k x : Loc) :
    x ∈ (t.insert l k).stored l ↔ x = k ∨ x ∈ t.stored l := by
  rw [Store.stored, Store.explicit?_insert_self, Option.getD_some, Std.ExtTreeSet.mem_insert,
    Std.LawfulEqOrd.compare_eq_iff_eq, eq_comm]
  rfl

theorem grows_insert (t : Store) (call : ValueId) (k : Loc) :
    Grows t (t.insert (.callees call) k) := by
  intro call' x hx
  by_cases h : Loc.callees call = Loc.callees call'
  · rw [← h] at hx ⊢
    exact (mem_stored_insert t _ k x).mpr (Or.inr hx)
  · rwa [Store.stored, Store.explicit?_insert_of_ne h]

theorem recordTargets_grows {call : ValueId} {funcs : List FuncId} {before : Store}
    (h : recordTargets p call s funcs = .ok before) : Grows s before := by
  refine foldlM_ok_induction h (Grows s) (.refl s) (fun t f t' _ ht hstep => ?_)
  obtain ⟨fn, -, hstep⟩ := bind_eq_ok_iff.mp hstep
  cases hstep
  exact ht.trans (grows_insert t call _)

theorem recordTargets_mem {call : ValueId} {funcs : List FuncId} {before : Store} {f : FuncId}
    {fn : Function} (h : recordTargets p call s funcs = .ok before) (hf : f ∈ funcs)
    (hfn : p.function f = .ok fn) :
    Loc.self fn.value ∈ before.stored (.callees call) := by
  refine foldlM_ok_of_mem h hf (fun t => Loc.self fn.value ∈ t.stored (.callees call)) ?_ ?_
  · intro t t' hstep
    obtain ⟨fn', hfn', hstep⟩ := bind_eq_ok_iff.mp hstep
    rw [hfn] at hfn'
    cases hfn'
    cases hstep
    exact (mem_stored_insert t _ _ _).mpr (Or.inl rfl)
  · intro t f' t' _ ht hstep
    obtain ⟨fn', -, hstep⟩ := bind_eq_ok_iff.mp hstep
    cases hstep
    exact grows_insert t call _ call _ ht

/-- What a caller sees of a summary, it sees as it is. -/
theorem explicit?_visible {f : FuncId} {summary writes : Store} {l : Loc}
    (h : visible p f summary = .ok writes) (hl : escapes p f l = .ok true) :
    writes.explicit? l = summary.explicit? l := by
  cases he : summary.explicit? l with
  | none =>
      refine foldlM_ok_induction h (fun kept => kept.explicit? l = none)
        (Store.explicit?_empty l) (fun kept entry kept' hentry hkept hstep => ?_)
      have hne : entry.1 ≠ l := by
        rintro rfl
        rw [Store.mem_toList_iff.mp hentry] at he
        cases he
      obtain ⟨seen, -, hstep⟩ := bind_eq_ok_iff.mp hstep
      cases seen with
      | false =>
          cases hstep
          exact hkept
      | true =>
          cases hstep
          rwa [Store.explicit?_set_of_ne hne]
  | some e =>
      refine foldlM_ok_of_mem h (Store.mem_toList_iff.mpr he)
        (fun kept => kept.explicit? l = some e) ?_ ?_
      · intro kept kept' hstep
        obtain ⟨seen, hseen, hstep⟩ := bind_eq_ok_iff.mp hstep
        rw [hl] at hseen
        cases hseen
        cases hstep
        exact Store.explicit?_set_self _ _ _
      · intro kept entry kept' hentry hkept hstep
        obtain ⟨seen, -, hstep⟩ := bind_eq_ok_iff.mp hstep
        cases seen with
        | false =>
            cases hstep
            exact hkept
        | true =>
            cases hstep
            rw [Store.explicit?_set]
            split
            · next heq => rw [← Store.mem_toList_iff.mp hentry, heq, he]
            · exact hkept

theorem visible_grows {f : FuncId} {summary writes : Store}
    (h : visible p f summary = .ok writes) : Grows summary writes := by
  intro call x hx
  rwa [Store.stored, explicit?_visible h rfl]

/-- The caller's store with what the callees return, before their writes are spliced in. -/
def withReturns (call : ValueId) (isPtr : Bool) (before : Store) (effects : List Effect) : Store :=
  let returns := if isPtr then allReturns effects else ∅
  if returns.isEmpty then before else before.extend (.self call) returns

/-- An entry after a call is the one that the callees wrote, together with the caller's unless
all of them wrote one. -/
theorem explicit?_splice_eq (call : ValueId) (isPtr : Bool) (before : Store)
    (effects : List Effect) (l : Loc) :
    (splice call isPtr before effects).explicit? l =
      ((allWrites effects).explicit? l).elim
        ((withReturns call isPtr before effects).explicit? l) (fun e =>
          some (if effects.all (fun effect => effect.writes.contains l) then e
            else e ∪ before.values l)) := by
  let replaced : Loc → LocSet → LocSet := fun l e =>
    if effects.all (fun effect => effect.writes.contains l) then e else e ∪ before.values l
  have hstep : ∀ (t : Store) (l : Loc) (e : LocSet) (k : Loc),
      (if effects.all (fun effect => effect.writes.contains l) then t.set l e
        else t.set l (e ∪ before.values l)).explicit? k =
          if l = k then some (replaced l e) else t.explicit? k := by
    intro t l e k
    dsimp only [replaced]
    split <;> rw [Store.explicit?_set]
  have hspliced : (splice call isPtr before effects).explicit? l = _ :=
    Store.explicit?_foldl_toList _ (fun l e _ => some (replaced l e)) hstep _
      (allWrites effects) l
  cases hwritten : (allWrites effects).explicit? l with
  | none =>
      rw [hwritten] at hspliced
      exact hspliced
  | some e =>
      rw [hwritten] at hspliced
      exact hspliced

theorem explicit?_withReturns_of_ne {call : ValueId} (isPtr : Bool) (before : Store)
    (effects : List Effect) {l : Loc} (hl : .self call ≠ l) :
    (withReturns call isPtr before effects).explicit? l = before.explicit? l := by
  unfold withReturns
  generalize (if isPtr then allReturns effects else ∅) = returns
  dsimp only
  split
  · rfl
  · exact Store.explicit?_extend_of_ne hl _ _

/-- Apart from the result of the call, what no callee wrote is the caller's. -/
theorem explicit?_splice {call : ValueId} (isPtr : Bool) (before : Store) (effects : List Effect)
    {l : Loc} (hl : .self call ≠ l) :
    (splice call isPtr before effects).explicit? l =
      ((allWrites effects).explicit? l).elim (before.explicit? l) (fun e =>
        some (if effects.all (fun effect => effect.writes.contains l) then e
          else e ∪ before.values l)) := by
  rw [explicit?_splice_eq, explicit?_withReturns_of_ne isPtr before effects hl]

/-- Entries replaced by those of the callees hold the recorded callees if each callee
has kept them. -/
theorem splice_grows {call : ValueId} {isPtr : Bool} {before : Store} {effects : List Effect}
    (h : ∀ effect ∈ effects, Grows before effect.writes) :
    Grows before (splice call isPtr before effects) := by
  intro site x hx
  have hspliced := explicit?_splice isPtr before effects
    (show Loc.self call ≠ .callees site by simp [Loc.self, Loc.callees])
  cases hwritten : (allWrites effects).explicit? (.callees site) with
  | none =>
      rw [hwritten, Option.elim_none] at hspliced
      rwa [Store.stored, hspliced]
  | some e =>
      rw [hwritten, Option.elim_some] at hspliced
      rw [Store.stored_of_explicit hspliced]
      split
      · -- Some callee was entered, and what it wrote holds `x` already.
        have hcontains : (allWrites effects).contains (.callees site) = true :=
          Store.contains_iff.mpr ⟨e, hwritten⟩
        obtain ⟨effect, heffect, -⟩ := ((Store.contains_foldl_absorb Effect.writes effects ∅ _).mp
          hcontains).resolve_left (by simp [Store.contains_iff])
        rw [← Store.stored_of_explicit hwritten]
        exact (Store.mem_stored_foldl_absorb Effect.writes effects ∅ _ x).mpr
          (Or.inr ⟨effect, heffect, h effect heffect site x hx⟩)
      · exact Std.ExtTreeSet.mem_union_iff.mpr (Or.inr hx)

end Call

/-! ## Steps at any depth of nested calls -/

open Store (Grows Rewritten WellFormed)

variable {p : Program} {c : Config} {path : List FuncId}

/-- A callee that was entered on a path, as its body is analysed there. -/
def EnteredBody (p : Program) (c : Config) (path : List FuncId) : Call.BodySpec :=
  fun f context states =>
    f ∉ path ∧ context.WellFormed p c ∧ bodyAt p c path f context = .ok states

theorem enterBody_enteredBody (htables : p.Tables) (hpath : IsPath p path) :
    Call.Enterable (WellFormed p c) (EnteredBody p c path) p path (enterBody p c) where
  body f fn context hfn hf hcontext := by
    have hkeeps := (enterBody_enterable htables path).body f fn context hfn hf hcontext
    refine hkeeps.strengthen (fun session states session' hsession h _ => ?_)
    exact ⟨hf, hcontext, bodyAt_of_enterBody hpath hfn hf hsession.path_eq h⟩
  summary f context states h := summarize_wellFormed (bodyAt_wellFormed htables h.2.1 h.2.2)
  bind := (enterBody_enterable htables path).bind

theorem stepAt_call (htables : p.Tables) (hpath : IsPath p path) {call callee : ValueId}
    {inst : Inst} {args : List ValueId} {s s' : Store} (hs : s.WellFormed p c)
    (hinst : p.inst? call = .ok (some inst)) (hop : inst.op = .call callee args)
    (h : stepAt p c path call s = .ok s') :
    Call.Result (EnteredBody p c path) p c call callee args s s' := by
  have hkeeps : Halting.Keeps (Session.Remembers (WellFormed p c) path)
      (Call.Result (EnteredBody p c path) p c call callee args s)
      (transferInst p c (enterBody p c) call s) := by
    refine Halting.Keeps.ofExcept_bind (fun inst? hinst? => ?_)
    rw [hinst] at hinst?
    cases hinst?
    obtain ⟨block, op, line⟩ := inst
    cases hop
    refine Call.transfer_keeps (enterBody_enteredBody htables hpath) call callee args ?_
    intro funcs before hfuncs hbefore
    exact Call.recordTargets_wellFormed htables hs hinst rfl hfuncs hbefore
  exact hkeeps.of_outcome h

theorem stepAt_rewritten (htables : p.Tables) {v : ValueId} {s s' : Store}
    (hs : s.WellFormed p c)
    (hplain : ∀ inst callee args, p.inst? v = .ok (some inst) → inst.op ≠ .call callee args)
    (h : stepAt p c path v s = .ok s') : Rewritten p c s s' := by
  have hkeeps : Halting.Keeps (Session.Remembers (WellFormed p c) path) (Rewritten p c s)
      (transferInst p c (enterBody p c) v s) := by
    refine Halting.Keeps.ofExcept_bind (fun inst? hinst => ?_)
    split
    · exact Halting.Keeps.pure .refl
    · exact absurd rfl (hplain _ _ _ hinst)
    · exact Halting.Keeps.ofFailing (fun s' h => Transfer.plain_rewritten htables hs hinst h)
  exact hkeeps.of_outcome h

theorem foldlM_stepAt_wellFormed (htables : p.Tables) {insts : List ValueId} {s s' : Store}
    (hs : s.WellFormed p c) (h : insts.foldlM (fun s inst => stepAt p c path inst s) s = .ok s') :
    s'.WellFormed p c :=
  foldlM_ok_induction h (WellFormed p c) hs
    (fun _ _ _ _ ht hstep => stepAt_wellFormed htables ht hstep)

theorem foldlM_stepAt_grows (htables : p.Tables)
    (hgrows : ∀ inst s s', s.WellFormed p c → stepAt p c path inst s = .ok s' → Grows s s')
    {insts : List ValueId} {s s' : Store} (hs : s.WellFormed p c)
    (h : insts.foldlM (fun s inst => stepAt p c path inst s) s = .ok s') : Grows s s' := by
  have hboth := foldlM_ok_induction h (fun t => t.WellFormed p c ∧ Grows s t) ⟨hs, .refl s⟩
    (fun t inst t' _ ht hstep => ⟨stepAt_wellFormed htables ht.1 hstep,
      ht.2.trans (hgrows inst t t' ht.1 hstep)⟩)
  exact hboth.2

/-- If steps in a body keep recorded callees, its summary holds those it started from:
they go into the entry state of the entry block and come out at its exit. -/
theorem summarize_grows (htables : p.Tables) {f : FuncId} {fn : Function} {init : Store}
    {states : BlockStates Store} (hfn : p.function f = .ok fn) (hbody : fn.isDeclaration = false)
    (hgrows : ∀ inst s s', s.WellFormed p c → stepAt p c path inst s = .ok s' → Grows s s')
    (hsolution : Solution p f Store.join (stepAt p c path) init states)
    (hstates : StatesHold (WellFormed p c) states) : Grows init (summarize states) := by
  obtain ⟨b, hb⟩ : ∃ b, fn.entryBlock? = some b := by
    unfold Function.isDeclaration at hbody
    unfold Function.entryBlock?
    cases hblocks : fn.blocks with
    | nil => simp [hblocks] at hbody
    | cons b rest => exact ⟨b, rfl⟩
  obtain ⟨state, hstate, hinit⟩ := hsolution.entry fn b hfn hb
  obtain ⟨block, -, hexit⟩ := hsolution.exit_eq b state hstate
  have hinside : Grows state.entry state.exit :=
    foldlM_stepAt_grows htables hgrows (hstates b state hstate).1 hexit
  exact ((Grows.of_join_eq hinit).trans hinside).trans (.exit_summarize hstate)

/-- What a call records before it enters its callees is still there when they return,
if steps in their bodies keep recorded callees. -/
theorem Call.Result.keeps_recorded (htables : p.Tables) (hpath : IsPath p path)
    (hgrows : ∀ f fn, p.function f = .ok fn → f ∉ path → ∀ inst s s', s.WellFormed p c →
      stepAt p c (f :: path) inst s = .ok s' → Grows s s')
    {call callee : ValueId} {inst : Inst} {args : List ValueId} {s s' : Store}
    (hs : s.WellFormed p c) (hinst : p.inst? call = .ok (some inst))
    (hop : inst.op = .call callee args)
    (h : Call.Result (EnteredBody p c path) p c call callee args s s') :
    ∃ funcs before, Call.candidates p c s callee = .ok funcs ∧
      Call.recordTargets p call s funcs.toList = .ok before ∧ Grows before s' := by
  cases h with
  | unresolved hfuncs hempty => exact ⟨_, s, hfuncs, by rw [hempty]; rfl, .refl s⟩
  | resolved hfuncs hbefore heffects =>
      have hwf := Call.recordTargets_wellFormed htables hs hinst hop hfuncs hbefore
      refine ⟨_, _, hfuncs, hbefore, Call.splice_grows (fun effect heffect => ?_)⟩
      obtain ⟨f, -, fn, context, states, hfn, hbody, hcontext, ⟨hf, hwf', hstates⟩, -, hwrites⟩ :=
        heffects effect heffect
      have hsolution := solution_of_plainForward (plainForward_of_bodyAt hpath hfn hf hstates)
      have hsummary := summarize_grows htables hfn hbody (hgrows f fn hfn hf) hsolution
        (bodyAt_wellFormed htables hwf' hstates)
      have hbound := Grows.of_rewritten (Call.bindParams_rewritten hwf hcontext)
      exact (hbound.trans hsummary).trans (Call.visible_grows hwrites)

/-- No step gives up recorded callees.  The bodies inside a step are analysed on longer
paths. -/
theorem stepAt_grows (htables : p.Tables) (hpath : IsPath p path) {v : ValueId}
    {s s' : Store} (hs : s.WellFormed p c) (h : stepAt p c path v s = .ok s') :
    Grows s s' := by
  induction hpath using IsPath.extension_induction generalizing v s s' with
  | extend path hpath ih =>
      by_cases hcall : ∃ inst callee args, p.inst? v = .ok (some inst) ∧
          inst.op = .call callee args
      · obtain ⟨inst, callee, args, hinst, hop⟩ := hcall
        obtain ⟨funcs, before, -, hbefore, hafter⟩ :=
          (stepAt_call htables hpath hs hinst hop h).keeps_recorded htables hpath
            (fun f fn hfn hf _ _ _ ht hstep => ih f fn hfn hf ht hstep) hs hinst hop
        exact (Call.recordTargets_grows hbefore).trans hafter
      · refine .of_rewritten (stepAt_rewritten htables hs ?_ h)
        exact fun inst callee args hinst hop => hcall ⟨inst, callee, args, hinst, hop⟩

theorem stepAt_records (htables : p.Tables) (hpath : IsPath p path) {call callee : ValueId}
    {inst : Inst} {args : List ValueId} {s s' : Store} (hs : s.WellFormed p c)
    (hinst : p.inst? call = .ok (some inst)) (hop : inst.op = .call callee args)
    (h : stepAt p c path call s = .ok s') :
    ∃ pointees, s.operand p callee = .ok pointees ∧ ∀ x ∈ pointees, ∀ g,
      p.asFunction? x.base = .ok (some g) → p.isIntrinsic c g = .ok false →
        Loc.self x.base ∈ s'.stored (.callees call) := by
  obtain ⟨funcs, before, hfuncs, hbefore, hafter⟩ :=
    (stepAt_call htables hpath hs hinst hop h).keeps_recorded htables hpath
      (fun f fn hfn hf _ _ _ ht hstep => stepAt_grows htables (hpath.cons hfn hf) ht hstep)
      hs hinst hop
  obtain ⟨pointees, hpointees, hmem⟩ := Call.mem_candidates hfuncs
  refine ⟨pointees, hpointees, fun x hx g hg hintrinsic => ?_⟩
  have hfunc : g ∈ funcs.toList := by simpa using (hmem g).mpr ⟨x, hx, hg, hintrinsic⟩
  obtain ⟨fn, hfn, hvalue⟩ := htables.function_of_asFunction? hg
  exact hafter call _ (hvalue ▸ Call.recordTargets_mem hbefore hfunc hfn)

/-! ## Tables of edges -/

namespace CalleeTable

variable {κ : Type} [Ord κ] [Std.TransOrd κ] {t : CalleeTable κ} {key : κ} {g : FuncId}

theorem get?_extend (t : CalleeTable κ) (key key' : κ) {more : FuncSet}
    (hmore : more.isEmpty = false) : (t.extend key more).get? key' =
      if compare key key' = .eq then some ((t.get? key).getD ∅ ∪ more) else t.get? key' := by
  unfold CalleeTable.extend get?
  rw [if_neg (by simp [hmore]), Std.ExtTreeMap.getElem?_insert]

/-- A callee that a table lists for a key. -/
def Lists (t : CalleeTable κ) (key : κ) (g : FuncId) : Prop :=
  ∃ callees, t.get? key = some callees ∧ g ∈ callees

variable [Std.LawfulEqOrd κ]

theorem Lists.extend (h : t.Lists key g) (key' : κ) (more : FuncSet) :
    (t.extend key' more).Lists key g := by
  cases hmore : more.isEmpty with
  | true => rwa [CalleeTable.extend, if_pos hmore]
  | false =>
      obtain ⟨callees, hcallees, hg⟩ := h
      unfold Lists
      rw [get?_extend t key' key hmore]
      split
      · next heq =>
          cases Std.LawfulEqOrd.eq_of_compare heq
          rw [hcallees]
          exact ⟨_, rfl, Std.ExtTreeSet.mem_union_iff.mpr (Or.inl hg)⟩
      · exact ⟨callees, hcallees, hg⟩

theorem lists_extend_self (t : CalleeTable κ) (key : κ) {more : FuncSet} (hg : g ∈ more) :
    (t.extend key more).Lists key g := by
  have hmore : more.isEmpty = false :=
    Std.ExtTreeSet.isEmpty_eq_false_iff.mpr (fun h => by simp [h] at hg)
  unfold Lists
  rw [get?_extend t key key hmore, if_pos Std.ReflOrd.compare_self]
  exact ⟨_, rfl, Std.ExtTreeSet.mem_union_iff.mpr (Or.inr hg)⟩

end CalleeTable

namespace Edges

structure Hold (edges : Edges) (site : CallSite) (call : ValueId) (g : FuncId) : Prop where
  site : edges.sites.Lists site g
  target : edges.targets.Lists call g

theorem mem_calleesOf {pointees : LocSet} {callees : FuncSet} {x : Loc} {g : FuncId}
    (h : calleesOf p pointees = .ok callees) (hx : x ∈ pointees)
    (hg : p.asFunction? x.base = .ok (some g)) : g ∈ callees := by
  refine foldlM_ok_of_mem h (Std.ExtTreeSet.mem_toList.mpr hx) (fun found => g ∈ found) ?_ ?_
  · intro found found' hstep
    rw [hg] at hstep
    cases hstep
    simp
  · intro found pointee found' _ hfound hstep
    obtain ⟨func?, -, hstep⟩ := bind_eq_ok_iff.mp hstep
    cases func? with
    | none =>
        cases hstep
        exact hfound
    | some f =>
        cases hstep
        exact Std.ExtTreeSet.mem_insert.mpr (Or.inr hfound)

theorem Hold.addEntry {edges edges' : Edges} {site : CallSite} {call : ValueId} {g : FuncId}
    (h : edges.Hold site call g) {l : Loc} {pointees : LocSet}
    (hstep : addEntry p edges l pointees = .ok edges') : edges'.Hold site call g := by
  unfold Edges.addEntry at hstep
  split at hstep
  · obtain ⟨callees, -, hstep⟩ := bind_eq_ok_iff.mp hstep
    split at hstep
    · cases hstep
      exact h
    · obtain ⟨site', -, hstep⟩ := bind_eq_ok_iff.mp hstep
      cases hstep
      exact ⟨h.site.extend _ _, h.target.extend _ _⟩
  · cases hstep
    exact h

theorem hold_addEntry {edges edges' : Edges} {site : CallSite} {call : ValueId} {g : FuncId}
    {pointees : LocSet} {x : Loc} (hsite : siteOf p call = .ok site) (hx : x ∈ pointees)
    (hg : p.asFunction? x.base = .ok (some g))
    (hstep : Edges.addEntry p edges (.callees call) pointees = .ok edges') :
    edges'.Hold site call g := by
  have hrole : (Loc.callees call).role = .callees := rfl
  unfold Edges.addEntry at hstep
  rw [if_pos hrole] at hstep
  obtain ⟨callees, hcallees, hstep⟩ := bind_eq_ok_iff.mp hstep
  have hmem := mem_calleesOf hcallees hx hg
  have hsome : callees.isEmpty = false :=
    Std.ExtTreeSet.isEmpty_eq_false_iff.mpr (fun h => by simp [h] at hmem)
  rw [if_neg (by simp [hsome])] at hstep
  obtain ⟨site', hsite', hstep⟩ := bind_eq_ok_iff.mp hstep
  rw [show siteOf p (Loc.callees call).base = .ok site from hsite] at hsite'
  cases hsite'
  cases hstep
  exact ⟨CalleeTable.lists_extend_self _ _ hmem, CalleeTable.lists_extend_self _ _ hmem⟩

theorem hold_of_stored {summary : Store} {edges : Edges} {site : CallSite} {call : ValueId}
    {g : FuncId} {x : Loc} (h : ofSummary p summary = .ok edges)
    (hsite : siteOf p call = .ok site) (hx : x ∈ summary.stored (.callees call))
    (hg : p.asFunction? x.base = .ok (some g)) : edges.Hold site call g := by
  cases he : summary.explicit? (.callees call) with
  | none => simp [Store.stored, he] at hx
  | some e =>
      rw [Store.stored_of_explicit he] at hx
      refine foldlM_ok_of_mem h (Store.mem_toList_iff.mpr he)
        (fun edges => edges.Hold site call g) ?_ ?_
      · exact fun _ _ hstep => hold_addEntry hsite hx hg hstep
      · exact fun _ _ _ _ hedges hstep => hedges.addEntry hstep

theorem siteOf_of_inst? {call : ValueId} {inst : Inst} (h : p.inst? call = .ok (some inst)) :
    ∃ site, siteOf p call = .ok site := by
  unfold siteOf Program.line?
  rw [h]
  cases hline : inst.line with
  | none => exact ⟨.inst call, by simp [bind, Except.bind, pure, Except.pure, hline]⟩
  | some line => exact ⟨.line line, by simp [bind, Except.bind, pure, Except.pure, hline]⟩

end Edges

/-! ## Roots -/

/-- The transfer of a block up to one of its instructions, over that instruction, and on
to the end. -/
theorem Solution.split_block {ε D : Type} {func : FuncId} {merge : D → D → D}
    {transfer : ValueId → D → Except ε D} {init : D} {states : BlockStates D}
    (h : Solution p func merge transfer init states) {b : BlockId} {state : BlockState D}
    {block : Block} {pre post : List ValueId} {inst : ValueId} (hstate : states[b]? = some state)
    (hblock : p.block b = .ok block) (hinsts : block.insts.toList = pre ++ inst :: post) :
    ∃ d d', pre.foldlM (fun d inst => transfer inst d) state.entry = .ok d ∧
      transfer inst d = .ok d' ∧
      post.foldlM (fun d inst => transfer inst d) d' = .ok state.exit := by
  obtain ⟨block', hblock', hexit⟩ := h.exit_eq b state hstate
  rw [hblock] at hblock'
  cases hblock'
  rw [hinsts, List.foldlM_append] at hexit
  obtain ⟨d, hd, hexit⟩ := bind_eq_ok_iff.mp hexit
  rw [List.foldlM_cons] at hexit
  obtain ⟨d', hd', hexit⟩ := bind_eq_ok_iff.mp hexit
  exact ⟨d, d', hd, hd', hexit⟩

/-- In programs that were built step by step, a successful run of a root loses no edge:
at every call in a visited block, each function that the callee operand may be in the
store before the call, unless it is intrinsic, is listed for the call and for its site.
And no step from a store that occurs, at any depth of nested calls, takes anything away
from the callees recorded for a call. -/
theorem resolved_edges_kept {steps : List Step} {built : Built}
    (hbuilt : build steps = .ok built) (c : Config) (f : FuncId) :
    (∀ session session' r, session.path = [] → run built.program c f session = .ok r session' →
      ∀ (b : BlockId) (state : BlockState Store) (block : Block) (pre post : List ValueId)
        (call callee : ValueId) (inst : Inst) (args : List ValueId),
        r.states[b]? = some state → built.program.block b = .ok block →
        block.insts.toList = pre ++ call :: post →
        built.program.inst? call = .ok (some inst) → inst.op = .call callee args →
        ∃ s pointees site,
          pre.foldlM (fun s v => stepAt built.program c [f] v s) state.entry = .ok s ∧
          s.operand built.program callee = .ok pointees ∧
          Edges.siteOf built.program call = .ok site ∧
          ∀ x ∈ pointees, ∀ g, built.program.asFunction? x.base = .ok (some g) →
            built.program.isIntrinsic c g = .ok false →
            r.edges.targets.Lists call g ∧ r.edges.sites.Lists site g) ∧
    ∀ path s s' v rest, Happens built.program c f path (.within s (v :: rest)) →
      stepAt built.program c path v s = .ok s' →
      ∀ call, ∀ x ∈ s.values (.callees call), x ∈ s'.values (.callees call) := by
  have htables := tables_of_build hbuilt
  refine ⟨?_, fun path s s' v rest h hstep => ?_⟩
  · intro session session' r hrest h b state block pre post call callee inst args hstate hblock
      hinsts hinst hop
    obtain ⟨fn, hfn, -, hsummary, hedges⟩ := runBy_eq_ok h
    obtain ⟨-, -, hplain⟩ := plainForward_of_run hrest h
    have hpath : IsPath built.program [f] := (IsPath.nil _).cons hfn (by simp)
    have hentry : state.entry.WellFormed built.program c := by
      obtain ⟨m, hm, hshows, -⟩ := exists_shows_of_run hrest h hstate
      exact (hm.holds htables).of_shows (fun _ hstates => summarize_wellFormed hstates) hshows
    obtain ⟨s, s', hs, hs', hexit⟩ :=
      (solution_of_plainForward hplain).split_block hstate hblock hinsts
    have hwf := foldlM_stepAt_wellFormed htables hentry hs
    obtain ⟨pointees, hpointees, hrecorded⟩ := stepAt_records htables hpath hwf hinst hop hs'
    obtain ⟨site, hsite⟩ := Edges.siteOf_of_inst? hinst
    refine ⟨s, pointees, site, hs, hpointees, hsite, fun x hx g hg hintrinsic => ?_⟩
    -- From the store after the call the callee travels to the exit and to the summary.
    have hafter : Store.Grows s' r.summary := by
      rw [hsummary]
      exact (foldlM_stepAt_grows htables (fun _ _ _ ht h => stepAt_grows htables hpath ht h)
        (stepAt_wellFormed htables hwf hs') hexit).trans (.exit_summarize hstate)
    have hhold := Edges.hold_of_stored hedges hsite
      (hafter call _ (hrecorded x hx g hg hintrinsic)) hg
    exact ⟨hhold.target, hhold.site⟩
  · exact stepAt_grows htables h.isPath (h.holds htables) hstep

theorem resolved_edges_kept_relay : ∃ built r session' state s pointees site,
    build relay = .ok built ∧ run built.program {} (.ofNat 1) {} = .ok r session' ∧
    r.states[(Ident.ofNat 1 : BlockId)]? = some state ∧
    [.ofNat 4, .ofNat 5, .ofNat 6].foldlM
      (fun s v => stepAt built.program {} [.ofNat 1] v s) state.entry = .ok s ∧
    s.operand built.program (.ofNat 6) = .ok pointees ∧ .self (.ofNat 0) ∈ pointees ∧
    Edges.siteOf built.program (.ofNat 7) = .ok site ∧
    r.edges.targets.Lists (.ofNat 7) (.ofNat 0) ∧ r.edges.sites.Lists site (.ofNat 0) := by
  let reads : Program → RootResult → Bool := fun p r =>
    r.states[(Ident.ofNat 1 : BlockId)]?.any fun state =>
      match [.ofNat 4, .ofNat 5, .ofNat 6].foldlM
        (fun s v => stepAt p {} [.ofNat 1] v s) state.entry with
      | .error _ => false
      | .ok s => (s.operand p (.ofNat 6)).toOption.any
          (fun pointees => pointees.contains (.self (.ofNat 0)))
  obtain ⟨built, block, inst, hbuilt, hrun, hblock, hinsts, hinst, hop, hfunction, hintrinsic⟩ :
      ∃ built block inst, build relay = .ok built ∧
      ((run built.program {} (.ofNat 1)).outcome {}).toOption.any (reads built.program) = true ∧
      built.program.block (.ofNat 1) = .ok block ∧
      block.insts.toList =
        [.ofNat 4, .ofNat 5, .ofNat 6] ++ .ofNat 7 :: [.ofNat 8] ∧
      built.program.inst? (.ofNat 7) = .ok (some inst) ∧ inst.op = .call (.ofNat 6) [.ofNat 4] ∧
      built.program.asFunction? (.ofNat 0) = .ok (some (.ofNat 0)) ∧
      built.program.isIntrinsic {} (.ofNat 0) = .ok false :=
    ⟨_, _, _, rfl, by decide +kernel, rfl, rfl, rfl, rfl, rfl, by rfl⟩
  obtain ⟨r, session', hr, hreads⟩ := Halting.eq_ok_of_outcome_any hrun
  obtain ⟨state, hstate, hreads⟩ := (Option.any_eq_true _ _).mp hreads
  obtain ⟨s, pointees, site, hs, hpointees, hsite, hlists⟩ :=
    (resolved_edges_kept hbuilt {} (.ofNat 1)).1 {} session' r rfl hr (.ofNat 1) state block
      _ _ (.ofNat 7) (.ofNat 6) inst [.ofNat 4] hstate hblock hinsts hinst hop
  rw [hs] at hreads
  change (s.operand built.program (.ofNat 6)).toOption.any _ = true at hreads
  rw [hpointees] at hreads
  have hmem : Loc.self (.ofNat 0) ∈ pointees := hreads
  obtain ⟨htarget, hlisted⟩ := hlists _ hmem (.ofNat 0) hfunction hintrinsic
  exact ⟨built, r, session', state, s, pointees, site, hbuilt, hr, hstate, hs, hpointees, hmem,
    hsite, htarget, hlisted⟩

end CallTargets
