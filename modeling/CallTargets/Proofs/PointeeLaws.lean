import CallTargets.Proofs.Independence

/-!
# Laws about pointees

A law says which pointees a location may have.  Default pointees obey it, and so does what
single instructions, recorded candidates and bound parameters bring into a store.  Joins,
summaries and the return of callees bring in nothing else.  So the law holds in every store
of an analysis, at every depth of nested calls.
-/

namespace CallTargets

/-! ## Properties of states that transfers keep -/

section Keeping

variable {ε σ D : Type} {P : D → Prop}

theorem Visitor.Functional.keeps {v : Visitor ε σ D} {I : σ → Prop}
    {transfer : ValueId → D → Failing ε D} (h : v.Functional I transfer)
    (hmerge : ∀ a b, P a → P b → P (v.merge a b))
    (htransfer : ∀ inst d d', P d → transfer inst d = .ok d' → P d') : v.Keeps I P where
  merge := hmerge
  noteMerge := h.noteMerge
  transfer inst d hd s hs := by
    obtain ⟨s', hs', heq⟩ := h.transfer inst d s hs
    rw [heq]
    cases hd' : transfer inst d with
    | error halt => exact hs'
    | ok d' => exact ⟨htransfer inst d d' hd hd', hs'⟩

/-- The visitor that has no state of its own. -/
def Visitor.stateless (merge : D → D → D) (transfer : ValueId → D → Failing ε D) :
    Visitor ε Unit D where
  merge := merge
  transfer inst d := Halting.ofFailing (transfer inst d)

theorem Visitor.stateless_functional (merge : D → D → D)
    (transfer : ValueId → D → Failing ε D) :
    (Visitor.stateless merge transfer).Functional (fun _ => True) transfer :=
  ⟨fun _ _ _ _ => trivial, fun _ _ s _ => ⟨s, trivial, rfl⟩⟩

theorem plainForward_keeps [DecidableEq D] {p : Program} {f : FuncId} {merge : D → D → D}
    {transfer : ValueId → D → Failing ε D} {height : Nat} {init : D} {states : BlockStates D}
    (hmerge : ∀ a b, P a → P b → P (merge a b))
    (htransfer : ∀ inst d d', P d → transfer inst d = .ok d' → P d') (hinit : P init)
    (h : plainForward p f merge transfer height init = .ok states) : StatesHold P states := by
  have hvisitor := Visitor.stateless_functional merge transfer
  have hkeeps := (hvisitor.keeps hmerge htransfer).forward p f height hinit
  obtain ⟨s, t, -, hforward, -⟩ :=
    hvisitor.computes.forward p f init (Or.inl (Eq.refl height)) () () ⟨rfl, trivial⟩
  change _ = Halting.ofFailing (plainForward p f merge transfer height init) s at hforward
  rw [h] at hforward
  exact hkeeps.of_eq_ok trivial hforward

end Keeping

/-! ## Stores that obey a law -/

namespace Store

/-- Every stored pointee is one that the law `Q` allows at its location. -/
def Obeys (Q : Loc → Loc → Prop) (s : Store) : Prop := ∀ l x, x ∈ s.stored l → Q l x

namespace Obeys

variable {Q : Loc → Loc → Prop} {s t : Store} {l : Loc} {e : LocSet}

theorem empty : Obeys Q ∅ := by
  intro l x hx
  simp at hx

theorem set (h : Obeys Q s) (he : ∀ x ∈ e, Q l x) : Obeys Q (s.set l e) := by
  intro k x hx
  rw [stored, explicit?_set] at hx
  split at hx
  · next heq => exact heq ▸ he x hx
  · exact h k x hx

theorem extend (h : Obeys Q s) (he : ∀ x ∈ e, Q l x) : Obeys Q (s.extend l e) := by
  apply h.set
  intro x hx
  rcases Std.ExtTreeSet.mem_union_iff.mp hx with hx | hx
  · exact h l x hx
  · exact he x hx

theorem insert (h : Obeys Q s) {x : Loc} (hx : Q l x) : Obeys Q (s.insert l x) := by
  apply h.set
  intro y hy
  rw [Std.ExtTreeSet.mem_insert, Std.LawfulEqOrd.compare_eq_iff_eq] at hy
  rcases hy with rfl | hy
  · exact hx
  · exact h l y hy

variable (hdefault : ∀ l x, l.default? = some x → Q l x)

include hdefault

theorem values (h : Obeys Q s) {x : Loc} (hx : x ∈ s.values l) : Q l x := by
  cases hs : s.explicit? l with
  | none =>
      rw [values_of_absent hs, mem_defaults] at hx
      exact hdefault l x hx
  | some e =>
      rw [values_of_explicit hs, ← stored_of_explicit hs] at hx
      exact h l x hx

theorem join (h : Obeys Q s) (ht : Obeys Q t) : Obeys Q (s.join t) := by
  intro l x hx
  rw [stored, explicit?_join] at hx
  split at hx
  · simp at hx
  · rcases Std.ExtTreeSet.mem_union_iff.mp hx with hx | hx
    · exact h.values hdefault hx
    · exact ht.values hdefault hx

end Obeys

/-- A well-formed store that obeys a law. -/
structure Lawful (p : Program) (c : Config) (Q : Loc → Loc → Prop) (s : Store) : Prop where
  wellFormed : s.WellFormed p c
  obeys : s.Obeys Q

end Store

open Store (Lawful Obeys WellFormed)

/-- What has to be known of a law: it allows default pointees, instructions keep it in the
caller's store, and what a function returns may be the result of a call. -/
structure PointeeLaw (p : Program) (c : Config) (Q : Loc → Loc → Prop) : Prop where
  default : ∀ l x, l.default? = some x → Q l x
  plain : ∀ {v inst s s'}, p.inst? v = .ok (some inst) → s.Lawful p c Q →
    Transfer.plain p c v inst.op s = .ok s' → s'.Obeys Q
  record : ∀ {call inst callee args s funcs before}, p.inst? call = .ok (some inst) →
    inst.op = .call callee args → s.Lawful p c Q → Call.candidates p c s callee = .ok funcs →
    Call.recordTargets p call s funcs.toList = .ok before → before.Obeys Q
  bind : ∀ {call inst callee args before params context}, p.inst? call = .ok (some inst) →
    inst.op = .call callee args → before.Lawful p c Q →
    Call.bindParams p before params args = .ok context → context.Obeys Q
  result : ∀ {call func x}, Q (.returned func) x → Q (.self call) x

variable {p : Program} {c : Config} {Q : Loc → Loc → Prop} {path : List FuncId}

theorem Store.Lawful.join {s t : Store} (h : s.Lawful p c Q) (hlaw : PointeeLaw p c Q)
    (ht : t.Lawful p c Q) : (s.join t).Lawful p c Q :=
  ⟨h.wellFormed.join ht.wellFormed, h.obeys.join hlaw.default ht.obeys⟩

theorem summarize_obeys {states : BlockStates Store} (h : StatesHold (Obeys Q) states) :
    (summarize states).Obeys Q := by
  intro l x hx
  have hmem := (Store.mem_stored_foldl_absorb
    (fun entry : BlockId × BlockState Store => entry.2.exit) states.toList ∅ l x).mp hx
  obtain ⟨⟨b, state⟩, hstate, hx⟩ := hmem.resolve_left (by simp)
  exact (h b state (Std.ExtTreeMap.mem_toList_iff_getElem?_eq_some.mp hstate)).2 l x hx

theorem summarize_lawful {states : BlockStates Store} (h : StatesHold (Lawful p c Q) states) :
    (summarize states).Lawful p c Q :=
  ⟨summarize_wellFormed (h.imp fun _ hs => hs.wellFormed),
    summarize_obeys (h.imp fun _ hs => hs.obeys)⟩

/-! ## Calls -/

namespace Call

theorem visible_obeys {f : FuncId} {summary writes : Store} (hs : summary.Obeys Q)
    (h : visible p f summary = .ok writes) : writes.Obeys Q := by
  apply foldlM_ok_induction h (Obeys Q) .empty
  intro kept entry kept' hentry hkept hstep
  obtain ⟨seen, -, hstep⟩ := bind_eq_ok_iff.mp hstep
  cases seen with
  | false =>
      cases hstep
      exact hkept
  | true =>
      cases hstep
      have hstored := Store.stored_of_explicit (Store.mem_toList_iff.mp hentry)
      exact hkept.set (fun x hx => hs entry.1 x (hstored ▸ hx))

/-- What callees return is allowed as the result of the call, and what they write is
allowed where they write it. -/
theorem splice_obeys (hdefault : ∀ l x, l.default? = some x → Q l x) {call : ValueId}
    {isPtr : Bool} {before : Store} {effects : List Effect} (hbefore : before.Obeys Q)
    (hreturns : ∀ effect ∈ effects, ∀ x ∈ effect.returns, Q (.self call) x)
    (hwrites : ∀ effect ∈ effects, effect.writes.Obeys Q) :
    (splice call isPtr before effects).Obeys Q := by
  have hall : (allWrites effects).Obeys Q := by
    intro l x hx
    obtain ⟨effect, heffect, hx⟩ := ((Store.mem_stored_foldl_absorb Effect.writes effects ∅ l
      x).mp hx).resolve_left (by simp)
    exact hwrites effect heffect l x hx
  have hresult : ∀ x ∈ allReturns effects, Q (.self call) x := by
    unfold allReturns
    refine List.foldlRecOn (motive := fun all : LocSet => ∀ x ∈ all, Q (.self call) x) effects _
      (by simp) (fun all hall effect heffect x hx => ?_)
    rcases Std.ExtTreeSet.mem_union_iff.mp hx with hx | hx
    · exact hall x hx
    · exact hreturns effect heffect x hx
  unfold splice
  refine List.foldlRecOn (allWrites effects).toList _ ?_ (fun t ht entry hentry => ?_)
  · cases isPtr with
    | false => simpa using hbefore
    | true =>
        simp only [if_true]
        split
        · exact hbefore
        · exact hbefore.extend hresult
  · have he : ∀ x ∈ entry.2, Q entry.1 x := by
      intro x hx
      rw [← Store.stored_of_explicit (Store.mem_toList_iff.mp hentry)] at hx
      exact hall entry.1 x hx
    dsimp only
    split
    · exact ht.set he
    · apply ht.set
      intro x hx
      rcases Std.ExtTreeSet.mem_union_iff.mp hx with hx | hx
      · exact he x hx
      · exact hbefore.values hdefault hx

theorem Result.obeys (hlaw : PointeeLaw p c Q) (htables : p.Tables) {call callee : ValueId}
    {inst : Inst} {args : List ValueId} {s s' : Store} (hs : s.Lawful p c Q)
    (hinst : p.inst? call = .ok (some inst)) (hop : inst.op = .call callee args)
    (hbody : ∀ f fn context states, p.function f = .ok fn → context.Obeys Q →
      EnteredBody p c path f context states → StatesHold (Obeys Q) states)
    (h : Result (EnteredBody p c path) p c call callee args s s') : s'.Obeys Q := by
  cases h with
  | unresolved => exact hs.obeys
  | @resolved funcs before isPtr effects hfuncs hbefore heffects =>
      have hrecorded : before.Lawful p c Q :=
        ⟨recordTargets_wellFormed htables hs.wellFormed hinst hop hfuncs hbefore,
          hlaw.record hinst hop hs hfuncs hbefore⟩
      have hsummary : ∀ effect ∈ effects, (∀ x ∈ effect.returns, Q (.self call) x) ∧
          effect.writes.Obeys Q := by
        intro effect heffect
        obtain ⟨f, -, fn, context, states, hfn, -, hcontext, hentered, hreturns, hwrites⟩ :=
          heffects effect heffect
        have hstates := hbody f fn context states hfn (hlaw.bind hinst hop hrecorded hcontext)
          hentered
        have hobeys := summarize_obeys hstates
        refine ⟨fun x hx => ?_, visible_obeys hobeys hwrites⟩
        have hreturned : Q (.returned fn.value) x := hobeys.values hlaw.default (hreturns ▸ hx)
        exact hlaw.result hreturned
      exact splice_obeys hlaw.default hrecorded.obeys (fun effect he => (hsummary effect he).1)
        (fun effect he => (hsummary effect he).2)

end Call

/-! ## Steps and bodies at any depth of nested calls -/

/-- What a step does, once calls are told apart from other instructions. -/
theorem stepAt_cases {v : ValueId} {s s' : Store} (h : stepAt p c path v s = .ok s') :
    s' = s ∨ ∃ inst, p.inst? v = .ok (some inst) ∧
      ((∃ callee args, inst.op = .call callee args) ∨
        Transfer.plain p c v inst.op s = .ok s') := by
  obtain ⟨session', h⟩ := Halting.outcome_eq_ok_iff.mp h
  obtain ⟨inst?, s₁, hread, h⟩ := Halting.bind_eq_ok_iff.mp h
  obtain ⟨hinst, rfl⟩ := Halting.ofExcept_eq_ok_iff.mp hread
  split at h
  · exact Or.inl (Halting.pure_eq_ok_iff.mp h).1.symm
  · exact Or.inr ⟨_, hinst, Or.inl ⟨_, _, rfl⟩⟩
  · exact Or.inr ⟨_, hinst, Or.inr (Halting.ofFailing_eq_ok_iff.mp h).1⟩

theorem plainForward_lawful (hlaw : PointeeLaw p c Q)
    (hstep : ∀ v s s', s.Lawful p c Q → stepAt p c path v s = .ok s' → s'.Lawful p c Q)
    {f : FuncId} {init : Store} {states : BlockStates Store} (hinit : init.Lawful p c Q)
    (h : plainForward p f Store.join (transferAt p c path) Store.height init = .ok states) :
    StatesHold (Lawful p c Q) states := by
  refine plainForward_keeps ?_ ?_ hinit h
  · exact fun a b ha hb => ha.join hlaw hb
  · exact fun v s s' hs h => hstep v s s' hs (transferAt_eq_ok_iff.mp h)

/-- A law holds after every step from a store in which it holds. -/
theorem stepAt_lawful (hlaw : PointeeLaw p c Q) (htables : p.Tables) (hpath : IsPath p path)
    {v : ValueId} {s s' : Store} (hs : s.Lawful p c Q) (h : stepAt p c path v s = .ok s') :
    s'.Lawful p c Q := by
  induction hpath using IsPath.extension_induction generalizing v s s' with
  | extend path hpath ih =>
      refine ⟨stepAt_wellFormed htables hs.wellFormed h, ?_⟩
      rcases stepAt_cases h with rfl | ⟨inst, hinst, ⟨callee, args, hop⟩ | hplain⟩
      · exact hs.obeys
      · have hresult := stepAt_call htables hpath hs.wellFormed hinst hop h
        apply hresult.obeys hlaw htables hs hinst hop
        rintro f fn context states hfn hcontext ⟨hf, hwf, hstates⟩
        have hlawful := plainForward_lawful hlaw
          (fun v s s' hs hstep => ih f fn hfn hf hs hstep) ⟨hwf, hcontext⟩
          (plainForward_of_bodyAt hpath hfn hf hstates)
        exact hlawful.imp fun _ hs => hs.obeys
      · exact hlaw.plain hinst hs hplain

/-- A law holds in every store that occurs. -/
theorem Happens.lawful (hlaw : PointeeLaw p c Q) (htables : p.Tables) {root : FuncId}
    {m : Moment} (h : Happens p c root path m) : m.Holds (Lawful p c Q) := by
  have hvisitor : ∀ path, IsPath p path → (storeVisitor p c (enterBody p c)).Keeps
      (fun session => session.path = path) (Lawful p c Q) := by
    intro path hpath
    refine (storeVisitor_functional hpath (by omega)).keeps ?_ ?_
    · exact fun a b ha hb => ha.join hlaw hb
    · exact fun v s s' hs h => stepAt_lawful hlaw htables hpath hs (transferAt_eq_ok_iff.mp h)
  induction h with
  | root hfn => exact ⟨.empty, .empty⟩
  | start h hg hpending ih => exact ⟨ih, .empty⟩
  | visit h hg hb hvisit ih =>
      obtain ⟨session', hvisit⟩ := Halting.outcome_eq_ok_iff.mp hvisit
      exact ⟨ih.1, ((hvisitor _ h.isPath).visit ih.1 ih.2 _).of_eq_ok rfl hvisit⟩
  | merge h hg hb hpreds hentry ih =>
      obtain ⟨session', hentry⟩ := Halting.outcome_eq_ok_iff.mp hentry
      exact ((hvisitor _ h.isPath).merges ih.1 ih.2 _ _).of_eq_ok rfl hentry _ rfl
  | begin h hg hb hentry ih =>
      obtain ⟨session', hentry⟩ := Halting.outcome_eq_ok_iff.mp hentry
      exact ((hvisitor _ h.isPath).merges ih.1 ih.2 _ _).of_eq_ok rfl hentry _ rfl
  | next h hstep ih => exact stepAt_lawful hlaw htables h.isPath ih hstep
  | call h hinst hop hfuncs hbefore ih =>
      exact ⟨Call.recordTargets_wellFormed htables ih.wellFormed hinst hop hfuncs hbefore,
        hlaw.record hinst hop ih hfuncs hbefore⟩
  | enter h hf hfn hbody hcutoff hcontext ih =>
      cases h with
      | call h hinst hop hfuncs hbefore =>
          exact ⟨(Call.bindParams_rewritten ih.wellFormed hcontext).wellFormed ih.wellFormed,
            hlaw.bind hinst hop ih hcontext⟩

theorem freshRun_summary_lawful (hlaw : PointeeLaw p c Q) (htables : p.Tables) {f : FuncId}
    {r : RootResult} (h : freshRun p c f = .ok r) : r.summary.Lawful p c Q := by
  obtain ⟨session', hrun⟩ := Halting.outcome_eq_ok_iff.mp h
  obtain ⟨fn, hfn, -, hsummary, -⟩ := runBy_eq_ok hrun
  obtain ⟨-, -, hplain⟩ := plainForward_of_run rfl hrun
  have hpath : IsPath p [f] := (IsPath.nil p).cons hfn (by simp)
  rw [hsummary]
  apply summarize_lawful
  exact plainForward_lawful hlaw (fun v s s' hs hstep => stepAt_lawful hlaw htables hpath hs hstep)
    ⟨.empty, .empty⟩ hplain

end CallTargets
