import CallTargets.Proofs.RecursionGuard

/-!
# The limit on the depth of calls

A run that never reports the limit does not depend on it.  Two analyses whose limits differ
are followed side by side: up to the first edge that the lower limit cuts off they do the
same to the same session, and from then on the session keeps that edge.  The limit is never
reported when it leaves room for every function with a body, since no function is on a path
twice.
-/

namespace CallTargets

open Halting (Keeps)

namespace Halting

variable {ε ε' σ α β : Type} {M : σ → Prop} {x y : Halting ε σ α}

theorem final_bind (x : Halting ε σ α) (f : α → Halting ε σ β) (s : σ) :
    (x >>= f).final s = match x s with
      | .ok a s' => (f a).final s'
      | .error _ s' => s' := by
  unfold final
  rw [bind_apply]
  cases x s <;> rfl

/-- The second computation does what the first does, unless the first leaves a mark.  Marks
stay. -/
structure Mirrors (M : σ → Prop) (x y : Halting ε σ α) : Prop where
  keeps : Keeps M (fun _ => True) x
  same : ∀ s, M (x.final s) ∨ y s = x s

namespace Mirrors

theorem refl (h : Keeps M (fun _ => True) x) : Mirrors M x x := ⟨h, fun _ => Or.inr rfl⟩

protected theorem pure (a : α) : Mirrors M (pure a : Halting ε σ α) (pure a) :=
  refl (Keeps.pure trivial)

protected theorem bind {f g : α → Halting ε σ β} (hxy : Mirrors M x y)
    (hfg : ∀ a, Mirrors M (f a) (g a)) : Mirrors M (x >>= f) (y >>= g) := by
  refine ⟨hxy.keeps.bind (fun a _ => (hfg a).keeps), fun s => ?_⟩
  have hkeeps := fun a s' => (hfg a).keeps.final (s := s')
  rw [final_bind]
  rcases hxy.same s with hmark | hsame
  · left
    unfold final at hmark
    cases hx : x s with
    | error halt s' =>
        rw [hx] at hmark
        exact hmark
    | ok a s' =>
        rw [hx] at hmark
        exact hkeeps a s' hmark
  · rw [bind_apply, bind_apply, hsame]
    cases x s with
    | error halt s' => exact Or.inr rfl
    | ok a s' => exact (hfg a).same s'

theorem ofExcept_bind {z : Except Fault α} {f g : α → Halting ε σ β}
    (hfg : ∀ a, z = .ok a → Mirrors M (f a) (g a)) :
    Mirrors M (Halting.ofExcept z >>= f) (Halting.ofExcept z >>= g) := by
  cases z with
  | error cause => exact refl (fun _ hs => hs)
  | ok a => exact hfg a rfl

theorem mapFailure {f : ε → ε'} (h : Mirrors M x y) :
    Mirrors M (Halting.mapFailure f x) (Halting.mapFailure f y) := by
  refine ⟨h.keeps.mapFailure, fun s => ?_⟩
  rcases h.same s with hmark | hsame
  · left
    unfold final Halting.mapFailure at *
    cases hx : x s with
    | ok a s' =>
        rw [hx] at hmark
        exact hmark
    | error halt s' =>
        rw [hx] at hmark
        exact hmark
  · right
    unfold Halting.mapFailure
    rw [hsame]

theorem foldlM {f g : α → β → Halting ε σ α} (hfg : ∀ a b, Mirrors M (f a b) (g a b))
    (l : List β) (a : α) : Mirrors M (l.foldlM f a) (l.foldlM g a) := by
  induction l generalizing a with
  | nil => exact Mirrors.pure a
  | cons b l ih =>
      simp only [List.foldlM_cons]
      exact Mirrors.bind (hfg a b) ih

end Mirrors

end Halting

open Halting (Mirrors)

/-! ## The solver -/

/-- Two visitors merge alike, and the transfers of the second mirror those of the first. -/
structure Visitor.Mirrors {ε σ D : Type} (M : σ → Prop) (v w : Visitor ε σ D) : Prop where
  merge_eq : w.merge = v.merge
  noteMerge_eq : w.noteMerge = v.noteMerge
  noteMerge : ∀ a b s, M s → M (v.noteMerge a b s)
  transfer : ∀ inst d, Halting.Mirrors M (v.transfer inst d) (w.transfer inst d)

namespace Visitor.Mirrors

open Solver

variable {ε σ D : Type} {M : σ → Prop} {v w : Visitor ε σ D}

theorem keeps (h : Visitor.Mirrors M v w) : v.Keeps M (fun _ => True) where
  merge _ _ _ _ := trivial
  noteMerge := h.noteMerge
  transfer inst d _ := (h.transfer inst d).keeps

theorem entryState? (h : Visitor.Mirrors M v w) (g : FlowGraph) (init : D)
    (states : BlockStates D) (b : BlockId) :
    Halting.Mirrors M (entryState? g v init states b) (entryState? g w init states b) := by
  have hsame : mergePred w states = mergePred v states := by
    unfold mergePred
    rw [h.merge_eq, h.noteMerge_eq]
  unfold Solver.entryState?
  rw [hsame]
  apply Mirrors.refl
  exact (h.keeps.merges trivial (fun _ _ _ => ⟨trivial, trivial⟩) b (g.preds b)).imp
    (fun _ _ => trivial)

variable [DecidableEq D]

theorem visit (h : Visitor.Mirrors M v w) (g : FlowGraph) (init : D) (progress : Progress D)
    (b : BlockId) :
    Halting.Mirrors M (visit g v init progress b) (visit g w init progress b) := by
  refine Mirrors.bind (h.entryState? g init progress.states b) (fun entry? => ?_)
  cases entry? with
  | none => exact Mirrors.pure _
  | some entry =>
      refine Mirrors.bind (Mirrors.foldlM (fun d inst => h.transfer inst d) _ _) (fun exit => ?_)
      dsimp only
      split
      · exact Mirrors.ofExcept_bind (fun _ _ => Mirrors.pure _)
      · exact Mirrors.pure _

theorem run (h : Visitor.Mirrors M v w) (g : FlowGraph) (init : D) (fuel : Nat)
    (progress : Progress D) :
    Halting.Mirrors M (Solver.run g v init fuel progress)
      (Solver.run g w init fuel progress) := by
  induction fuel generalizing progress with
  | zero =>
      unfold Solver.run
      split
      · exact Mirrors.pure _
      · exact Mirrors.refl (Keeps.throw _)
  | succ fuel ih =>
      unfold Solver.run
      split
      · exact Mirrors.pure _
      · exact Mirrors.bind (h.visit g init progress _) ih

theorem forward (h : Visitor.Mirrors M v w) (p : Program) (func : FuncId) (height : Nat)
    (init : D) :
    Halting.Mirrors M (forward p func v height init) (forward p func w height init) := by
  refine Mirrors.ofExcept_bind (fun g? _ => ?_)
  cases g? with
  | none => exact Mirrors.pure _
  | some g => exact Mirrors.ofExcept_bind (fun _ _ => h.run g init _ _)

end Visitor.Mirrors

/-! ## Calls -/

/-- Some edge was cut off by the limit on the depth of calls. -/
def Session.DepthCut (s : Session) : Prop := ∃ k ∈ s.cutoffs, k.reason = .depthLimit

namespace Session.DepthCut

theorem of_cut (s : Session) {k : Cutoff} (hk : k.reason = .depthLimit) : (s.cut k).DepthCut :=
  ⟨k, Std.ExtTreeSet.mem_insert_self, hk⟩

theorem cut {s : Session} (h : s.DepthCut) (k : Cutoff) : (s.cut k).DepthCut := by
  obtain ⟨k', hmem, hk'⟩ := h
  exact ⟨k', Std.ExtTreeSet.mem_insert.mpr (Or.inr hmem), hk'⟩

end Session.DepthCut

theorem Analysis.within_mirrors {ε α : Type} {x y : Analysis ε α}
    (h : Mirrors Session.DepthCut x y) (f : FuncId) :
    Mirrors Session.DepthCut (Analysis.within f x) (Analysis.within f y) := by
  refine ⟨h.keeps.within (fun _ hs => hs) (fun _ hs => hs), fun s => ?_⟩
  rcases h.same (s.enter f) with hmark | hsame
  · left
    unfold Halting.final Analysis.within at *
    cases hx : x (s.enter f) with
    | ok a t =>
        rw [hx] at hmark
        exact hmark
    | error halt t =>
        rw [hx] at hmark
        exact hmark
  · right
    unfold Analysis.within
    rw [hsame]

section

variable {p : Program} {c : Config} {d : Nat} {enter₁ enter₂ : Entering}

theorem Analysis.note_mirrors {ε : Type} (n : Note) :
    Mirrors Session.DepthCut (Analysis.note n : Analysis ε Unit) (Analysis.note n) :=
  Mirrors.refl (Keeps.modify (fun _ hs => hs))

namespace Call

theorem canEnter_mirrors {ε : Type} (hd : c.maxCallDepth ≤ d) (call : ValueId) (f : FuncId) :
    Mirrors Session.DepthCut (canEnter c call f : Analysis ε Bool)
      (canEnter { c with maxCallDepth := d } call f) := by
  refine ⟨fun s hs => ?_, fun s => ?_⟩
  · rw [canEnter_apply]
    cases cutoff? c s.path f with
    | none => exact ⟨trivial, hs⟩
    | some reason => exact ⟨trivial, hs.cut _⟩
  · unfold Halting.final
    rw [canEnter_apply, canEnter_apply]
    cases hcutoff : cutoff? c s.path f with
    | none =>
        right
        obtain ⟨hfresh, hroom⟩ := cutoff?_eq_none_iff.mp hcutoff
        have hother : cutoff? { c with maxCallDepth := d } s.path f = none :=
          cutoff?_eq_none_iff.mpr ⟨hfresh, hroom.trans_le hd⟩
        rw [hother]
    | some reason =>
        rcases cutoff?_eq_some_iff.mp hcutoff with ⟨rfl, hmem⟩ | ⟨rfl, -⟩
        · right
          have hother : cutoff? { c with maxCallDepth := d } s.path f = some .recursive :=
            cutoff?_eq_some_iff.mpr (Or.inl ⟨rfl, hmem⟩)
          rw [hother]
        · exact Or.inl (.of_cut s rfl)

variable (henter : ∀ f context, Mirrors Session.DepthCut (enter₁ f context) (enter₂ f context))
  (hd : c.maxCallDepth ≤ d)

include henter hd

theorem enterOne_mirrors (call : ValueId) (args : List ValueId) (before : Store) (f : FuncId) :
    Mirrors Session.DepthCut (enterOne p c enter₁ call args before f)
      (enterOne p { c with maxCallDepth := d } enter₂ call args before f) := by
  refine Mirrors.ofExcept_bind (fun callee _ => ?_)
  split
  · exact Mirrors.pure none
  · refine Mirrors.bind (canEnter_mirrors hd call f) (fun answer => ?_)
    cases answer with
    | false => exact Mirrors.pure none
    | true =>
        refine Mirrors.ofExcept_bind (fun context _ => ?_)
        refine Mirrors.bind (Analysis.note_mirrors _) (fun _ => ?_)
        refine Mirrors.bind (henter f context).mapFailure (fun states => ?_)
        refine Mirrors.bind (Analysis.note_mirrors _) (fun _ => ?_)
        exact Mirrors.ofExcept_bind (fun writes _ => Mirrors.pure _)

theorem enterAll_mirrors (call : ValueId) (args : List ValueId) (before : Store)
    (funcs : List FuncId) :
    Mirrors Session.DepthCut (enterAll p c enter₁ call args before funcs)
      (enterAll p { c with maxCallDepth := d } enter₂ call args before funcs) := by
  induction funcs with
  | nil => exact Mirrors.pure []
  | cons f rest ih =>
      refine Mirrors.bind (enterOne_mirrors henter hd call args before f) (fun effect? => ?_)
      exact Mirrors.bind ih (fun effects => Mirrors.pure _)

theorem transfer_mirrors (call callee : ValueId) (args : List ValueId) (s : Store) :
    Mirrors Session.DepthCut (transfer p c enter₁ call callee args s)
      (transfer p { c with maxCallDepth := d } enter₂ call callee args s) := by
  refine Mirrors.ofExcept_bind (fun funcs _ => ?_)
  dsimp only
  split
  · refine Mirrors.ofExcept_bind (fun func? _ => ?_)
    split
    · exact Mirrors.bind (Analysis.note_mirrors _) (fun _ => Mirrors.pure s)
    · exact Mirrors.pure s
  · refine Mirrors.ofExcept_bind (fun before _ => ?_)
    refine Mirrors.bind (Analysis.note_mirrors _) (fun _ => ?_)
    refine Mirrors.bind (enterAll_mirrors henter hd call args before _) (fun effects => ?_)
    exact Mirrors.ofExcept_bind (fun isPtr _ => Mirrors.pure _)

end Call

theorem storeVisitor_mirrors
    (henter : ∀ f context, Mirrors Session.DepthCut (enter₁ f context) (enter₂ f context))
    (hd : c.maxCallDepth ≤ d) :
    Visitor.Mirrors Session.DepthCut (storeVisitor p c enter₁)
      (storeVisitor p { c with maxCallDepth := d } enter₂) where
  merge_eq := rfl
  noteMerge_eq := rfl
  noteMerge _ _ _ hs := hs
  transfer inst s := by
    apply Mirrors.mapFailure
    refine Mirrors.ofExcept_bind (fun inst? _ => ?_)
    split
    · exact Mirrors.pure s
    · exact Call.transfer_mirrors henter hd inst _ _ s
    · exact Mirrors.refl (Keeps.ofFailing (fun _ _ => trivial))

/-- The induction is on the depth of nested bodies, which both analyses go down together. -/
theorem analyzeBody_mirrors (hd : c.maxCallDepth ≤ d) (height depth : Nat) (f : FuncId)
    (init : Store) :
    Mirrors Session.DepthCut (analyzeBody p c height depth f init)
      (analyzeBody p { c with maxCallDepth := d } height depth f init) := by
  induction depth generalizing f init with
  | zero => exact Mirrors.refl (Keeps.throw _)
  | succ depth ih =>
      apply Analysis.within_mirrors
      exact (storeVisitor_mirrors ih hd).forward p f height init

theorem runAllBy_mirrors (hd : c.maxCallDepth ≤ d) (found : Edges) (funcs : List FuncId) :
    Mirrors Session.DepthCut (runAllBy p c (enterBody p c) found funcs)
      (runAllBy p { c with maxCallDepth := d } (enterBody p { c with maxCallDepth := d }) found
        funcs) := by
  induction funcs generalizing found with
  | nil => exact Mirrors.pure found
  | cons f rest ih =>
      refine Mirrors.ofExcept_bind (fun isRoot _ => ?_)
      cases isRoot with
      | false => exact ih found
      | true =>
          refine Mirrors.bind ?_ (fun r => ih _)
          refine Mirrors.ofExcept_bind (fun fn _ => ?_)
          refine Mirrors.bind (Analysis.note_mirrors _) (fun _ => ?_)
          refine Mirrors.bind (analyzeBody_mirrors hd _ _ f ∅) (fun states => ?_)
          exact Mirrors.ofExcept_bind (fun edges _ => Mirrors.pure _)

theorem analyze_of_larger_limit {res : Results} (hd : c.maxCallDepth ≤ d)
    (h : (analyze p c).outcome {} = .ok res) (hres : ∀ k ∈ res.cutoffs, k.reason ≠ .depthLimit) :
    (analyze p { c with maxCallDepth := d }).outcome {} = .ok res := by
  obtain ⟨s, h⟩ := Halting.outcome_eq_ok_iff.mp h
  obtain ⟨edges, s', hedges, h⟩ := Halting.bind_eq_ok_iff.mp h
  cases h
  rcases (runAllBy_mirrors (p := p) hd {} p.functionIds).same {} with ⟨k, hk, hdepth⟩ | hsame
  · rw [Halting.final, hedges] at hk
    exact absurd hdepth (hres k hk)
  · exact outcome_analyze (hsame.trans hedges)

end

/-! ## Limits that are never met -/

/-- A function of the program that has a body. -/
def Program.Defines (p : Program) (f : FuncId) : Prop :=
  ∃ fn, p.function f = .ok fn ∧ fn.isDeclaration = false

/-- The number of functions with a body. -/
def Program.definedCount (p : Program) : Nat := p.functions.countP (fun fn => !fn.isDeclaration)

theorem countP_range_getElem? {α : Type} (l : List α) (q : α → Bool) :
    (List.range l.length).countP (fun i => l[i]?.any q) = l.countP q := by
  induction l with
  | nil => rfl
  | cons a l ih =>
      rw [List.length_cons, List.range_succ_eq_map, List.countP_cons, List.countP_cons,
        List.countP_map, ← ih]
      simp [Function.comp_def]

theorem Program.length_le_definedCount {p : Program} {funcs : List FuncId} (hnodup : funcs.Nodup)
    (h : ∀ f ∈ funcs, p.Defines f) : funcs.length ≤ p.definedCount := by
  let defined : Nat → Bool := fun i => p.functions.toList[i]?.any (fun fn => !fn.isDeclaration)
  have hindices : (funcs.map Ident.index).Nodup :=
    hnodup.map (fun _ _ heq => Ident.ext_index heq)
  have hsubset : funcs.map Ident.index ⊆ (List.range p.functions.toList.length).filter defined := by
    intro i hi
    obtain ⟨f, hf, rfl⟩ := List.mem_map.mp hi
    obtain ⟨fn, hfn, hbody⟩ := h f hf
    have hfetch := fetch_eq_ok_iff.mp hfn
    rw [List.mem_filter, List.mem_range]
    refine ⟨by simpa using (Array.getElem?_eq_some_iff.mp hfetch).1, ?_⟩
    simp [defined, hfetch, hbody]
  have hlength := (hindices.subperm hsubset).length_le
  rw [List.length_map, ← List.countP_eq_length_filter, countP_range_getElem?] at hlength
  rwa [definedCount, ← Array.countP_toList]

variable {p : Program} {c : Config} {root : FuncId}

theorem Program.defines_of_ofFunction {f : FuncId} {g : FlowGraph}
    (h : FlowGraph.ofFunction p f = .ok (some g)) : p.Defines f := by
  obtain ⟨fn, hg⟩ := FlowGraph.of_ofFunction h
  refine ⟨fn, hg.function_eq, ?_⟩
  have hentry := hg.entry_eq
  unfold Function.entryBlock? at hentry
  unfold Function.isDeclaration
  cases hblocks : fn.blocks with
  | nil => simp [hblocks] at hentry
  | cons b blocks => rfl

namespace Happens

variable {path : List FuncId} {m : Moment}

theorem innermost_defined {f : FuncId} (h : Happens p c root (f :: path) m)
    (hm : ∀ init, m ≠ .entered init) : p.Defines f := by
  generalize hstack : f :: path = stack at h
  induction h with
  | root hfn => exact absurd rfl (hm ∅)
  | start h hg hpending ih =>
      cases hstack
      exact Program.defines_of_ofFunction hg
  | visit h hg hb hvisit ih =>
      cases hstack
      exact Program.defines_of_ofFunction hg
  | merge h hg hb hpreds hentry ih =>
      cases hstack
      exact Program.defines_of_ofFunction hg
  | begin h hg hb hentry ih =>
      cases hstack
      exact Program.defines_of_ofFunction hg
  | next h hstep ih => exact ih nofun hstack
  | call h hinst hop hfuncs hbefore ih => exact ih nofun hstack
  | enter h hf hfn hbody hcutoff hcontext ih => exact absurd rfl (hm _)

/-- A function on the path is the innermost one, or another was called from its body. -/
theorem all_defined (h : Happens p c root path m) (hm : ∀ init, m ≠ .entered init) :
    ∀ f ∈ path, p.Defines f := by
  intro f hf
  obtain ⟨inner, below, rfl⟩ := List.append_of_mem hf
  rcases List.eq_nil_or_concat inner with rfl | ⟨inner, g, rfl⟩
  · exact h.innermost_defined hm
  · have hsplit : inner.concat g ++ f :: below = inner ++ g :: f :: below := by simp
    obtain ⟨-, s, call, callee, args, rest, inst, funcs, hwithin, -⟩ :=
      h.guarded.called inner g (f :: below) hsplit (List.cons_ne_nil f below)
    exact hwithin.innermost_defined nofun

end Happens

/-- The edge that the limit cuts off leads to one more function with a body than there are on
the path. -/
theorem Cutoff.Arises.lt_definedCount {k : Cutoff} (h : k.Arises p c root)
    (hk : k.reason = .depthLimit) : c.maxCallDepth < p.definedCount := by
  obtain ⟨path, args, funcs, before, fn, hcalling, -, hfn, hbody, hcutoff⟩ := h
  rw [hk] at hcutoff
  obtain ⟨heq, -⟩ | ⟨-, hfresh, hfull⟩ := Call.cutoff?_eq_some_iff.mp hcutoff
  · cases heq
  have hnodup : (k.callee :: path).Nodup := List.nodup_cons.mpr ⟨hfresh, hcalling.isPath.nodup⟩
  have hdefined : ∀ f ∈ k.callee :: path, p.Defines f := by
    intro f hf
    rcases List.mem_cons.mp hf with rfl | hf
    · exact ⟨fn, hfn, hbody⟩
    · exact hcalling.all_defined nofun f hf
  have hlength := Program.length_le_definedCount hnodup hdefined
  rw [List.length_cons] at hlength
  omega

theorem run_keeps_cutoffs {P : Cutoff → Prop}
    (hP : ∀ f k, k.Arises p c f → P k) (f : FuncId) :
    Keeps (fun s : Session => s.path = [] ∧ ∀ k ∈ s.cutoffs, P k) (fun _ => True)
      (run p c f) := by
  intro s hs
  obtain ⟨s', hrun, hpath, hcutoffs⟩ := run_resumed (p := p) (c := c) f hs.1
  have hkept : s'.path = [] ∧ ∀ k ∈ s'.cutoffs, P k := by
    refine ⟨hpath, fun k hk => ?_⟩
    rw [hcutoffs, Std.ExtTreeSet.mem_union_iff] at hk
    rcases hk with hk | hk
    · exact hs.2 k hk
    · exact hP f k (arises_of_mem_freshCutoffs hk)
  rw [hrun]
  cases freshRun p c f with
  | ok r => exact ⟨trivial, hkept⟩
  | error halt => exact hkept

theorem runAllBy_keeps_cutoffs {P : Cutoff → Prop}
    (hP : ∀ f k, k.Arises p c f → P k) (found : Edges) (funcs : List FuncId) :
    Keeps (fun s : Session => s.path = [] ∧ ∀ k ∈ s.cutoffs, P k) (fun _ => True)
      (runAllBy p c (enterBody p c) found funcs) := by
  induction funcs generalizing found with
  | nil => exact Keeps.pure trivial
  | cons f rest ih =>
      refine Keeps.ofExcept_bind (fun isRoot _ => ?_)
      cases isRoot with
      | false => exact ih found
      | true => exact Keeps.bind (run_keeps_cutoffs hP f) (fun r _ => ih _)

/-- Whoever does not see the limit on the depth of calls in the cutoffs does not see it at
all: every higher limit leads to the same results.  And where the limit is at least the number
of functions with a body, no run and no analysis reports it, whether or not it comes to a
result. -/
theorem depth_limit_invisible (p : Program) (c : Config) :
    (∀ d res, c.maxCallDepth ≤ d → (analyze p c).outcome {} = .ok res →
      (∀ k ∈ res.cutoffs, k.reason ≠ .depthLimit) →
        (analyze p { c with maxCallDepth := d }).outcome {} = .ok res) ∧
    (p.definedCount ≤ c.maxCallDepth →
      (∀ root (s : Session), s.path = [] → ∀ k ∈ ((run p c root).final s).cutoffs,
        k.reason = .depthLimit → k ∈ s.cutoffs) ∧
      ∀ k ∈ ((analyze p c).final {}).cutoffs, k.reason ≠ .depthLimit) := by
  refine ⟨fun d res hd h hres => analyze_of_larger_limit hd h hres, fun hcount => ?_⟩
  have hnever : ∀ f k, Cutoff.Arises p c f k → k.reason ≠ .depthLimit :=
    fun f k h hk => absurd (h.lt_definedCount hk) (by omega)
  constructor
  · intro root s hrest
    have hrun := run_keeps_cutoffs (P := fun k => k.reason = .depthLimit → k ∈ s.cutoffs)
      (fun f k h hk => absurd hk (hnever f k h)) root
    exact (hrun.final ⟨hrest, fun k hk _ => hk⟩).2
  · have hanalyze : Keeps (fun s : Session => s.path = [] ∧ ∀ k ∈ s.cutoffs,
        k.reason ≠ .depthLimit) (fun _ => True) (analyze p c) :=
      Keeps.bind (runAllBy_keeps_cutoffs hnever {} p.functionIds)
        (fun edges _ s hs => ⟨trivial, hs⟩)
    exact (hanalyze.final ⟨rfl, by simp⟩).2

/-- Two nested functions are all there is in `pingPong`, and its recursive edges are reported
under every limit from two on. -/
theorem depth_limit_invisible_pingPong : ∃ built res, build pingPong = .ok built ∧
    ⟨.ofNat 2, .ofNat 0, .recursive⟩ ∈ res.cutoffs ∧
    (analyze built.program { maxCallDepth := 2 }).outcome {} = .ok res ∧
    (analyze built.program { maxCallDepth := 64 }).outcome {} = .ok res ∧
    ∀ k ∈ ((analyze built.program { maxCallDepth := 2 }).final {}).cutoffs,
      k.reason ≠ .depthLimit := by
  let cutsRecursion : Results → Bool := fun res =>
    res.cutoffs.contains ⟨.ofNat 2, .ofNat 0, .recursive⟩ &&
      res.cutoffs.toList.all (fun k => k.reason ≠ .depthLimit)
  obtain ⟨built, hbuilt, hanalyze, hcount⟩ : ∃ built, build pingPong = .ok built ∧
      ((analyze built.program { maxCallDepth := 2 }).outcome {}).toOption.any cutsRecursion =
        true ∧
      built.program.definedCount ≤ 2 := ⟨_, rfl, by decide +kernel, by decide +kernel⟩
  obtain ⟨res, s', hres, hcuts⟩ := Halting.eq_ok_of_outcome_any hanalyze
  obtain ⟨hcut, hall⟩ := Bool.and_eq_true_iff.mp hcuts
  have hok : (analyze built.program { maxCallDepth := 2 }).outcome {} = .ok res :=
    Halting.outcome_eq_ok_iff.mpr ⟨s', hres⟩
  obtain ⟨hsame, hnever⟩ := depth_limit_invisible built.program { maxCallDepth := 2 }
  refine ⟨built, res, hbuilt, hcut, hok, hsame 64 res (by decide) hok ?_, (hnever hcount).2⟩
  intro k hk
  simpa using List.all_eq_true.mp hall k (by simpa using hk)

end CallTargets
