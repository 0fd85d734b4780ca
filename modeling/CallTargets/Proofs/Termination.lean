import CallTargets.Program.Builder
import CallTargets.Proofs.CallAgreement
import CallTargets.Proofs.SearchDepth
import CallTargets.Proofs.SolverBudget
import CallTargets.Proofs.StoreHeight

/-!
# The analysis ends

The bodies of callees are analysed inside the bodies of their callers.  A function is
entered only when it is not on the path, so the nesting goes no deeper than there are
functions, and each solver on the way stays within its budget because stores can only
grow so often.  The bounds are therefore no part of the answer: larger ones give the
same outcome and the same session.
-/

namespace CallTargets

open Halting (Agree)

theorem Store.isSemilattice_join : IsSemilattice Store.join :=
  ⟨Store.join_assoc, Store.join_comm, Store.join_self⟩

theorem Store.ascends_join : Ascends Store.join Store.rank Store.height :=
  ⟨Store.rank_le_height, Store.join_eq_or_rank_lt⟩

/-! ## Paths -/

/-- The functions on a path exist and are all different. -/
structure IsPath (p : Program) (path : List FuncId) : Prop where
  nodup : path.Nodup
  defined : ∀ f ∈ path, ∃ fn, p.function f = .ok fn

namespace IsPath

variable {p : Program} {path : List FuncId} {f : FuncId} {fn : Function}

theorem nil (p : Program) : IsPath p [] := ⟨List.nodup_nil, by simp⟩

theorem cons (h : IsPath p path) (hfn : p.function f = .ok fn) (hf : f ∉ path) :
    IsPath p (f :: path) := by
  refine ⟨List.nodup_cons.mpr ⟨hf, h.nodup⟩, fun f' hf' => ?_⟩
  rcases List.mem_cons.mp hf' with rfl | hf'
  · exact ⟨fn, hfn⟩
  · exact h.defined f' hf'

theorem length_le (h : IsPath p path) : path.length ≤ p.functions.size := by
  have hnodup : (path.map Ident.index).Nodup :=
    h.nodup.map (fun _ _ heq => Ident.ext_index heq)
  have hsubset : path.map Ident.index ⊆ List.range p.functions.size := by
    intro i hi
    obtain ⟨f, hf, rfl⟩ := List.mem_map.mp hi
    obtain ⟨fn, hfn⟩ := h.defined f hf
    exact List.mem_range.mpr (Array.getElem?_eq_some_iff.mp (fetch_eq_ok_iff.mp hfn)).1
  simpa using (hnodup.subperm hsubset).length_le

/-- What holds on a path as soon as it holds on all its extensions by one function holds on
every path, as only so many functions are left to extend it by. -/
theorem extension_induction {motive : (path : List FuncId) → IsPath p path → Prop}
    (extend : ∀ path (h : IsPath p path), (∀ f fn (hfn : p.function f = .ok fn) (hf : f ∉ path),
      motive (f :: path) (h.cons hfn hf)) → motive path h)
    {path : List FuncId} (h : IsPath p path) : motive path h := by
  induction hn : p.functions.size - path.length using Nat.strong_induction_on
    generalizing path with
  | _ n ih =>
      refine extend path h (fun f fn hfn hf => ?_)
      have hlength := (h.cons hfn hf).length_le
      rw [List.length_cons] at hlength
      exact ih _ (by rw [List.length_cons]; omega) (h.cons hfn hf) rfl

end IsPath

/-! ## Bodies -/

theorem Analysis.within_agree {ε α : Type} {R : Coupling} {path : List FuncId} {f : FuncId}
    {x y : Analysis ε α} (h : Agree (R.Rel (f :: path)) x y) :
    Agree (R.Rel path) (Analysis.within f x) (Analysis.within f y) := by
  obtain ⟨out, hout, h⟩ := h
  refine ⟨out, hout, fun s t hst => ?_⟩
  obtain ⟨s', t', hst', hx, hy⟩ := h _ _ (R.enter f hst)
  refine ⟨s'.leave, t'.leave, R.leave hst', ?_, ?_⟩
  · rw [Analysis.within, hx]
    cases out <;> rfl
  · rw [Analysis.within, hy]
    cases out <;> rfl

variable {R : Coupling} {p : Program} {c : Config}

theorem storeVisitor_computes {path : List FuncId} {enter₁ enter₂ : Entering}
    (henter : Entering.AgreeOff R p path enter₁ enter₂) :
    ∃ transfer : ValueId → Store → Failing Unsupported Store,
      (∀ inst s, (transfer inst s).Ends) ∧
        Visitor.Computes (R.Rel path) (storeVisitor p c enter₁) (storeVisitor p c enter₂)
          transfer := by
  have hagree : ∀ inst s, Agree (R.Rel path)
      ((storeVisitor p c enter₁).transfer inst s) ((storeVisitor p c enter₂).transfer inst s) :=
    fun inst s => (transferInst_agree henter inst s).mapFailure
  choose transfer hends hcomputes using hagree
  exact ⟨transfer, hends, rfl, fun _ _ _ _ h => h, hcomputes⟩

theorem forward_agree {path : List FuncId} {enter₁ enter₂ : Entering}
    (henter : Entering.AgreeOff R p path enter₁ enter₂) {height₁ height₂ : Nat}
    (h₁ : Store.height ≤ height₁) (h₂ : Store.height ≤ height₂) (f : FuncId) (init : Store) :
    Agree (R.Rel path) (forward p f (storeVisitor p c enter₁) height₁ init)
      (forward p f (storeVisitor p c enter₂) height₂ init) := by
  obtain ⟨transfer, hends, hcomputes⟩ := storeVisitor_computes (c := c) henter
  have hheight := fun {more : Nat} (hmore : Store.height ≤ more) =>
    (plainForward_height Store.isSemilattice_join Store.ascends_join hends p f init
      hmore hmore).2
  exact ⟨_, hheight h₁, hcomputes.forward p f init (Or.inr ⟨hheight h₁, hheight h₂⟩)⟩

/-- From a path of functions, any two bounds that leave room for the remaining
functions and for all growth of stores give the same analysis of a body. -/
theorem analyzeBody_agree {height₁ height₂ depth₁ depth₂ : Nat} {path : List FuncId}
    (h₁ : Store.height ≤ height₁) (h₂ : Store.height ≤ height₂) (hpath : IsPath p path)
    (hd₁ : p.functions.size ≤ depth₁ + path.length)
    (hd₂ : p.functions.size ≤ depth₂ + path.length) :
    Entering.AgreeOff R p path (analyzeBody p c height₁ depth₁)
      (analyzeBody p c height₂ depth₂) := by
  intro f fn init hfn hf
  have hpath' := hpath.cons hfn hf
  have hlength := hpath'.length_le
  rw [List.length_cons] at hlength
  induction depth₁ generalizing depth₂ path f fn init with
  | zero => omega
  | succ depth₁ ih =>
      -- There is room for `f` on the path, so the second bound is not zero either.
      obtain ⟨depth₂, rfl⟩ : ∃ n, depth₂ = n + 1 := ⟨depth₂ - 1, by omega⟩
      refine Analysis.within_agree (forward_agree (fun f' fn' init' hfn' hf' => ?_) h₁ h₂ f init)
      have hpath'' := hpath'.cons hfn' hf'
      exact ih hpath' (by rw [List.length_cons]; omega) (by rw [List.length_cons]; omega)
        f' fn' init' hfn' hf' hpath'' (by simpa using hpath''.length_le)

/-! ## Roots -/

theorem runBy_agree {enter₁ enter₂ : Entering} (henter : Entering.AgreeOff R p [] enter₁ enter₂)
    (f : FuncId) : Agree (R.Rel []) (runBy p enter₁ f) (runBy p enter₂ f) := by
  refine Agree.ofExcept_bind (fun fn hfn => Agree.bind (Call.agree_note _) (fun _ => ?_))
  refine Agree.bind (henter f fn ∅ hfn (by simp)) (fun states => ?_)
  exact Agree.ofExcept_bind (fun _ _ => Agree.pure _)

theorem runAllBy_agree {enter₁ enter₂ : Entering}
    (henter : Entering.AgreeOff R p [] enter₁ enter₂) (found : Edges) (funcs : List FuncId) :
    Agree (R.Rel []) (runAllBy p c enter₁ found funcs) (runAllBy p c enter₂ found funcs) := by
  induction funcs generalizing found with
  | nil => exact Agree.pure found
  | cons f rest ih =>
      refine Agree.ofExcept_bind (fun isRoot _ => ?_)
      cases isRoot with
      | false => exact ih found
      | true => exact Agree.bind (runBy_agree henter f) (fun result => ih _)

/-- Reading the cutoffs at the end needs sessions that are one and the same. -/
theorem analyzeBy_agree {enter₁ enter₂ : Entering}
    (henter : Entering.AgreeOff .equal p [] enter₁ enter₂) {session : Session}
    (hrest : session.path = []) :
    ((analyzeBy p c enter₁).outcome session).Ends ∧
      analyzeBy p c enter₁ session = analyzeBy p c enter₂ session := by
  obtain ⟨out, hout, hcomputes⟩ := runAllBy_agree (c := c) henter {} p.functionIds
  obtain ⟨s, t, ⟨rfl, -⟩, h₁, h₂⟩ := hcomputes session session ⟨rfl, hrest⟩
  unfold analyzeBy Halting.outcome
  rw [Halting.bind_apply, Halting.bind_apply, h₁, h₂]
  refine ⟨?_, rfl⟩
  cases out with
  | ok edges => exact .ok _
  | error halt =>
      intro hspent
      cases hspent
      exact hout rfl

/-- From a session at rest, the analysis of every root and of the whole program comes to
a result, an unsupported instruction or a fault.  Bounds on the growth of stores and on
the nesting of calls that are at least as large as the built-in ones lead to the same
outcome and the same session, and so does a larger bound on the search for the visiting
order. -/
theorem analysis_ends (p : Program) (c : Config) {session : Session}
    (hrest : session.path = []) :
    (∀ f, ((run p c f).outcome session).Ends ∧
      ∀ height depth, Store.height ≤ height → p.functions.size ≤ depth →
        runBy p (analyzeBody p c height depth) f session = run p c f session) ∧
    ((analyze p c).outcome session).Ends ∧
    (∀ height depth, Store.height ≤ height → p.functions.size ≤ depth →
      analyzeBy p c (analyzeBody p c height depth) session = analyze p c session) ∧
    ∀ b depth, p.blocks.size < depth → Search.visit p depth ⟨∅, []⟩ b = Search.reach p b := by
  have hagree : ∀ {height depth : Nat}, Store.height ≤ height → p.functions.size ≤ depth →
      Entering.AgreeOff .equal p [] (analyzeBody p c height depth) (enterBody p c) :=
    fun hheight hdepth => analyzeBody_agree hheight le_rfl (.nil p) hdepth (by simp)
  have hself : Entering.AgreeOff .equal p [] (enterBody p c) (enterBody p c) :=
    hagree le_rfl (by simp)
  refine ⟨fun f => ⟨?_, fun height depth hheight hdepth => ?_⟩, ?_, ?_, ?_⟩
  · obtain ⟨out, hout, hcomputes⟩ := runBy_agree hself f
    obtain ⟨s, -, -, h, -⟩ := hcomputes session session ⟨rfl, hrest⟩
    rwa [run, Halting.outcome_of_eq h]
  · obtain ⟨out, -, hcomputes⟩ := runBy_agree (hagree hheight hdepth) f
    obtain ⟨s, t, ⟨rfl, -⟩, h₁, h₂⟩ := hcomputes session session ⟨rfl, hrest⟩
    rw [run, h₁, h₂]
  · exact (analyzeBy_agree hself hrest).1
  · exact fun height depth hheight hdepth =>
      (analyzeBy_agree (hagree hheight hdepth) hrest).2
  · exact fun b depth hdepth => Search.visit_eq_reach hdepth b

/-- A function that moves a pointer on by one slot on each turn of a loop and calls
itself with where it got to. -/
def marching : List Step :=
  [.define "march" [.ptr] .void, .int 1, .block (.ofNat 0) "loop", .br (.ofNat 1),
    .positionAtEnd (.ofNat 1), .phi "at" .ptr, .gep "next" (.int 8) (.ofNat 4) [.ofNat 2],
    .incoming (.ofNat 4) (.ofNat 1) (.ofNat 0), .incoming (.ofNat 4) (.ofNat 5) (.ofNat 1),
    .call "" .void (.ofNat 0) [.ofNat 5], .br (.ofNat 1)]

/-- Only the last slot of a word stops the pointer of `marching`, and still the analysis
is not cut short. -/
theorem analysis_ends_marching : ∃ built, build marching = .ok built ∧
    ((run built.program {} (.ofNat 0)).outcome {}).Ends ∧
    ((analyze built.program {}).outcome {}).Ends ∧
    analyzeBy built.program {} (analyzeBody built.program {} (Store.height + 1) 7) {} =
      analyze built.program {} {} := by
  obtain ⟨built, hbuilt, hsize⟩ : ∃ built, build marching = .ok built ∧
      built.program.functions.size ≤ 7 := ⟨_, rfl, by decide⟩
  have hrest : ({} : Session).path = [] := rfl
  obtain ⟨hrun, hends, hsame, -⟩ := analysis_ends built.program {} hrest
  exact ⟨built, hbuilt, (hrun (.ofNat 0)).1, hends, hsame _ _ (Nat.le_succ _) hsize⟩

end CallTargets
