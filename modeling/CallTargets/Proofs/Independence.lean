import CallTargets.Proofs.EdgeTables

/-!
# Runs are independent of each other

A session keeps the cutoffs and the journal of its earlier runs.  No run reads them, and
every run leaves the path of functions as it found it, also when it breaks off deep inside
nested calls.  So a run comes to what it comes to from a fresh session, and the analysis of
a program is put together from the fresh runs of its roots.
-/

namespace CallTargets

namespace Halting

variable {ε σ α : Type}

/-- The state in which a computation ends, with or without a result. -/
def final (x : Halting ε σ α) (s : σ) : σ :=
  match x s with
  | .ok _ s' => s'
  | .error _ s' => s'

theorem final_of_eq {x : Halting ε σ α} {s s' : σ} {out : Failing ε α}
    (h : x s = ofFailing out s') : x.final s = s' := by
  rw [final, h]
  cases out <;> rfl

theorem Keeps.final {I : σ → Prop} {P : α → Prop} {x : Halting ε σ α} (h : Keeps I P x) {s : σ}
    (hs : I s) : I (x.final s) := by
  have hkeeps := h s hs
  unfold Halting.final
  cases hx : x s with
  | ok a s' =>
      rw [hx] at hkeeps
      exact hkeeps.2
  | error halt s' =>
      rw [hx] at hkeeps
      exact hkeeps

end Halting

/-- The first session went on from `base`, while the second did the same from the start. -/
def Coupling.resumed (base : Session) : Coupling where
  Rel path s t := (s.path = path ∧ t.path = path) ∧
    s.cutoffs = base.cutoffs ∪ t.cutoffs ∧ s.journal = t.journal ++ base.journal
  path_left h := h.1.1
  path_right h := h.1.2
  note := by
    rintro path s t n ⟨⟨rfl, hpath⟩, hcutoffs, hjournal⟩
    refine ⟨⟨rfl, hpath⟩, hcutoffs, ?_⟩
    simp [Session.note, hpath, hjournal]
  cut := by
    rintro path s t k ⟨⟨rfl, hpath⟩, hcutoffs, hjournal⟩
    refine ⟨⟨rfl, hpath⟩, ?_, ?_⟩
    · apply Std.ExtTreeSet.ext_mem
      intro x
      simp only [Session.cut, hcutoffs, Std.ExtTreeSet.mem_insert, Std.ExtTreeSet.mem_union_iff]
      exact or_left_comm
    · simp [Session.cut, Session.note, hpath, hjournal]
  enter f h := ⟨⟨congrArg (f :: ·) h.1.1, congrArg (f :: ·) h.1.2⟩, h.2⟩
  leave h := ⟨⟨congrArg List.tail h.1.1, congrArg List.tail h.1.2⟩, h.2⟩

/-! ## Single runs -/

/-- What a run comes to from a fresh session. -/
def freshRun (p : Program) (c : Config) (f : FuncId) : Failing Unsupported RootResult :=
  (run p c f).outcome {}

/-- The edges that a run from a fresh session does not follow. -/
def freshCutoffs (p : Program) (c : Config) (f : FuncId) : Std.ExtTreeSet Cutoff :=
  ((run p c f).final {}).cutoffs

variable {p : Program} {c : Config}

theorem run_coupled (f : FuncId) {s : Session} (hrest : s.path = []) :
    ∃ out, run p c f s = Halting.ofFailing out ((run p c f).final s) ∧
      run p c f {} = Halting.ofFailing out ((run p c f).final {}) ∧
      (Coupling.resumed s).Rel [] ((run p c f).final s) ((run p c f).final {}) := by
  have hself : Entering.AgreeOff (.resumed s) p [] (enterBody p c) (enterBody p c) :=
    analyzeBody_agree le_rfl le_rfl (.nil p) (by simp) (by simp)
  obtain ⟨out, -, hcomputes⟩ := runBy_agree hself f
  have hstart : (Coupling.resumed s).Rel [] s {} := by
    refine ⟨⟨hrest, rfl⟩, ?_, by simp⟩
    apply Std.ExtTreeSet.ext_mem
    simp
  obtain ⟨s', t', hrel, hrun, hfresh⟩ := hcomputes s {} hstart
  change run p c f s = _ at hrun
  change run p c f {} = _ at hfresh
  rw [Halting.final_of_eq hrun, Halting.final_of_eq hfresh]
  exact ⟨out, hrun, hfresh, hrel⟩

/-- A run from a session at rest does what it does from a fresh one, on top of what the
session remembers. -/
theorem run_resumed (f : FuncId) {s : Session} (hrest : s.path = []) :
    ∃ s', run p c f s = Halting.ofFailing (freshRun p c f) s' ∧ s'.path = [] ∧
      s'.cutoffs = s.cutoffs ∪ freshCutoffs p c f := by
  obtain ⟨out, hrun, hfresh, ⟨hpath, -⟩, hcutoffs, -⟩ := run_coupled (p := p) (c := c) f hrest
  have hout : freshRun p c f = out := Halting.outcome_of_eq hfresh
  exact ⟨_, hout ▸ hrun, hpath, hcutoffs⟩

theorem final_path_eq (f : FuncId) {s : Session} (hrest : s.path = []) :
    ((run p c f).final s).path = [] := by
  obtain ⟨s', hrun, hpath, -⟩ := run_resumed f hrest
  rw [Halting.final_of_eq hrun]
  exact hpath

/-- The sessions that earlier runs can have left behind.  Each run has come to a result or
has met an unsupported instruction, at any depth of nested calls. -/
inductive Session.Reached (p : Program) (c : Config) : Session → Prop where
  | fresh : Reached p c {}
  | run {s s' : Session} {f : FuncId} {r : RootResult} (h : Reached p c s)
      (hrun : CallTargets.run p c f s = .ok r s') : Reached p c s'
  | refused {s s' : Session} {f : FuncId} {e : Unsupported} (h : Reached p c s)
      (hrun : CallTargets.run p c f s = .error (.failed e) s') : Reached p c s'

theorem Session.Reached.path_eq {s : Session} (h : Session.Reached p c s) : s.path = [] := by
  induction h with
  | fresh => rfl
  | @run s s' f r h hrun ih =>
      have hfinal : (CallTargets.run p c f).final s = s' := by rw [Halting.final, hrun]
      rw [← hfinal]
      exact final_path_eq f ih
  | @refused s s' f e h hrun ih =>
      have hfinal : (CallTargets.run p c f).final s = s' := by rw [Halting.final, hrun]
      rw [← hfinal]
      exact final_path_eq f ih

/-! ## Roots -/

/-- A function that is defined and not intrinsic. -/
def IsRoot (p : Program) (c : Config) (f : FuncId) : Prop :=
  ∃ fn, p.function f = .ok fn ∧ fn.isDeclaration = false ∧ c.marksIntrinsic fn.name = false

theorem isRoot_of_function {f : FuncId} {fn : Function} (hfn : p.function f = .ok fn) :
    isRoot p c f = .ok (!fn.isDeclaration && !c.marksIntrinsic fn.name) := by
  simp [isRoot, Program.isIntrinsic, hfn, bind, Except.bind, pure, Except.pure]

theorem mem_functionIds {f : FuncId} : f ∈ p.functionIds ↔ ∃ fn, p.function f = .ok fn := by
  unfold Program.functionIds Program.function
  simp only [List.mem_map, List.mem_range, fetch_eq_ok_iff]
  constructor
  · rintro ⟨i, hi, rfl⟩
    have hbound : (Ident.ofNat i : FuncId).index < p.functions.size :=
      lt_of_le_of_lt (Nat.mod_le i _) hi
    exact ⟨_, Array.getElem?_eq_getElem hbound⟩
  · rintro ⟨fn, hfn⟩
    exact ⟨f.index, (Array.getElem?_eq_some_iff.mp hfn).1, f.ofNat_index⟩

/-- Functions with smaller numbers come first. -/
theorem mem_before_of_index_lt {before after : List FuncId} {f g : FuncId} {fn : Function}
    (hsplit : p.functionIds = before ++ f :: after) (hg : p.function g = .ok fn)
    (hlt : g.index < f.index) : g ∈ before := by
  have hlength : before.length < p.functions.size := by
    have hlengths := congrArg List.length hsplit
    simp [Program.functionIds] at hlengths
    omega
  have hposition : ∀ i, i < p.functions.size → p.functionIds[i]? = some (.ofNat i) := by
    intro i hi
    simp [Program.functionIds, hi]
  have hf : f = .ofNat before.length := by
    have hhere := hposition before.length hlength
    rw [hsplit] at hhere
    simpa using hhere
  have hindex : f.index ≤ before.length := by
    rw [hf, Ident.index_ofNat]
    exact Nat.mod_le _ _
  have hgindex : g.index < p.functions.size :=
    (Array.getElem?_eq_some_iff.mp (fetch_eq_ok_iff.mp hg)).1
  have hthere := hposition g.index hgindex
  rw [hsplit, List.getElem?_append_left (by omega), g.ofNat_index] at hthere
  exact List.mem_of_getElem? hthere

theorem runAllBy_cons {enter : Entering} {found : Edges} {f : FuncId} {rest : List FuncId}
    {fn : Function} (hfn : p.function f = .ok fn) :
    runAllBy p c enter found (f :: rest) =
      if !fn.isDeclaration && !c.marksIntrinsic fn.name then
        runBy p enter f >>= fun r => runAllBy p c enter (found.merge r.edges) rest
      else runAllBy p c enter found rest := by
  rw [runAllBy, isRoot_of_function hfn]
  rfl

/-- The roots among some functions, each with what its fresh run found. -/
structure Gathered (p : Program) (c : Config) (funcs : List FuncId)
    (roots : List (FuncId × RootResult)) : Prop where
  fresh : ∀ f r, (f, r) ∈ roots ↔ f ∈ funcs ∧ IsRoot p c f ∧ freshRun p c f = .ok r
  all : ∀ f ∈ funcs, IsRoot p c f → ∃ r, freshRun p c f = .ok r

theorem Gathered.skip {f : FuncId} {rest : List FuncId} {roots : List (FuncId × RootResult)}
    (h : Gathered p c rest roots) (hf : ¬ IsRoot p c f) : Gathered p c (f :: rest) roots := by
  constructor
  · intro g r
    rw [h.fresh, List.mem_cons]
    constructor
    · rintro ⟨hg, hrest⟩
      exact ⟨Or.inr hg, hrest⟩
    · rintro ⟨rfl | hg, hrest⟩
      · exact absurd hrest.1 hf
      · exact ⟨hg, hrest⟩
  · intro g hg hroot
    rcases List.mem_cons.mp hg with rfl | hg
    · exact absurd hroot hf
    · exact h.all g hg hroot

theorem Gathered.cons {f : FuncId} {r : RootResult} {rest : List FuncId}
    {roots : List (FuncId × RootResult)} (h : Gathered p c rest roots) (hf : IsRoot p c f)
    (hr : freshRun p c f = .ok r) : Gathered p c (f :: rest) ((f, r) :: roots) := by
  constructor
  · intro g r'
    rw [List.mem_cons, h.fresh, List.mem_cons, Prod.mk.injEq]
    constructor
    · rintro (⟨rfl, rfl⟩ | ⟨hg, hrest⟩)
      · exact ⟨Or.inl rfl, hf, hr⟩
      · exact ⟨Or.inr hg, hrest⟩
    · rintro ⟨rfl | hg, hroot, hr'⟩
      · rw [hr] at hr'
        cases hr'
        exact Or.inl ⟨rfl, rfl⟩
      · exact Or.inr ⟨hg, hroot, hr'⟩
  · intro g hg hroot
    rcases List.mem_cons.mp hg with rfl | hg
    · exact ⟨r, hr⟩
    · exact h.all g hg hroot

/-- The first root among some functions whose fresh run fails. -/
structure FirstFailure (p : Program) (c : Config) (funcs : List FuncId) (f : FuncId)
    (halt : Halt Unsupported) : Prop where
  isRoot : IsRoot p c f
  fails : freshRun p c f = .error halt
  first : ∃ before after, funcs = before ++ f :: after ∧
    ∀ g ∈ before, IsRoot p c g → ∃ r, freshRun p c g = .ok r

theorem FirstFailure.cons {f g : FuncId} {rest : List FuncId} {halt : Halt Unsupported}
    (h : FirstFailure p c rest f halt) (hg : IsRoot p c g → ∃ r, freshRun p c g = .ok r) :
    FirstFailure p c (g :: rest) f halt := by
  obtain ⟨before, after, rfl, hok⟩ := h.first
  refine ⟨h.isRoot, h.fails, g :: before, after, rfl, fun f' hf' => ?_⟩
  rcases List.mem_cons.mp hf' with rfl | hf'
  · exact hg
  · exact hok f' hf'

/-- Roots are analysed until one fails.  If none does, their edges are merged. -/
theorem runAllBy_cases (funcs : List FuncId) (hfuncs : ∀ f ∈ funcs, ∃ fn, p.function f = .ok fn)
    (found : Edges) {s : Session} (hrest : s.path = []) :
    (∃ roots s', Gathered p c funcs roots ∧
      runAllBy p c (enterBody p c) found funcs s =
        .ok (roots.foldl (fun edges root => edges.merge root.2.edges) found) s' ∧
      ∀ k, k ∈ s'.cutoffs ↔ k ∈ s.cutoffs ∨ ∃ root ∈ roots, k ∈ freshCutoffs p c root.1) ∨
    ∃ f halt s', FirstFailure p c funcs f halt ∧
      runAllBy p c (enterBody p c) found funcs s = .error halt s' := by
  induction funcs generalizing found s with
  | nil => exact Or.inl ⟨[], s, ⟨by simp, by simp⟩, rfl, by simp⟩
  | cons f rest ih =>
      obtain ⟨fn, hfn⟩ := hfuncs f List.mem_cons_self
      have hrest' := fun g hg => hfuncs g (List.mem_cons_of_mem f hg)
      rw [runAllBy_cons hfn]
      by_cases hroot : (!fn.isDeclaration && !c.marksIntrinsic fn.name) = true
      · have hf : IsRoot p c f := ⟨fn, hfn, by simpa using hroot⟩
        obtain ⟨s₁, hrun, hpath, hcutoffs⟩ := run_resumed (p := p) (c := c) f hrest
        rw [if_pos hroot, Halting.bind_apply, ← run, hrun]
        cases hfresh : freshRun p c f with
        | error halt =>
            exact Or.inr ⟨f, halt, s₁, ⟨hf, hfresh, [], rest, rfl, by simp⟩, rfl⟩
        | ok r =>
            rcases ih hrest' (found.merge r.edges) hpath with
              ⟨roots, s', hroots, heq, hmem⟩ | ⟨g, halt, s', hfirst, heq⟩
            · refine Or.inl ⟨(f, r) :: roots, s', hroots.cons hf hfresh, heq, fun k => ?_⟩
              rw [hmem, hcutoffs, Std.ExtTreeSet.mem_union_iff, or_assoc]
              simp
            · exact Or.inr ⟨g, halt, s', hfirst.cons (fun _ => ⟨r, hfresh⟩), heq⟩
      · have hf : ¬ IsRoot p c f := by
          rintro ⟨fn', hfn', hroot'⟩
          rw [hfn] at hfn'
          cases hfn'
          simp [hroot'] at hroot
        rw [if_neg hroot]
        rcases ih hrest' found hrest with
          ⟨roots, s', hroots, heq, hmem⟩ | ⟨g, halt, s', hfirst, heq⟩
        · exact Or.inl ⟨roots, s', hroots.skip hf, heq, hmem⟩
        · exact Or.inr ⟨g, halt, s', hfirst.cons (fun hroot' => absurd hroot' hf), heq⟩

/-! ## Programs -/

theorem Edges.faithful_of_freshRun {f : FuncId} {r : RootResult} (h : freshRun p c f = .ok r) :
    Edges.Faithful p r.summary r.edges := by
  obtain ⟨s', h⟩ := Halting.outcome_eq_ok_iff.mp h
  obtain ⟨fn, -, -, -, hedges⟩ := runBy_eq_ok h
  exact Edges.faithful_ofSummary hedges

/-- The results that are put together from the fresh runs of all roots. -/
structure Results.Combine (p : Program) (c : Config) (res : Results) : Prop where
  sites : res.sites.IsUnion
    (fun t => ∃ f r, IsRoot p c f ∧ freshRun p c f = .ok r ∧ t = r.edges.sites)
  targets : res.targets.IsUnion
    (fun t => ∃ f r, IsRoot p c f ∧ freshRun p c f = .ok r ∧ t = r.edges.targets)
  cutoffs : ∀ k, k ∈ res.cutoffs ↔ ∃ f, IsRoot p c f ∧ k ∈ freshCutoffs p c f

theorem Gathered.mem_iff {roots : List (FuncId × RootResult)}
    (h : Gathered p c p.functionIds roots) {f : FuncId} {r : RootResult} :
    (f, r) ∈ roots ↔ IsRoot p c f ∧ freshRun p c f = .ok r := by
  rw [h.fresh]
  constructor
  · exact fun hr => hr.2
  · intro hr
    obtain ⟨fn, hfn, -⟩ := hr.1
    exact ⟨mem_functionIds.mpr ⟨fn, hfn⟩, hr⟩

theorem Gathered.isUnion {κ : Type} [Ord κ] [Std.TransOrd κ] [Std.LawfulEqOrd κ]
    {roots : List (FuncId × RootResult)} (h : Gathered p c p.functionIds roots)
    (table : Edges → CalleeTable κ)
    (hproper : ∀ f r, freshRun p c f = .ok r → (table r.edges).Proper) :
    (roots.foldl (fun (t : CalleeTable κ) root => t.merge (table root.2.edges)) ∅).IsUnion
      (fun t => ∃ f r, IsRoot p c f ∧ freshRun p c f = .ok r ∧ t = table r.edges) := by
  have hparts : (fun t => ∃ root ∈ roots, t = table root.2.edges) =
      (fun t => ∃ f r, IsRoot p c f ∧ freshRun p c f = .ok r ∧ t = table r.edges) := by
    funext t
    apply propext
    constructor
    · rintro ⟨⟨f, r⟩, hmem, ht⟩
      obtain ⟨hf, hr⟩ := h.mem_iff.mp hmem
      exact ⟨f, r, hf, hr, ht⟩
    · rintro ⟨f, r, hf, hr, ht⟩
      exact ⟨(f, r), h.mem_iff.mpr ⟨hf, hr⟩, ht⟩
  rw [← hparts]
  apply CalleeTable.isUnion_foldl_merge
  rintro ⟨f, r⟩ hmem
  exact hproper f r (h.mem_iff.mp hmem).2

theorem outcome_analyze {edges : Edges} {s' : Session}
    (h : runAllBy p c (enterBody p c) {} p.functionIds {} = .ok edges s') :
    (analyze p c).outcome {} = .ok ⟨edges.sites, edges.targets, s'.cutoffs⟩ := by
  unfold analyze analyzeBy Halting.outcome
  rw [Halting.bind_apply, h]
  rfl

/-- The analysis succeeds on what all roots found, or fails with the first root that
fails. -/
theorem analyze_cases (p : Program) (c : Config) :
    (∃ res, (analyze p c).outcome {} = .ok res ∧ res.Combine p c ∧
      ∀ f, IsRoot p c f → ∃ r, freshRun p c f = .ok r) ∨
    ∃ f halt, (analyze p c).outcome {} = .error halt ∧ IsRoot p c f ∧
      freshRun p c f = .error halt ∧
      ∀ g, IsRoot p c g → g.index < f.index → ∃ r, freshRun p c g = .ok r := by
  have hrest : ({} : Session).path = [] := rfl
  rcases runAllBy_cases (c := c) p.functionIds (fun f hf => mem_functionIds.mp hf) {} hrest with
    ⟨roots, s', hroots, heq, hmem⟩ | ⟨f, halt, s', hfirst, heq⟩
  · have hall : ∀ f, IsRoot p c f → ∃ r, freshRun p c f = .ok r := by
      intro f hf
      obtain ⟨fn, hfn, -⟩ := id hf
      exact hroots.all f (mem_functionIds.mpr ⟨fn, hfn⟩) hf
    refine Or.inl ⟨_, outcome_analyze heq, ⟨?_, ?_, fun k => ?_⟩, hall⟩
    · rw [Edges.foldl_merge_sites (fun root : FuncId × RootResult => root.2.edges)]
      exact hroots.isUnion Edges.sites (fun f r hr => (Edges.faithful_of_freshRun hr).sites_proper)
    · rw [Edges.foldl_merge_targets (fun root : FuncId × RootResult => root.2.edges)]
      exact hroots.isUnion Edges.targets
        (fun f r hr => (Edges.faithful_of_freshRun hr).targets_proper)
    · rw [hmem, or_iff_right (by simp)]
      constructor
      · rintro ⟨⟨f, r⟩, hr, hk⟩
        exact ⟨f, (hroots.mem_iff.mp hr).1, hk⟩
      · rintro ⟨f, hf, hk⟩
        obtain ⟨r, hr⟩ := hall f hf
        exact ⟨(f, r), hroots.mem_iff.mpr ⟨hf, hr⟩, hk⟩
  · obtain ⟨before, after, hsplit, hok⟩ := hfirst.first
    refine Or.inr ⟨f, halt, ?_, hfirst.isRoot, hfirst.fails, fun g hg hlt => ?_⟩
    · unfold analyze analyzeBy Halting.outcome
      rw [Halting.bind_apply, heq]
    · obtain ⟨fn, hfn, -⟩ := id hg
      exact hok g (mem_before_of_index_lt hsplit hfn hlt) hg

theorem analyze_eq_ok {res : Results} (h : (analyze p c).outcome {} = .ok res) :
    res.Combine p c ∧ ∀ f, IsRoot p c f → ∃ r, freshRun p c f = .ok r := by
  rcases analyze_cases p c with ⟨res', hres, hcombine, hall⟩ | ⟨f, halt, hhalt, -⟩
  · rw [h] at hres
    cases hres
    exact ⟨hcombine, hall⟩
  · rw [h] at hhalt
    cases hhalt

/-- Whatever runs a session has seen before, with success or broken off at an unsupported
instruction, the next one comes to what it comes to from a fresh session and adds the
cutoffs of the fresh run to those of the session.  So the analysis of a program succeeds if
and only if the fresh runs of all roots do; its tables and cutoffs are then the unions of
theirs, and otherwise it fails as the first root that fails. -/
theorem runs_independent (p : Program) (c : Config) :
    (∀ s, Session.Reached p c s → ∀ f, (run p c f).outcome s = freshRun p c f ∧
      ((run p c f).final s).cutoffs = s.cutoffs ∪ freshCutoffs p c f) ∧
    ((∃ res, (analyze p c).outcome {} = .ok res) ↔
      ∀ f, IsRoot p c f → ∃ r, freshRun p c f = .ok r) ∧
    (∀ res, (analyze p c).outcome {} = .ok res → res.Combine p c) ∧
    ∀ halt, (analyze p c).outcome {} = .error halt →
      ∃ f, IsRoot p c f ∧ freshRun p c f = .error halt ∧
        ∀ g, IsRoot p c g → g.index < f.index → ∃ r, freshRun p c g = .ok r := by
  refine ⟨fun s hs f => ?_, ?_⟩
  · obtain ⟨s', hrun, -, hcutoffs⟩ := run_resumed f hs.path_eq
    refine ⟨Halting.outcome_of_eq hrun, ?_⟩
    rw [Halting.final_of_eq hrun, hcutoffs]
  · rcases analyze_cases p c with ⟨res, hres, hcombine, hall⟩ | ⟨f, halt, hhalt, hf, hfresh, hfirst⟩
    · rw [hres]
      refine ⟨⟨fun _ => hall, fun _ => ⟨res, rfl⟩⟩, ?_, nofun⟩
      rintro _ ⟨⟩
      exact hcombine
    · rw [hhalt]
      refine ⟨⟨nofun, fun hall => ?_⟩, nofun, ?_⟩
      · obtain ⟨r, hr⟩ := hall f hf
        rw [hfresh] at hr
        cases hr
      · rintro _ ⟨⟩
        exact ⟨f, hf, hfresh, hfirst⟩

/-- A step backwards that cannot be followed, a call that leads to it, and a function that
calls itself. -/
def refusing : List Step :=
  [.define "back" [.ptr] .void, .int (-1), .gep "at" (.int 8) (.ofNat 1) [.ofNat 2], .ret none,
    .define "lead" [] .void, .alloca "here" (.int 8), .call "" .void (.ofNat 0) [.ofNat 6],
    .ret none, .define "spin" [] .void, .call "" .void (.ofNat 9) [], .ret none]

/-- The failed run of `lead` leaves no trace on the run of `spin`, whose call of itself is
cut off in any case. -/
theorem runs_independent_refusing : ∃ built e s r halt f, build refusing = .ok built ∧
    run built.program {} (.ofNat 1) {} = .error (.failed e) s ∧
    freshRun built.program {} (.ofNat 2) = .ok r ∧
    (run built.program {} (.ofNat 2)).outcome s = .ok r ∧
    ⟨.ofNat 10, .ofNat 2, .recursive⟩ ∈ ((run built.program {} (.ofNat 2)).final s).cutoffs ∧
    (analyze built.program {}).outcome {} = .error halt ∧
    freshRun built.program {} f = .error halt := by
  let refused : Program → Bool := fun p =>
    match run p {} (.ofNat 1) {} with
    | .error (.failed _) _ => true
    | _ => false
  obtain ⟨built, fn, hbuilt, hrefused, hspin, hcut, hroot⟩ : ∃ built fn,
      build refusing = .ok built ∧ refused built.program = true ∧
      (freshRun built.program {} (.ofNat 2)).toOption.any (fun _ => true) = true ∧
      (freshCutoffs built.program {} (.ofNat 2)).contains ⟨.ofNat 10, .ofNat 2, .recursive⟩ =
        true ∧
      built.program.function (.ofNat 1) = .ok fn ∧ fn.isDeclaration = false ∧
      Config.marksIntrinsic {} fn.name = false :=
    ⟨_, _, rfl, by decide +kernel, by decide +kernel, by decide +kernel, rfl, rfl, by decide⟩
  obtain ⟨e, s, hrun⟩ : ∃ e s, run built.program {} (.ofNat 1) {} = .error (.failed e) s := by
    revert hrefused
    dsimp only [refused]
    cases run built.program {} (.ofNat 1) {} with
    | ok r s => exact nofun
    | error halt s =>
        cases halt with
        | failed e => exact fun _ => ⟨e, s, rfl⟩
        | fault cause => exact nofun
        | exhausted => exact nofun
  obtain ⟨r, s₂, hr, -⟩ := Halting.eq_ok_of_outcome_any hspin
  have hfresh : freshRun built.program {} (.ofNat 2) = .ok r :=
    Halting.outcome_eq_ok_iff.mpr ⟨s₂, hr⟩
  obtain ⟨hruns, hall, -, hfails⟩ := runs_independent built.program {}
  obtain ⟨hsame, hcutoffs⟩ := hruns s (.refused .fresh hrun) (.ofNat 2)
  have hmem : ⟨.ofNat 10, .ofNat 2, .recursive⟩ ∈
      ((run built.program {} (.ofNat 2)).final s).cutoffs := by
    rw [hcutoffs]
    exact Std.ExtTreeSet.mem_union_iff.mpr (Or.inr hcut)
  have hlead : ¬ ∃ r, freshRun built.program {} (.ofNat 1) = .ok r := by
    rintro ⟨r', hr'⟩
    rw [freshRun, Halting.outcome, hrun] at hr'
    cases hr'
  cases hanalyze : (analyze built.program {}).outcome {} with
  | ok res => exact absurd (hall.mp ⟨res, hanalyze⟩ (.ofNat 1) ⟨fn, hroot⟩) hlead
  | error halt =>
      obtain ⟨f, -, hf, -⟩ := hfails halt hanalyze
      exact ⟨built, e, s, r, halt, f, hbuilt, hrun, hfresh, hsame.trans hfresh, hmem, hanalyze, hf⟩

end CallTargets
