import CallTargets.Proofs.Independence

/-!
# Where cutoffs come from

A run keeps a journal and collects cutoffs while bodies are analysed inside bodies.  Each
event of the journal tells of a moment of that run, with the path of that moment.  A cutoff
is noted when it is made: a call had recorded its candidates, and one of them, a function
with a body, could not be entered on the path.
-/

namespace CallTargets

variable {p : Program} {c : Config} {root : FuncId} {path : List FuncId} {depth : Nat}

/-- The cutoff was met while a root was analysed. -/
def Cutoff.Arises (p : Program) (c : Config) (root : FuncId) (k : Cutoff) : Prop :=
  ∃ path args funcs before fn, Happens p c root path (.calling k.call args funcs before) ∧
    k.callee ∈ funcs ∧ p.function k.callee = .ok fn ∧ fn.isDeclaration = false ∧
    Call.cutoff? c path k.callee = some k.reason

/-- What an event notes happened on its path while a root was analysed. -/
inductive Event.Happened (p : Program) (c : Config) (root : FuncId) : Event → Prop where
  | analyzing : Happened p c root ⟨[], .analyzing root⟩
  | unresolved {path : List FuncId} {s : Store} {call : ValueId} {rest : List ValueId}
      (h : Happens p c root path (.within s (call :: rest))) :
      Happened p c root ⟨path, .unresolved call⟩
  | mayCall {path : List FuncId} {call : ValueId} {args : List ValueId} {funcs : List FuncId}
      {before : Store} (h : Happens p c root path (.calling call args funcs before)) :
      Happened p c root ⟨path, .mayCall call funcs⟩
  | notEntering {path : List FuncId} {k : Cutoff} {args : List ValueId} {funcs : List FuncId}
      {before : Store} {fn : Function}
      (h : Happens p c root path (.calling k.call args funcs before)) (hf : k.callee ∈ funcs)
      (hfn : p.function k.callee = .ok fn) (hbody : fn.isDeclaration = false)
      (hcutoff : Call.cutoff? c path k.callee = some k.reason) :
      Happened p c root ⟨path, .notEntering k⟩
  | entering {path : List FuncId} {call : ValueId} {args : List ValueId} {funcs : List FuncId}
      {before context : Store} {f : FuncId}
      (h : Happens p c root path (.calling call args funcs before)) (hf : f ∈ funcs)
      (hentered : Happens p c root (f :: path) (.entered context)) :
      Happened p c root ⟨path, .entering call f before context⟩
  | leaving {path : List FuncId} {call : ValueId} {args : List ValueId} {funcs : List FuncId}
      {before context summary : Store} {f : FuncId}
      (h : Happens p c root path (.calling call args funcs before)) (hf : f ∈ funcs)
      (hentered : Happens p c root (f :: path) (.entered context)) :
      Happened p c root ⟨path, .leaving f summary⟩

/-- A session on a path whose journal tells what happened while the root was analysed, with
a note of every cutoff. -/
structure Session.Accounts (p : Program) (c : Config) (root : FuncId) (path : List FuncId)
    (s : Session) : Prop where
  path_eq : s.path = path
  journal : ∀ e ∈ s.journal, e.Happened p c root
  cutoffs : ∀ k ∈ s.cutoffs, ∃ path', ⟨path', .notEntering k⟩ ∈ s.journal

open Halting (Keeps)

theorem Session.Accounts.note {s : Session} (h : s.Accounts p c root path) {n : Note}
    (hn : Event.Happened p c root ⟨path, n⟩) : (s.note n).Accounts p c root path := by
  refine ⟨h.path_eq, fun e he => ?_, fun k hk => ?_⟩
  · rcases List.mem_cons.mp he with rfl | he
    · exact h.path_eq ▸ hn
    · exact h.journal e he
  · obtain ⟨path', hnoted⟩ := h.cutoffs k hk
    exact ⟨path', List.mem_cons_of_mem _ hnoted⟩

theorem Session.Accounts.cut {s : Session} (h : s.Accounts p c root path) {k : Cutoff}
    (hk : Event.Happened p c root ⟨path, .notEntering k⟩) : (s.cut k).Accounts p c root path := by
  have hnote := h.note hk
  refine ⟨hnote.path_eq, hnote.journal, fun k' hk' => ?_⟩
  have hmem : k' ∈ s.cutoffs.insert k := hk'
  rw [Std.ExtTreeSet.mem_insert, Std.LawfulEqOrd.compare_eq_iff_eq] at hmem
  rcases hmem with rfl | hmem
  · exact ⟨s.path, List.mem_cons_self⟩
  · exact hnote.cutoffs k' hmem

theorem Analysis.note_accounts {ε : Type} {n : Note} (hn : Event.Happened p c root ⟨path, n⟩) :
    Keeps (Session.Accounts p c root path) (fun _ => True) (Analysis.note n : Analysis ε Unit) :=
  Keeps.modify (fun _ hs => hs.note hn)

theorem Analysis.within_accounts {ε α : Type} {f : FuncId} {Q : α → Prop} {x : Analysis ε α}
    (h : Keeps (Session.Accounts p c root (f :: path)) Q x) :
    Keeps (Session.Accounts p c root path) Q (Analysis.within f x) := by
  apply h.within
  · exact fun s hs => ⟨congrArg (f :: ·) hs.path_eq, hs.journal, hs.cutoffs⟩
  · exact fun s hs => ⟨congrArg List.tail hs.path_eq, hs.journal, hs.cutoffs⟩

/-! ## Calls -/

/-- Bodies that are entered while the root is analysed leave the account of cutoffs right. -/
def Entering.Accounted (p : Program) (c : Config) (root : FuncId) (path : List FuncId)
    (enter : Entering) : Prop :=
  ∀ f context, Happens p c root (f :: path) (.entered context) →
    Keeps (Session.Accounts p c root path) (fun _ => True) (enter f context)

namespace Call

variable {enter : Entering} {call : ValueId} {args : List ValueId} {funcs : List FuncId}
  {before : Store}

theorem canEnter_accounts {ε : Type} {f : FuncId} {fn : Function}
    (h : Happens p c root path (.calling call args funcs before)) (hf : f ∈ funcs)
    (hfn : p.function f = .ok fn) (hbody : fn.isDeclaration = false) :
    Keeps (Session.Accounts p c root path)
      (fun answer => answer = true → cutoff? c path f = none)
      (canEnter c call f : Analysis ε Bool) := by
  intro s hs
  rw [canEnter_apply, hs.path_eq]
  cases hcutoff : cutoff? c path f with
  | none => exact ⟨fun _ => rfl, hs⟩
  | some reason =>
      exact ⟨nofun, hs.cut (.notEntering h hf hfn hbody hcutoff)⟩

theorem enterOne_accounts (henter : enter.Accounted p c root path)
    (h : Happens p c root path (.calling call args funcs before)) {f : FuncId} (hf : f ∈ funcs) :
    Keeps (Session.Accounts p c root path) (fun _ => True)
      (enterOne p c enter call args before f) := by
  refine Keeps.ofExcept_bind (fun fn hfn => ?_)
  split
  · exact Keeps.pure trivial
  · next hdecl =>
      have hbody : fn.isDeclaration = false := by simpa using hdecl
      refine Keeps.bind (canEnter_accounts h hf hfn hbody) (fun answer hanswer => ?_)
      cases answer with
      | false => exact Keeps.pure trivial
      | true =>
          refine Keeps.ofExcept_bind (fun context hcontext => ?_)
          have hentered := h.enter hf hfn hbody (hanswer rfl) hcontext
          refine Keeps.bind (Analysis.note_accounts (.entering h hf hentered)) (fun _ _ => ?_)
          refine Keeps.bind (henter f context hentered).mapFailure (fun states _ => ?_)
          refine Keeps.bind (Analysis.note_accounts (.leaving h hf hentered)) (fun _ _ => ?_)
          exact Keeps.ofExcept_bind (fun writes _ => Keeps.pure trivial)

theorem enterAll_accounts (henter : enter.Accounted p c root path)
    (h : Happens p c root path (.calling call args funcs before)) {rest : List FuncId}
    (hrest : ∀ f ∈ rest, f ∈ funcs) :
    Keeps (Session.Accounts p c root path) (fun _ => True)
      (enterAll p c enter call args before rest) := by
  induction rest with
  | nil => exact Keeps.pure trivial
  | cons f rest ih =>
      have hfirst := enterOne_accounts henter h (hrest f List.mem_cons_self)
      refine Keeps.bind hfirst (fun effect? _ => ?_)
      have hothers := ih (fun g hg => hrest g (List.mem_cons_of_mem f hg))
      exact Keeps.bind hothers (fun effects _ => Keeps.pure trivial)

theorem transfer_accounts (henter : enter.Accounted p c root path) {callee : ValueId}
    {inst : Inst} {s : Store} {rest : List ValueId}
    (h : Happens p c root path (.within s (call :: rest)))
    (hinst : p.inst? call = .ok (some inst)) (hop : inst.op = .call callee args) :
    Keeps (Session.Accounts p c root path) (fun _ => True)
      (transfer p c enter call callee args s) := by
  refine Keeps.ofExcept_bind (fun found hfound => ?_)
  dsimp only
  split
  · refine Keeps.ofExcept_bind (fun func? _ => ?_)
    split
    · exact Keeps.bind (Analysis.note_accounts (.unresolved h)) (fun _ _ => Keeps.pure trivial)
    · exact Keeps.pure trivial
  · refine Keeps.ofExcept_bind (fun before hbefore => ?_)
    have hcalling := h.call hinst hop hfound hbefore
    refine Keeps.bind (Analysis.note_accounts (.mayCall hcalling)) (fun _ _ => ?_)
    refine Keeps.bind (enterAll_accounts henter hcalling (fun _ hf => hf)) (fun effects _ => ?_)
    exact Keeps.ofExcept_bind (fun isPtr _ => Keeps.pure trivial)

end Call

theorem transferInst_accounts {enter : Entering} (henter : enter.Accounted p c root path)
    {s : Store} {v : ValueId} {rest : List ValueId}
    (h : Happens p c root path (.within s (v :: rest))) :
    Keeps (Session.Accounts p c root path) (fun _ => True) (transferInst p c enter v s) := by
  refine Keeps.ofExcept_bind (fun inst? hinst => ?_)
  split
  · exact Keeps.pure trivial
  · exact Call.transfer_accounts henter h hinst rfl
  · exact Keeps.ofFailing (fun _ _ => trivial)

/-! ## Bodies -/

theorem entryState?_outcome (hpath : IsPath p path) (g : FlowGraph) (init : Store)
    (states : BlockStates Store) (b : BlockId) :
    (Solver.entryState? g (storeVisitor p c (enterBody p c)) init states b).outcome { path } =
      .ok (Solver.mergedEntry g Store.join init states b) := by
  have hroom : p.functions.size ≤ p.functions.size + 1 + path.length := by omega
  have hcomputes := (storeVisitor_functional (c := c) hpath hroom).computes
  obtain ⟨s, t, -, hentry, -⟩ := hcomputes.entryState? g init states b { path } { path } ⟨rfl, rfl⟩
  exact Halting.outcome_of_eq hentry

theorem transferAll_accounts
    (henter : (analyzeBody p c Store.height depth).Accounted p c root path)
    (hdepth : p.functions.size ≤ depth + path.length) {insts : List ValueId} {s : Store}
    (h : Happens p c root path (.within s insts)) :
    Keeps (Session.Accounts p c root path) (fun _ => True)
      (Solver.transferAll (storeVisitor p c (analyzeBody p c Store.height depth)) insts s) := by
  induction insts generalizing s with
  | nil => exact Keeps.pure trivial
  | cons v rest ih =>
      have hstep : Keeps (Session.Accounts p c root path)
          (fun s' => stepAt p c path v s = .ok s')
          ((storeVisitor p c (analyzeBody p c Store.height depth)).transfer v s) := by
        refine (transferInst_accounts henter h).mapFailure.strengthen ?_
        intro session s' session' hsession heq _
        obtain ⟨t, -, hplain⟩ := (storeVisitor_functional (c := c) h.isPath hdepth).transfer v s
          session hsession.path_eq
        exact transferAt_eq_ok_iff.mp (Halting.ofFailing_eq_ok_iff.mp (hplain.symm.trans heq)).1
      unfold Solver.transferAll
      rw [List.foldlM_cons]
      exact Keeps.bind hstep (fun s' hs' => ih (h.next hs'))

theorem entryState?_accounts (hpath : IsPath p path)
    (hdepth : p.functions.size ≤ depth + path.length) (g : FlowGraph) (init : Store)
    (states : BlockStates Store) (b : BlockId) :
    Keeps (Session.Accounts p c root path)
      (fun entry? => Solver.mergedEntry g Store.join init states b = entry?)
      (Solver.entryState? g (storeVisitor p c (analyzeBody p c Store.height depth)) init
        states b) := by
  have hmerges : Keeps (Session.Accounts p c root path) (fun _ => True)
      (Solver.entryState? g (storeVisitor p c (analyzeBody p c Store.height depth)) init
        states b) := by
    refine Keeps.foldlM (fun known _ pred _ => ?_) trivial
    unfold Solver.mergePred
    split
    · exact Keeps.pure trivial
    · exact Keeps.pure trivial
    · exact Keeps.bind (Keeps.modify (fun _ hs => hs)) (fun _ _ => Keeps.pure trivial)
  refine hmerges.strengthen ?_
  intro session entry? session' hsession heq _
  have hcomputes := (storeVisitor_functional (c := c) hpath hdepth).computes
  have hplain := (hcomputes.entryState? g init states b).eq_ok ⟨rfl, hsession.path_eq⟩ heq
  cases hplain
  rfl

theorem visit_accounts {f : FuncId}
    (henter : (analyzeBody p c Store.height depth).Accounted p c root (f :: path))
    (hdepth : p.functions.size ≤ depth + (f :: path).length) {init : Store} {g : FlowGraph}
    {progress : Solver.Progress Store} {b : BlockId}
    (h : Happens p c root (f :: path) (.resting init progress))
    (hg : FlowGraph.ofFunction p f = .ok (some g))
    (hb : Solver.next? g progress.pending = some b) :
    Keeps (Session.Accounts p c root (f :: path))
      (fun progress' => Happens p c root (f :: path) (.resting init progress'))
      (Solver.visit g (storeVisitor p c (analyzeBody p c Store.height depth)) init progress b) := by
  have hvisit : Keeps (Session.Accounts p c root (f :: path)) (fun _ => True)
      (Solver.visit g (storeVisitor p c (analyzeBody p c Store.height depth)) init progress
        b) := by
    refine Keeps.bind (entryState?_accounts h.isPath hdepth g init progress.states b) ?_
    intro entry? hentry
    cases entry? with
    | none => exact Keeps.pure trivial
    | some entry =>
        have hbegin := h.begin hg hb ((entryState?_outcome h.isPath g init _ b).trans
          (congrArg _ hentry))
        refine Keeps.bind (transferAll_accounts henter hdepth hbegin) (fun exit _ => ?_)
        dsimp only
        split
        · exact Keeps.ofExcept_bind (fun _ _ => Keeps.pure trivial)
        · exact Keeps.pure trivial
  refine hvisit.strengthen ?_
  intro session progress' session' hsession heq _
  have hcomputes := (storeVisitor_functional (c := c) h.isPath hdepth).computes
  have hplain := (hcomputes.visit g init progress b).eq_ok ⟨rfl, hsession.path_eq⟩ heq
  exact h.visit hg hb ((visit_outcome h.isPath g init progress b).trans hplain)

theorem solverRun_accounts {f : FuncId}
    (henter : (analyzeBody p c Store.height depth).Accounted p c root (f :: path))
    (hdepth : p.functions.size ≤ depth + (f :: path).length) {init : Store} {g : FlowGraph}
    (hg : FlowGraph.ofFunction p f = .ok (some g)) (fuel : Nat)
    {progress : Solver.Progress Store}
    (h : Happens p c root (f :: path) (.resting init progress)) :
    Keeps (Session.Accounts p c root (f :: path)) (fun _ => True)
      (Solver.run g (storeVisitor p c (analyzeBody p c Store.height depth)) init fuel
        progress) := by
  induction fuel generalizing progress with
  | zero =>
      unfold Solver.run
      split
      · exact Keeps.pure trivial
      · exact Keeps.throw _
  | succ fuel ih =>
      unfold Solver.run
      split
      · exact Keeps.pure trivial
      · next hb => exact Keeps.bind (visit_accounts henter hdepth h hg hb) (fun _ h' => ih h')

/-- At every depth of nested calls the cutoffs that the analysis of a body adds were met in
it.  The induction is on the depth: callees are analysed one level further down. -/
theorem analyzeBody_accounted (hdepth : p.functions.size ≤ depth + path.length) :
    (analyzeBody p c Store.height depth).Accounted p c root path := by
  induction depth generalizing path with
  | zero => exact fun f context _ => Keeps.throw _
  | succ depth ih =>
      intro f context h
      have hroom : p.functions.size ≤ depth + (f :: path).length := by
        rw [List.length_cons]
        omega
      apply Analysis.within_accounts
      refine Keeps.ofExcept_bind (fun g? hg => ?_)
      cases g? with
      | none => exact Keeps.pure trivial
      | some g =>
          refine Keeps.ofExcept_bind (fun pending hpending => ?_)
          exact solverRun_accounts (ih hroom) hroom hg _ (h.start hg hpending)

/-- A run from a fresh session gives an account of itself, whether or not it comes to a
result. -/
theorem run_accounts (p : Program) (c : Config) (root : FuncId) :
    ((run p c root).final {}).Accounts p c root [] := by
  have hrun : Keeps (Session.Accounts p c root []) (fun _ => True) (run p c root) := by
    refine Keeps.ofExcept_bind (fun fn hfn => ?_)
    refine Keeps.bind (Analysis.note_accounts .analyzing) (fun _ _ => ?_)
    have hbody : Keeps (Session.Accounts p c root []) (fun _ => True) (enterBody p c root ∅) :=
      analyzeBody_accounted (by simp) root ∅ (.root hfn)
    refine Keeps.bind hbody (fun states _ => ?_)
    exact Keeps.ofExcept_bind (fun edges _ => Keeps.pure trivial)
  exact hrun.final ⟨rfl, by simp, by simp⟩

/-- A run comes to every call of which its journal says where it may lead. -/
theorem exists_calling_of_mayCall {call : ValueId} {funcs : List FuncId}
    (h : ⟨path, .mayCall call funcs⟩ ∈ ((run p c root).final {}).journal) :
    ∃ args before, Happens p c root path (.calling call args funcs before) := by
  cases (run_accounts p c root).journal _ h with
  | mayCall hcalling => exact ⟨_, _, hcalling⟩

theorem arises_of_mem_freshCutoffs {k : Cutoff} (h : k ∈ freshCutoffs p c root) :
    k.Arises p c root := by
  have haccounts := run_accounts p c root
  obtain ⟨path, hnoted⟩ := haccounts.cutoffs k h
  cases haccounts.journal _ hnoted with
  | notEntering hcalling hf hfn hbody hcutoff =>
      exact ⟨path, _, _, _, _, hcalling, hf, hfn, hbody, hcutoff⟩

end CallTargets
