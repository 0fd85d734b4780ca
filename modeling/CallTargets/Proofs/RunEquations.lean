import CallTargets.Proofs.Termination

/-!
# The states of a run solve the dataflow equations

What an instruction does to a store depends on the functions under analysis, which may
not be entered once more, but on nothing else that a session remembers.  With the path
given, the transfer of instructions is a function, and the states found for a body at any
depth of nested calls solve the dataflow equations for that function.
-/

namespace CallTargets

open Halting (Agree)

/-- What an instruction does to a store while the functions of a path are under
analysis. -/
def stepAt (p : Program) (c : Config) (path : List FuncId) (inst : ValueId) (s : Store) :
    Failing Interrupted Store :=
  (step p c inst s).outcome { path }

/-- The states of a body that is entered while the functions of a path are under
analysis. -/
def bodyAt (p : Program) (c : Config) (path : List FuncId) (f : FuncId) (init : Store) :
    Failing Unsupported (BlockStates Store) :=
  (enterBody p c f init).outcome { path }

/-- The same as a transfer of the solver, which does not need the store that was reached
when an instruction cannot be followed. -/
def transferAt (p : Program) (c : Config) (path : List FuncId) (inst : ValueId) (s : Store) :
    Failing Unsupported Store :=
  (stepAt p c path inst s).mapError (Halt.map Interrupted.cause)

/-- Where only the path matters, a session can be replaced by one with nothing else. -/
theorem Halting.Agree.eq_outcome {ε α : Type} {path : List FuncId} {x y : Analysis ε α}
    (h : Agree (Coupling.samePath.Rel path) x y) {session : Session}
    (hsession : session.path = path) :
    ∃ session', session'.path = path ∧
      x session = Halting.ofFailing (y.outcome { path }) session' := by
  obtain ⟨out, -, h⟩ := h
  obtain ⟨s, t, ⟨hs, -⟩, hx, hy⟩ := h session { path } ⟨hsession, rfl⟩
  exact ⟨s, hs, Halting.outcome_of_eq hy ▸ hx⟩

theorem Analysis.within_eq_ok_iff {ε α : Type} {f : FuncId} {x : Analysis ε α} {a : α}
    {s s' : Session} :
    Analysis.within f x s = .ok a s' ↔ ∃ t, x (s.enter f) = .ok a t ∧ t.leave = s' := by
  unfold Analysis.within
  cases x (s.enter f) <;> simp

variable {p : Program} {c : Config} {path : List FuncId} {depth : Nat}

theorem transferAt_eq_ok_iff {v : ValueId} {s s' : Store} :
    transferAt p c path v s = .ok s' ↔ stepAt p c path v s = .ok s' := by
  unfold transferAt
  cases stepAt p c path v s <;> simp [Except.mapError]

/-- On a path that leaves room for the remaining functions, bodies are analysed as if
there were no bound. -/
theorem analyzeBody_agreeOff (hpath : IsPath p path)
    (hdepth : p.functions.size ≤ depth + path.length) :
    Entering.AgreeOff .samePath p path (analyzeBody p c Store.height depth) (enterBody p c) :=
  analyzeBody_agree le_rfl le_rfl hpath hdepth (by omega)

theorem transferInst_eq_stepAt (hpath : IsPath p path)
    (hdepth : p.functions.size ≤ depth + path.length) (inst : ValueId) (s : Store)
    {session : Session} (hsession : session.path = path) :
    ∃ session', session'.path = path ∧
      transferInst p c (analyzeBody p c Store.height depth) inst s session =
        Halting.ofFailing (stepAt p c path inst s) session' :=
  (transferInst_agree (analyzeBody_agreeOff hpath hdepth) inst s).eq_outcome hsession

theorem storeVisitor_functional (hpath : IsPath p path)
    (hdepth : p.functions.size ≤ depth + path.length) :
    (storeVisitor p c (analyzeBody p c Store.height depth)).Functional
      (fun session => session.path = path) (transferAt p c path) where
  noteMerge _ _ _ h := h
  transfer inst s session hsession := by
    obtain ⟨session', hsession', heq⟩ :=
      transferInst_eq_stepAt (c := c) hpath hdepth inst s hsession
    refine ⟨session', hsession', ?_⟩
    change Halting.mapFailure _ _ session = _
    rw [Halting.mapFailure, heq, transferAt]
    cases stepAt p c path inst s <;> rfl

/-! ## Solutions and failures -/

theorem foldlM_of_mapError {ε ε' α β : Type} {f : β → α → Except ε β} {g : ε → ε'}
    {l : List α} {b b' : β} (h : l.foldlM (fun b a => (f b a).mapError g) b = .ok b') :
    l.foldlM f b = .ok b' := by
  induction l generalizing b with
  | nil =>
      cases h
      rfl
  | cons a l ih =>
      rw [List.foldlM_cons] at h ⊢
      obtain ⟨b₁, hb₁, h⟩ := bind_eq_ok_iff.mp h
      refine bind_eq_ok_iff.mpr ⟨b₁, ?_, ih h⟩
      cases hfb : f b a with
      | error e =>
          rw [hfb] at hb₁
          cases hb₁
      | ok b₂ =>
          rw [hfb] at hb₁
          cases hb₁
          rfl

/-- What failures are called does not matter to a solution. -/
theorem Solution.of_mapError {ε ε' D : Type} {func : FuncId} {merge : D → D → D}
    {transfer : ValueId → D → Except ε D} {g : ε → ε'} {init : D} {states : BlockStates D}
    (h : Solution p func merge (fun inst d => (transfer inst d).mapError g) init states) :
    Solution p func merge transfer init states where
  exit_eq b state hb := by
    obtain ⟨block, hblock, hexit⟩ := h.exit_eq b state hb
    exact ⟨block, hblock, foldlM_of_mapError hexit⟩
  entry := h.entry
  edge := h.edge

/-! ## Bodies and roots -/

/-- The states of a body are those that the plain solver finds. -/
theorem plainForward_of_analyzeBody {f : FuncId} {fn : Function} {init : Store}
    {states : BlockStates Store} {session session' : Session} (hpath : IsPath p path)
    (hfn : p.function f = .ok fn) (hf : f ∉ path)
    (hdepth : p.functions.size ≤ depth + path.length) (hsession : session.path = path)
    (h : analyzeBody p c Store.height depth f init session = .ok states session') :
    plainForward p f Store.join (transferAt p c (f :: path)) Store.height init = .ok states := by
  have hpath' := hpath.cons hfn hf
  cases depth with
  | zero => cases h
  | succ depth =>
      obtain ⟨inner, h, -⟩ := Analysis.within_eq_ok_iff.mp h
      have hroom : p.functions.size ≤ depth + (f :: path).length := by
        rw [List.length_cons]
        omega
      have hinner : (session.enter f).path = f :: path := congrArg (f :: ·) hsession
      have hcomputes := (storeVisitor_functional (c := c) hpath' hroom).computes.forward p f init
        (Or.inl (Eq.refl Store.height))
      exact hcomputes.eq_ok ⟨rfl, hinner⟩ h

theorem plainForward_of_bodyAt {f : FuncId} {fn : Function} {init : Store}
    {states : BlockStates Store} (hpath : IsPath p path) (hfn : p.function f = .ok fn)
    (hf : f ∉ path) (h : bodyAt p c path f init = .ok states) :
    plainForward p f Store.join (transferAt p c (f :: path)) Store.height init = .ok states := by
  obtain ⟨session', h⟩ := Halting.outcome_eq_ok_iff.mp h
  unfold enterBody at h
  exact plainForward_of_analyzeBody hpath hfn hf (by omega) rfl h

theorem bodyAt_of_enterBody {f : FuncId} {fn : Function} {init : Store}
    {states : BlockStates Store} {session session' : Session} (hpath : IsPath p path)
    (hfn : p.function f = .ok fn) (hf : f ∉ path) (hsession : session.path = path)
    (h : enterBody p c f init session = .ok states session') :
    bodyAt p c path f init = .ok states := by
  have hagree : Entering.AgreeOff .samePath p path (enterBody p c) (enterBody p c) :=
    analyzeBody_agreeOff hpath (by omega)
  obtain ⟨session'', -, heq⟩ := (hagree f fn init hfn hf).eq_outcome hsession
  rw [h] at heq
  exact (Halting.ofFailing_eq_ok_iff.mp heq.symm).1

theorem solution_of_plainForward {f : FuncId} {init : Store} {states : BlockStates Store}
    (h : plainForward p f Store.join (transferAt p c path) Store.height init = .ok states) :
    Solution p f Store.join (stepAt p c path) init states :=
  (plainForward_solution Store.isSemilattice_join h).of_mapError

theorem runBy_eq_ok {enter : Entering} {f : FuncId} {r : RootResult} {session session' : Session}
    (h : runBy p enter f session = .ok r session') :
    ∃ fn, p.function f = .ok fn ∧
      enter f ∅ (session.note (.analyzing f)) = .ok r.states session' ∧
      r.summary = summarize r.states ∧ Edges.ofSummary p r.summary = .ok r.edges := by
  obtain ⟨fn, s₁, hread, h⟩ := Halting.bind_eq_ok_iff.mp h
  obtain ⟨hfn, rfl⟩ := Halting.ofExcept_eq_ok_iff.mp hread
  obtain ⟨u, s₂, hnote, h⟩ := Halting.bind_eq_ok_iff.mp h
  cases hnote
  obtain ⟨states, s₃, hstates, h⟩ := Halting.bind_eq_ok_iff.mp h
  obtain ⟨edges, s₄, hread, h⟩ := Halting.bind_eq_ok_iff.mp h
  obtain ⟨hedges, rfl⟩ := Halting.ofExcept_eq_ok_iff.mp hread
  obtain ⟨rfl, rfl⟩ := Halting.pure_eq_ok_iff.mp h
  exact ⟨fn, hfn, hstates, rfl, hedges⟩

theorem plainForward_of_run {f : FuncId} {r : RootResult} {session session' : Session}
    (hrest : session.path = []) (h : run p c f session = .ok r session') :
    ∃ fn, p.function f = .ok fn ∧
      plainForward p f Store.join (transferAt p c [f]) Store.height ∅ = .ok r.states := by
  obtain ⟨fn, hfn, hbody, -⟩ := runBy_eq_ok h
  have hnoted : (session.note (.analyzing f)).path = [] := hrest
  unfold enterBody at hbody
  exact ⟨fn, hfn, plainForward_of_analyzeBody (.nil p) hfn (by simp) (by simp) hnoted hbody⟩

/-- Whenever the solver returns states, they solve the dataflow equations: for every
visitor whose merge is that of a semilattice and whose transfers are a function of the
instruction and the state, and in particular for the stores of a root. -/
theorem forward_solves :
    (∀ {ε σ D : Type} [DecidableEq D] (p : Program) (func : FuncId) (v : Visitor ε σ D)
      (I : σ → Prop) (transfer : ValueId → D → Failing ε D) (height : Nat) (init : D)
      (s s' : σ) (states : BlockStates D), IsSemilattice v.merge → v.Functional I transfer →
      I s → forward p func v height init s = .ok states s' →
        Solution p func v.merge transfer init states) ∧
    ∀ (p : Program) (c : Config) (f : FuncId) (r : RootResult) (session session' : Session),
      session.path = [] → run p c f session = .ok r session' →
        Solution p f Store.join (stepAt p c [f]) ∅ r.states := by
  refine ⟨?_, ?_⟩
  · intro ε σ D _ p func v I transfer height init s s' states hmerge hv hs h
    exact forward_eq_ok_solution hmerge hv hs h
  · intro p c f r session session' hrest h
    obtain ⟨fn, -, hplain⟩ := plainForward_of_run hrest h
    exact solution_of_plainForward hplain

/-- A function is called through a pointer in memory and gives back what it is passed. -/
def relay : List Step :=
  [.define "echo" [.ptr] .ptr, .ret (some (.ofNat 1)), .define "main" [] .void,
    .alloca "slot" .ptr, .store (.ofNat 0) (.ofNat 4), .load "fp" .ptr (.ofNat 4),
    .call "got" .ptr (.ofNat 6) [.ofNat 4], .ret none]

/-- Turns its state around at every instruction. -/
def flipping : Visitor Empty Unit Bool where
  merge := or
  transfer _ d := return !d

theorem forward_solves_relay : ∃ built states r session', build relay = .ok built ∧
    forward built.program (.ofNat 1) flipping 1 false () = .ok states () ∧
    Solution built.program (.ofNat 1) or (fun _ d => (.ok (!d) : Failing Empty Bool)) false
      states ∧
    run built.program {} (.ofNat 1) {} = .ok r session' ∧
    Solution built.program (.ofNat 1) Store.join (stepAt built.program {} [.ofNat 1]) ∅
      r.states := by
  obtain ⟨built, hbuilt, hforward, hrun⟩ : ∃ built, build relay = .ok built ∧
      ((forward built.program (.ofNat 1) flipping 1 false).outcome ()).toOption.any
        (fun _ => true) = true ∧
      ((run built.program {} (.ofNat 1)).outcome {}).toOption.any (fun _ => true) = true :=
    ⟨_, rfl, by decide +kernel, by decide +kernel⟩
  obtain ⟨states, ⟨⟩, hstates, -⟩ := Halting.eq_ok_of_outcome_any hforward
  obtain ⟨r, session', hr, -⟩ := Halting.eq_ok_of_outcome_any hrun
  refine ⟨built, states, r, session', hbuilt, hstates, ?_, hr, ?_⟩
  · exact forward_solves.1 _ _ flipping (fun _ => True) _ _ _ _ _ _
      ⟨by decide, by decide, by decide⟩ ⟨fun _ _ _ _ => trivial, fun _ _ _ _ => ⟨(), trivial, rfl⟩⟩
      trivial hstates
  · exact forward_solves.2 _ _ _ _ _ _ rfl hr

end CallTargets
