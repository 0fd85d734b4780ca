import CallTargets.Proofs.CutoffOrigin

/-!
# The guard against recursion

The path of functions under analysis grows only when a callee is entered, and the guard in
front of every entry looks at the path.  So a path never repeats a function and never gets
longer than the limit.  Every function on it but the root was called from the body below, and
a call edge is cut off only for the reason that its note gives.
-/

namespace CallTargets

variable {p : Program} {c : Config} {root f : FuncId} {path : List FuncId} {m : Moment}

namespace Call

theorem cutoff?_eq_none_iff :
    cutoff? c path f = none ↔ f ∉ path ∧ path.length < c.maxCallDepth := by
  unfold cutoff?
  split <;> simp_all

theorem cutoff?_eq_some_iff {reason : CutoffReason} :
    cutoff? c path f = some reason ↔
      reason = .recursive ∧ f ∈ path ∨
        reason = .depthLimit ∧ f ∉ path ∧ c.maxCallDepth ≤ path.length := by
  unfold cutoff?
  split
  · next hmem => simp [hmem, eq_comm]
  · next hmem =>
      split
      · next hfull => simp [hmem, hfull, eq_comm]
      · next hroom => simp [hmem, hroom]

end Call

/-- The function is a candidate of a call that is transferred in the innermost body of a
path. -/
def CalledFrom (p : Program) (c : Config) (root : FuncId) (path : List FuncId) (f : FuncId) :
    Prop :=
  ∃ s call callee args rest inst funcs, Happens p c root path (.within s (call :: rest)) ∧
    p.inst? call = .ok (some inst) ∧ inst.op = .call callee args ∧
    Call.candidates p c s callee = .ok funcs ∧ f ∈ funcs

/-- What the guard ensures of the functions under analysis while a root is analysed, the
innermost first. -/
structure Guarded (p : Program) (c : Config) (root : FuncId) (path : List FuncId) : Prop where
  nodup : path.Nodup
  length_le : path.length ≤ max 1 c.maxCallDepth
  outermost : path.getLast? = some root
  called : ∀ inner f below, path = inner ++ f :: below → below ≠ [] →
    IsRoot p c f ∧ CalledFrom p c root below f

namespace Guarded

theorem singleton (p : Program) (c : Config) (root : FuncId) : Guarded p c root [root] := by
  refine ⟨List.nodup_singleton root, by simp, rfl, ?_⟩
  rintro (_ | ⟨g, inner⟩) f below heq hbelow
  · cases heq
    exact absurd rfl hbelow
  · simp at heq

theorem enter (h : Guarded p c root path) (hcutoff : Call.cutoff? c path f = none)
    (hf : IsRoot p c f) (hcalled : CalledFrom p c root path f) :
    Guarded p c root (f :: path) := by
  obtain ⟨hfresh, hroom⟩ := Call.cutoff?_eq_none_iff.mp hcutoff
  refine ⟨List.nodup_cons.mpr ⟨hfresh, h.nodup⟩, ?_, ?_, ?_⟩
  · rw [List.length_cons]
    omega
  · rw [List.getLast?_cons, h.outermost]
    rfl
  · rintro (_ | ⟨g, inner⟩) f' below heq hbelow
    · cases heq
      exact ⟨hf, hcalled⟩
    · cases heq
      exact h.called inner f' below rfl hbelow

end Guarded

/-! ## Moments -/

namespace Happens

theorem candidate {call : ValueId} {args : List ValueId} {funcs : List FuncId} {before : Store}
    (h : Happens p c root path (.calling call args funcs before)) (hf : f ∈ funcs) :
    CalledFrom p c root path f ∧ p.isIntrinsic c f = .ok false := by
  cases h with
  | @call _ s _ _ callee _ rest inst found h hinst hop hfound hbefore =>
      have hmem : f ∈ found := by simpa using hf
      obtain ⟨pointees, -, hcandidates⟩ := Call.mem_candidates hfound
      obtain ⟨x, -, -, hintrinsic⟩ := (hcandidates f).mp hmem
      exact ⟨⟨s, call, callee, args, rest, inst, found, h, hinst, hop, hfound, hmem⟩, hintrinsic⟩

theorem guarded (h : Happens p c root path m) : Guarded p c root path := by
  -- Only the two rules that put a function on the path have anything to show.
  induction h with
  | root hfn => exact .singleton p c root
  | start h hg hpending ih => exact ih
  | visit h hg hb hvisit ih => exact ih
  | merge h hg hb hpreds hentry ih => exact ih
  | begin h hg hb hentry ih => exact ih
  | next h hstep ih => exact ih
  | call h hinst hop hfuncs hbefore ih => exact ih
  | enter h hf hfn hbody hcutoff hcontext ih =>
      obtain ⟨hcalled, hintrinsic⟩ := h.candidate hf
      apply ih.enter hcutoff ?_ hcalled
      refine ⟨_, hfn, hbody, ?_⟩
      rw [Program.isIntrinsic, hfn] at hintrinsic
      exact Except.ok.inj hintrinsic

end Happens

theorem Event.Happened.guarded {e : Event} (h : e.Happened p c root) :
    e = ⟨[], .analyzing root⟩ ∨ Guarded p c root e.path := by
  cases h with
  | analyzing => exact Or.inl rfl
  | unresolved h => exact Or.inr h.guarded
  | mayCall h => exact Or.inr h.guarded
  | notEntering h => exact Or.inr h.guarded
  | entering h => exact Or.inr h.guarded
  | leaving h => exact Or.inr h.guarded

/-- At every moment of the analysis of a root the path of functions is guarded.  A run that
starts at rest also ends at rest, with or without a result.  The events that it adds to the
journal happened on guarded paths, entries put the callee on a guarded path, and what it adds
to the cutoffs was noted on a path that gave reason to it. -/
theorem paths_guarded (p : Program) (c : Config) (root : FuncId) :
    (∀ path m, Happens p c root path m → Guarded p c root path) ∧
    ∀ s : Session, s.path = [] →
      ((run p c root).final s).path = [] ∧
      ∃ new, ((run p c root).final s).journal = new ++ s.journal ∧
        (∀ e ∈ new, e.Happened p c root ∧
          (e = ⟨[], .analyzing root⟩ ∨ Guarded p c root e.path)) ∧
        (∀ path call f before context, ⟨path, .entering call f before context⟩ ∈ new →
          Guarded p c root (f :: path)) ∧
        (∀ path k, ⟨path, .notEntering k⟩ ∈ new →
          k.reason = .recursive ∧ k.callee ∈ path ∨
            k.reason = .depthLimit ∧ k.callee ∉ path ∧ c.maxCallDepth ≤ path.length) ∧
        ∀ k ∈ ((run p c root).final s).cutoffs,
          k ∈ s.cutoffs ∨ ∃ path, ⟨path, .notEntering k⟩ ∈ new := by
  refine ⟨fun path m h => h.guarded, fun s hrest => ?_⟩
  have haccounts := run_accounts p c root
  obtain ⟨out, -, -, ⟨hpath, -⟩, hcutoffs, hjournal⟩ := run_coupled (p := p) (c := c) root hrest
  refine ⟨hpath, _, hjournal, fun e he => ?_, ?_, ?_, fun k hk => ?_⟩
  · have happened := haccounts.journal e he
    exact ⟨happened, happened.guarded⟩
  · intro path call f before context he
    cases haccounts.journal _ he with
    | entering h hf hentered => exact hentered.guarded
  · intro path k he
    cases haccounts.journal _ he with
    | notEntering h hf hfn hbody hcutoff => exact Call.cutoff?_eq_some_iff.mp hcutoff
  · rw [hcutoffs, Std.ExtTreeSet.mem_union_iff] at hk
    exact hk.imp_right (haccounts.cutoffs k)

/-- Two functions that call each other. -/
def pingPong : List Step :=
  [.define "ping" [] .void, .define "pong" [] .void, .call "" .void (.ofNat 0) [], .ret none,
    .positionAtEnd (.ofNat 0), .call "" .void (.ofNat 1) [], .ret none]

/-- From `pong`, which `ping` has entered, `ping` is not entered once more. -/
theorem paths_guarded_pingPong : ∃ built, build pingPong = .ok built ∧
    ⟨[.ofNat 1, .ofNat 0], .notEntering ⟨.ofNat 2, .ofNat 0, .recursive⟩⟩ ∈
      ((run built.program {} (.ofNat 0)).final {}).journal ∧
    Guarded built.program {} (.ofNat 0) [.ofNat 1, .ofNat 0] ∧
    ((run built.program {} (.ofNat 0)).final {}).path = [] := by
  obtain ⟨built, hbuilt, hnoted⟩ : ∃ built, build pingPong = .ok built ∧
      ⟨[.ofNat 1, .ofNat 0], .notEntering ⟨.ofNat 2, .ofNat 0, .recursive⟩⟩ ∈
        ((run built.program {} (.ofNat 0)).final {}).journal := ⟨_, rfl, by decide +kernel⟩
  obtain ⟨hpath, new, hjournal, hnew, -⟩ :=
    (paths_guarded built.program {} (.ofNat 0)).2 {} rfl
  have hmem := hnoted
  rw [hjournal, List.append_nil] at hmem
  refine ⟨built, hbuilt, hnoted, ?_, hpath⟩
  rcases (hnew _ hmem).2 with heq | hguarded
  · cases heq
  · exact hguarded

end CallTargets
