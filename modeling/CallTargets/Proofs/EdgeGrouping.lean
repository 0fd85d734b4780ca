import CallTargets.Proofs.AddressTaken

/-!
# Sites and calls tell the same edges

The table of sites and the table of calls are filled side by side and merged by the same
unions.  At every moment the callees of a site are those of the calls that stand there, taken
together, and neither table has a key without callees.
-/

namespace CallTargets

namespace Edges

variable {p : Program}

/-- Tables without empty entries, in which a site has the callees of its calls. -/
structure Paired (p : Program) (sites : SiteTable) (targets : TargetTable) : Prop where
  sites_proper : sites.Proper
  targets_proper : targets.Proper
  lists_iff : ∀ site g, sites.Lists site g ↔
    ∃ call, siteOf p call = .ok site ∧ targets.Lists call g

/-- The table of sites is the table of calls, with the calls of each site taken together. -/
structure Grouped (p : Program) (sites : SiteTable) (targets : TargetTable) : Prop where
  site_nonempty : ∀ site callees, sites.get? site = some callees → ∃ g, g ∈ callees
  target_nonempty : ∀ call callees, targets.get? call = some callees → ∃ g, g ∈ callees
  isCall : ∀ call callees, targets.get? call = some callees → p.IsCall call
  mem_iff : ∀ site callees, sites.get? site = some callees → ∀ g, g ∈ callees ↔
    ∃ call own, siteOf p call = .ok site ∧ targets.get? call = some own ∧ g ∈ own
  absent_iff : ∀ site, sites.get? site = none ↔
    ∀ call, siteOf p call = .ok site → targets.get? call = none

namespace Paired

theorem empty : Paired p ∅ ∅ := by
  refine ⟨.empty, .empty, fun site g => ⟨fun h => ?_, ?_⟩⟩
  · exact absurd h CalleeTable.not_lists_empty
  · rintro ⟨call, -, h⟩
    exact absurd h CalleeTable.not_lists_empty

theorem addEntry {edges edges' : Edges} (h : Paired p edges.sites edges.targets) {l : Loc}
    {pointees : LocSet} (hstep : addEntry p edges l pointees = .ok edges') :
    Paired p edges'.sites edges'.targets := by
  unfold Edges.addEntry at hstep
  split at hstep
  · obtain ⟨callees, -, hstep⟩ := bind_eq_ok_iff.mp hstep
    split at hstep
    · cases hstep
      exact h
    · obtain ⟨site, hsite, hstep⟩ := bind_eq_ok_iff.mp hstep
      cases hstep
      refine ⟨h.sites_proper.extend _ _, h.targets_proper.extend _ _, fun site' g => ?_⟩
      -- Both tables get the same callees, one at the call and one at its site.
      rw [CalleeTable.lists_extend_iff, h.lists_iff]
      constructor
      · rintro (⟨call, hcall, hg⟩ | ⟨rfl, hg⟩)
        · exact ⟨call, hcall, hg.extend _ _⟩
        · exact ⟨l.base, hsite, CalleeTable.lists_extend_self _ _ hg⟩
      · rintro ⟨call, hcall, hg⟩
        rcases (CalleeTable.lists_extend_iff _ _ _).mp hg with hold | ⟨rfl, hnew⟩
        · exact Or.inl ⟨call, hcall, hold⟩
        · rw [hsite] at hcall
          exact Or.inr ⟨Except.ok.inj hcall, hnew⟩
  · cases hstep
    exact h

theorem ofSummary {summary : Store} {edges : Edges} (h : ofSummary p summary = .ok edges) :
    Paired p edges.sites edges.targets := by
  apply foldlM_ok_induction h (fun edges => Paired p edges.sites edges.targets) .empty
  intro edges entry edges' _ hedges hstep
  exact hedges.addEntry hstep

variable {sites : SiteTable} {targets : TargetTable}

theorem get?_eq_none_iff (h : Paired p sites targets) (site : CallSite) :
    sites.get? site = none ↔ ∀ call, siteOf p call = .ok site → targets.get? call = none := by
  have hsite : (∃ callees, sites.get? site = some callees) ↔
      ∃ call, siteOf p call = .ok site ∧ ∃ callees, targets.get? call = some callees := by
    simp only [h.sites_proper.exists_get?_iff, h.targets_proper.exists_get?_iff, h.lists_iff]
    constructor
    · rintro ⟨g, call, hcall, hg⟩
      exact ⟨call, hcall, g, hg⟩
    · rintro ⟨call, hcall, g, hg⟩
      exact ⟨g, call, hcall, hg⟩
  simp only [Option.eq_none_iff_forall_ne_some]
  constructor
  · intro hnone call hcall callees hcallees
    obtain ⟨found, hfound⟩ := hsite.mpr ⟨call, hcall, callees, hcallees⟩
    exact hnone found hfound
  · intro hnone callees hcallees
    obtain ⟨call, hcall, found, hfound⟩ := hsite.mp ⟨callees, hcallees⟩
    exact hnone call hcall found hfound

theorem grouped (h : Paired p sites targets)
    (hcall : ∀ call g, targets.Lists call g → p.IsCall call) : Grouped p sites targets where
  site_nonempty := h.sites_proper
  target_nonempty := h.targets_proper
  isCall call callees hcallees := by
    obtain ⟨g, hg⟩ := h.targets_proper call callees hcallees
    exact hcall call g ⟨callees, hcallees, hg⟩
  mem_iff site callees hcallees g := by
    have hmem : g ∈ callees ↔ sites.Lists site g := by
      constructor
      · exact fun hg => ⟨callees, hcallees, hg⟩
      · rintro ⟨callees', hcallees', hg⟩
        rw [hcallees] at hcallees'
        cases hcallees'
        exact hg
    rw [hmem, h.lists_iff]
    constructor
    · rintro ⟨call, hsite, own, hown, hg⟩
      exact ⟨call, own, hsite, hown, hg⟩
    · rintro ⟨call, own, hsite, hown, hg⟩
      exact ⟨call, hsite, own, hown, hg⟩
  absent_iff := h.get?_eq_none_iff

end Paired

end Edges

/-! ## Runs and programs -/

open Edges (Grouped Paired)

variable {p : Program} {c : Config}

theorem freshRun_of_run {f : FuncId} {session session' : Session} {r : RootResult}
    (hrest : session.path = []) (h : run p c f session = .ok r session') :
    freshRun p c f = .ok r := by
  obtain ⟨s, hrun, -⟩ := run_resumed (p := p) (c := c) f hrest
  exact (Halting.ofFailing_eq_ok_iff.mp (hrun.symm.trans h)).1

theorem paired_of_freshRun {f : FuncId} {r : RootResult} (h : freshRun p c f = .ok r) :
    Paired p r.edges.sites r.edges.targets := by
  obtain ⟨session', hrun⟩ := Halting.outcome_eq_ok_iff.mp h
  obtain ⟨-, -, -, -, hedges⟩ := runBy_eq_ok hrun
  exact .ofSummary hedges

theorem isCall_of_freshRun (htables : p.Tables) {f g : FuncId} {r : RootResult}
    (h : freshRun p c f = .ok r) {call : ValueId} (hg : r.edges.targets.Lists call g) :
    p.IsCall call := by
  obtain ⟨session', hrun⟩ := Halting.outcome_eq_ok_iff.mp h
  have hwf := ((run_keeps htables f).of_eq_ok (.fresh _ []) hrun).2
  obtain ⟨x, hx, -⟩ := (Edges.faithful_of_freshRun h).target call g hg
  cases he : r.summary.explicit? (.callees call) with
  | none => simp [Store.stored, he] at hx
  | some e =>
      obtain ⟨block, callee, args, line, hinst⟩ := (hwf _ e he).key.callees_base rfl
      exact ⟨_, callee, args, hinst, rfl⟩

theorem CalleeTable.IsUnion.proper {κ : Type} [Ord κ] [Std.TransOrd κ] {t : CalleeTable κ}
    {parts : CalleeTable κ → Prop} (h : t.IsUnion parts)
    (hparts : ∀ part, parts part → part.Proper) : t.Proper := by
  intro key callees hcallees
  obtain ⟨part, hpart, hkey⟩ := (h.keys key).mp ⟨callees, hcallees⟩
  obtain ⟨g, hg⟩ := (hparts part hpart).exists_get?_iff.mp hkey
  obtain ⟨callees', hcallees', hg'⟩ := (h.callees key g).mpr ⟨part, hpart, hg⟩
  rw [hcallees] at hcallees'
  cases hcallees'
  exact ⟨g, hg'⟩

theorem Results.Combine.paired {res : Results} (h : res.Combine p c) :
    Paired p res.sites res.targets where
  sites_proper := by
    apply h.sites.proper
    rintro _ ⟨f, r, -, hr, rfl⟩
    exact (paired_of_freshRun hr).sites_proper
  targets_proper := by
    apply h.targets.proper
    rintro _ ⟨f, r, -, hr, rfl⟩
    exact (paired_of_freshRun hr).targets_proper
  lists_iff site g := by
    rw [h.sites.callees]
    constructor
    · rintro ⟨_, ⟨f, r, hf, hr, rfl⟩, hg⟩
      obtain ⟨call, hsite, hcall⟩ := ((paired_of_freshRun hr).lists_iff site g).mp hg
      exact ⟨call, hsite, (h.targets.callees call g).mpr ⟨_, ⟨f, r, hf, hr, rfl⟩, hcall⟩⟩
    · rintro ⟨call, hsite, hcall⟩
      obtain ⟨_, ⟨f, r, hf, hr, rfl⟩, hg⟩ := (h.targets.callees call g).mp hcall
      have hlisted := ((paired_of_freshRun hr).lists_iff site g).mpr ⟨call, hsite, hg⟩
      exact ⟨_, ⟨f, r, hf, hr, rfl⟩, hlisted⟩

theorem Results.Combine.grouped (htables : p.Tables) {res : Results} (h : res.Combine p c) :
    Grouped p res.sites res.targets := by
  apply h.paired.grouped
  intro call g hg
  obtain ⟨_, ⟨f, r, -, hr, rfl⟩, hg⟩ := (h.targets.callees call g).mp hg
  exact isCall_of_freshRun htables hr hg

/-- In programs that were built step by step, the tables of a successful analysis group the same
edges: no entry is empty, only calls have targets, and a site has the targets of all calls that
stand there, or no entry if none of them has any.  So do the two tables of every single run. -/
theorem sites_group_calls {steps : List Step} {built : Built} (hbuilt : build steps = .ok built)
    (c : Config) :
    (∀ res, (analyze built.program c).outcome {} = .ok res →
      Grouped built.program res.sites res.targets) ∧
    ∀ f session session' r, session.path = [] →
      run built.program c f session = .ok r session' →
        Grouped built.program r.edges.sites r.edges.targets := by
  have htables := tables_of_build hbuilt
  refine ⟨fun res hres => ?_, fun f session session' r hrest h => ?_⟩
  · exact (analyze_eq_ok hres).1.grouped htables
  · have hr := freshRun_of_run hrest h
    apply (paired_of_freshRun hr).grouped
    exact fun call g hg => isCall_of_freshRun htables hr hg

/-- Two calls on one line, of which the second is made through a pointer, and one call on no
line at all. -/
def sharing : List Step :=
  [.define "left" [] .void, .ret none, .define "right" [] .void, .ret none,
    .define "main" [] .void, .alloca "slot" .ptr, .store (.ofNat 2) (.ofNat 5),
    .load "fp" .ptr (.ofNat 5), .setLine 7, .call "" .void (.ofNat 0) [],
    .call "" .void (.ofNat 7) [], .clearLine, .call "" .void (.ofNat 0) [], .ret none]

theorem sites_group_calls_sharing : ∃ built res, build sharing = .ok built ∧
    (analyze built.program {}).outcome {} = .ok res ∧
    Grouped built.program res.sites res.targets ∧
    (∃ callees, res.sites.get? (.line 7) = some callees ∧
      .ofNat 0 ∈ callees ∧ .ofNat 1 ∈ callees) ∧
    ∃ r session', run built.program {} (.ofNat 2) {} = .ok r session' ∧
      Grouped built.program r.edges.sites r.edges.targets := by
  let seen : Results → Bool := fun res =>
    (res.targets? (.ofNat 8)).any (fun callees => callees.contains (.ofNat 0)) &&
      (res.targets? (.ofNat 9)).any (fun callees => callees.contains (.ofNat 1))
  obtain ⟨built, hbuilt, hanalyze, hrun, hsite₀, hsite₁⟩ : ∃ built, build sharing = .ok built ∧
      ((analyze built.program {}).outcome {}).toOption.any seen = true ∧
      ((run built.program {} (.ofNat 2)).outcome {}).toOption.any (fun _ => true) = true ∧
      Edges.siteOf built.program (.ofNat 8) = .ok (.line 7) ∧
      Edges.siteOf built.program (.ofNat 9) = .ok (.line 7) :=
    ⟨_, rfl, by decide +kernel, by decide +kernel, rfl, rfl⟩
  obtain ⟨res, session₁, hres, hseen⟩ := Halting.eq_ok_of_outcome_any hanalyze
  obtain ⟨r, session', hr, -⟩ := Halting.eq_ok_of_outcome_any hrun
  have houtcome := Halting.outcome_eq_ok_iff.mpr ⟨session₁, hres⟩
  obtain ⟨hgroups, hruns⟩ := sites_group_calls hbuilt {}
  have hgrouped := hgroups res houtcome
  obtain ⟨hleft, hright⟩ := (Bool.and_eq_true _ _).mp hseen
  obtain ⟨own₀, hown₀, hmem₀⟩ := (Option.any_eq_true _ _).mp hleft
  obtain ⟨own₁, hown₁, hmem₁⟩ := (Option.any_eq_true _ _).mp hright
  refine ⟨built, res, hbuilt, houtcome, hgrouped, ?_, r, session', hr,
    hruns _ {} session' r rfl hr⟩
  cases hcallees : res.sites.get? (.line 7) with
  | none =>
      have hnone := (hgrouped.absent_iff _).mp hcallees (.ofNat 8) hsite₀
      rw [show res.targets.get? (.ofNat 8) = some own₀ from hown₀] at hnone
      cases hnone
  | some callees =>
      have hmem := hgrouped.mem_iff _ callees hcallees
      exact ⟨callees, rfl, (hmem _).mpr ⟨_, own₀, hsite₀, hown₀, hmem₀⟩,
        (hmem _).mpr ⟨_, own₁, hsite₁, hown₁, hmem₁⟩⟩

end CallTargets
