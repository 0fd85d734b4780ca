import CallTargets.Proofs.EdgeRecording

/-!
# Tables of edges read back

A table of callees is determined by the pairs that it lists, since no key is left without
callees.  Merging tables merges what they list, and the tables of a root list nothing but
the callees that its summary records.
-/

namespace CallTargets

theorem FuncSet.exists_mem {funcs : FuncSet} (h : funcs.isEmpty = false) : ∃ g, g ∈ funcs := by
  by_contra hnone
  have hempty : funcs = ∅ :=
    Std.ExtTreeSet.eq_empty_iff_forall_not_mem.mpr (fun g hg => hnone ⟨g, hg⟩)
  simp [hempty] at h

namespace CalleeTable

variable {κ : Type} [Ord κ] [Std.TransOrd κ] {t other : CalleeTable κ} {key : κ} {g : FuncId}

/-- Every key has callees. -/
def Proper (t : CalleeTable κ) : Prop :=
  ∀ key callees, t.get? key = some callees → ∃ g, g ∈ callees

theorem Proper.empty : (∅ : CalleeTable κ).Proper := by
  intro key callees h
  change (∅ : Std.ExtTreeMap κ FuncSet)[key]? = some callees at h
  simp at h

theorem Proper.exists_get?_iff (h : t.Proper) :
    (∃ callees, t.get? key = some callees) ↔ ∃ g, t.Lists key g := by
  constructor
  · rintro ⟨callees, hcallees⟩
    obtain ⟨g, hg⟩ := h key callees hcallees
    exact ⟨g, callees, hcallees, hg⟩
  · rintro ⟨g, callees, hcallees, -⟩
    exact ⟨callees, hcallees⟩

theorem Proper.extend (h : t.Proper) (key : κ) (more : FuncSet) : (t.extend key more).Proper := by
  cases hmore : more.isEmpty with
  | true => rwa [CalleeTable.extend, if_pos hmore]
  | false =>
      intro key' callees hcallees
      rw [get?_extend t key key' hmore] at hcallees
      split at hcallees
      · obtain ⟨g, hg⟩ := FuncSet.exists_mem hmore
        cases hcallees
        exact ⟨g, Std.ExtTreeSet.mem_union_iff.mpr (Or.inr hg)⟩
      · exact h key' callees hcallees

theorem Proper.merge (h : t.Proper) (other : CalleeTable κ) : (t.merge other).Proper :=
  List.foldlRecOn other.toList _ h (fun _ ht entry _ => ht.extend entry.1 entry.2)

theorem not_lists_empty : ¬ (∅ : CalleeTable κ).Lists key g := by
  rintro ⟨callees, hcallees, -⟩
  change (∅ : Std.ExtTreeMap κ FuncSet)[key]? = some callees at hcallees
  simp at hcallees

variable [Std.LawfulEqOrd κ]

theorem lists_extend_iff (t : CalleeTable κ) (key' : κ) (more : FuncSet) :
    (t.extend key' more).Lists key g ↔ t.Lists key g ∨ (key' = key ∧ g ∈ more) := by
  constructor
  · intro h
    cases hmore : more.isEmpty with
    | true =>
        rw [CalleeTable.extend, if_pos hmore] at h
        exact Or.inl h
    | false =>
        obtain ⟨callees, hcallees, hg⟩ := h
        rw [get?_extend t key' key hmore] at hcallees
        split at hcallees
        · next heq =>
            cases Std.LawfulEqOrd.eq_of_compare heq
            cases hcallees
            rcases Std.ExtTreeSet.mem_union_iff.mp hg with hg | hg
            · cases hold : t.get? key with
              | none => simp [hold] at hg
              | some old => exact Or.inl ⟨old, hold, by simpa [hold] using hg⟩
            · exact Or.inr ⟨rfl, hg⟩
        · exact Or.inl ⟨callees, hcallees, hg⟩
  · rintro (h | ⟨rfl, hg⟩)
    · exact h.extend key' more
    · exact lists_extend_self t key' hg

theorem lists_foldl_extend_iff (entries : List (κ × FuncSet)) (t : CalleeTable κ) :
    (entries.foldl (fun t (key, callees) => t.extend key callees) t).Lists key g ↔
      t.Lists key g ∨ ∃ callees, (key, callees) ∈ entries ∧ g ∈ callees := by
  induction entries generalizing t with
  | nil => simp
  | cons entry entries ih =>
      obtain ⟨key', callees'⟩ := entry
      rw [List.foldl_cons, ih, lists_extend_iff, or_assoc]
      apply or_congr_right
      constructor
      · rintro (⟨rfl, hg⟩ | ⟨callees, hmem, hg⟩)
        · exact ⟨callees', List.mem_cons_self, hg⟩
        · exact ⟨callees, List.mem_cons_of_mem _ hmem, hg⟩
      · rintro ⟨callees, hmem, hg⟩
        rcases List.mem_cons.mp hmem with heq | hmem
        · cases heq
          exact Or.inl ⟨rfl, hg⟩
        · exact Or.inr ⟨callees, hmem, hg⟩

theorem lists_merge_iff (t other : CalleeTable κ) :
    (t.merge other).Lists key g ↔ t.Lists key g ∨ other.Lists key g := by
  have hfold : (t.merge other).Lists key g ↔
      t.Lists key g ∨ ∃ callees, (key, callees) ∈ other.toList ∧ g ∈ callees :=
    lists_foldl_extend_iff other.toList t
  rw [hfold]
  apply or_congr_right
  apply exists_congr
  intro callees
  apply and_congr_left
  intro _
  exact Std.ExtTreeMap.mem_toList_iff_getElem?_eq_some

section Union

variable {α : Type} (part : α → CalleeTable κ)

theorem lists_foldl_merge_iff (items : List α) (t : CalleeTable κ) :
    (items.foldl (fun (t : CalleeTable κ) a => t.merge (part a)) t).Lists key g ↔
      t.Lists key g ∨ ∃ a ∈ items, (part a).Lists key g := by
  induction items generalizing t with
  | nil => simp
  | cons a items ih =>
      rw [List.foldl_cons, ih, lists_merge_iff, or_assoc]
      simp

/-- The table is the pointwise union of others: it has all their keys, each with all the
callees that any of them lists for it. -/
structure IsUnion (t : CalleeTable κ) (parts : CalleeTable κ → Prop) : Prop where
  keys : ∀ key, (∃ callees, t.get? key = some callees) ↔
    ∃ part, parts part ∧ ∃ callees, part.get? key = some callees
  callees : ∀ key g, t.Lists key g ↔ ∃ part, parts part ∧ part.Lists key g

theorem isUnion_foldl_merge (items : List α) (hproper : ∀ a ∈ items, (part a).Proper) :
    (items.foldl (fun (t : CalleeTable κ) a => t.merge (part a)) ∅).IsUnion
      (fun t => ∃ a ∈ items, t = part a) := by
  have hunion : (items.foldl (fun (t : CalleeTable κ) a => t.merge (part a)) ∅).Proper :=
    List.foldlRecOn items _ .empty (fun _ ht a _ => ht.merge (part a))
  have hlists : ∀ key g, (items.foldl (fun (t : CalleeTable κ) a => t.merge (part a)) ∅).Lists
      key g ↔ ∃ a ∈ items, (part a).Lists key g := by
    intro key g
    rw [lists_foldl_merge_iff, or_iff_right not_lists_empty]
  constructor
  · intro key
    rw [hunion.exists_get?_iff]
    constructor
    · rintro ⟨g, hg⟩
      obtain ⟨a, ha, hlist⟩ := (hlists key g).mp hg
      exact ⟨part a, ⟨a, ha, rfl⟩, (hproper a ha).exists_get?_iff.mpr ⟨g, hlist⟩⟩
    · rintro ⟨_, ⟨a, ha, rfl⟩, hkey⟩
      obtain ⟨g, hg⟩ := (hproper a ha).exists_get?_iff.mp hkey
      exact ⟨g, (hlists key g).mpr ⟨a, ha, hg⟩⟩
  · intro key g
    rw [hlists]
    constructor
    · rintro ⟨a, ha, hg⟩
      exact ⟨part a, ⟨a, ha, rfl⟩, hg⟩
    · rintro ⟨_, ⟨a, ha, rfl⟩, hg⟩
      exact ⟨a, ha, hg⟩

end Union

end CalleeTable

namespace Edges

variable {p : Program}

theorem foldl_merge_sites {α : Type} (part : α → Edges) (items : List α) (edges : Edges) :
    (items.foldl (fun edges a => edges.merge (part a)) edges).sites =
      items.foldl (fun t a => t.merge (part a).sites) edges.sites := by
  induction items generalizing edges with
  | nil => rfl
  | cons a items ih => exact ih _

theorem foldl_merge_targets {α : Type} (part : α → Edges) (items : List α) (edges : Edges) :
    (items.foldl (fun edges a => edges.merge (part a)) edges).targets =
      items.foldl (fun t a => t.merge (part a).targets) edges.targets := by
  induction items generalizing edges with
  | nil => rfl
  | cons a items ih => exact ih _

/-- The summary of a root records the function `g` as a callee of a call. -/
def Records (p : Program) (summary : Store) (call : ValueId) (g : FuncId) : Prop :=
  ∃ x ∈ summary.stored (.callees call), p.asFunction? x.base = .ok (some g)

/-- Tables without empty entries that list only what a summary records. -/
structure Faithful (p : Program) (summary : Store) (edges : Edges) : Prop where
  sites_proper : edges.sites.Proper
  targets_proper : edges.targets.Proper
  site : ∀ site g, edges.sites.Lists site g →
    ∃ call, siteOf p call = .ok site ∧ Records p summary call g
  target : ∀ call g, edges.targets.Lists call g → Records p summary call g

theorem exists_of_mem_calleesOf {pointees : LocSet} {callees : FuncSet} {g : FuncId}
    (h : calleesOf p pointees = .ok callees) (hg : g ∈ callees) :
    ∃ x ∈ pointees, p.asFunction? x.base = .ok (some g) := by
  have hall := foldlM_ok_induction h
    (fun found => ∀ g ∈ found, ∃ x ∈ pointees, p.asFunction? x.base = .ok (some g)) (by simp)
    (fun found x found' hx hfound hstep => ?_)
  · exact hall g hg
  · obtain ⟨func?, hfunc?, hstep⟩ := bind_eq_ok_iff.mp hstep
    cases func? with
    | none =>
        cases hstep
        exact hfound
    | some f =>
        cases hstep
        intro g' hg'
        rw [Std.ExtTreeSet.mem_insert, Std.LawfulEqOrd.compare_eq_iff_eq] at hg'
        rcases hg' with rfl | hg'
        · exact ⟨x, Std.ExtTreeSet.mem_toList.mp hx, hfunc?⟩
        · exact hfound g' hg'

theorem Faithful.addEntry {summary : Store} {edges edges' : Edges}
    (h : Faithful p summary edges) {l : Loc} {pointees : LocSet}
    (hl : summary.explicit? l = some pointees)
    (hstep : addEntry p edges l pointees = .ok edges') : Faithful p summary edges' := by
  unfold Edges.addEntry at hstep
  split at hstep
  · next hrole =>
      obtain ⟨callees, hcallees, hstep⟩ := bind_eq_ok_iff.mp hstep
      split at hstep
      · cases hstep
        exact h
      · obtain ⟨site, hsite, hstep⟩ := bind_eq_ok_iff.mp hstep
        cases hstep
        have hrecords : ∀ g ∈ callees, Records p summary l.base g := by
          intro g hg
          obtain ⟨x, hx, hfunc⟩ := exists_of_mem_calleesOf hcallees hg
          have hself : Loc.callees l.base = l := by
            cases l
            cases hrole
            rfl
          refine ⟨x, ?_, hfunc⟩
          rwa [hself, Store.stored_of_explicit hl]
        refine ⟨h.sites_proper.extend _ _, h.targets_proper.extend _ _, fun site' g hg => ?_,
          fun call g hg => ?_⟩
        · rcases (CalleeTable.lists_extend_iff _ _ _).mp hg with hold | ⟨rfl, hnew⟩
          · exact h.site site' g hold
          · exact ⟨l.base, hsite, hrecords g hnew⟩
        · rcases (CalleeTable.lists_extend_iff _ _ _).mp hg with hold | ⟨rfl, hnew⟩
          · exact h.target call g hold
          · exact hrecords g hnew
  · cases hstep
    exact h

theorem faithful_ofSummary {summary : Store} {edges : Edges}
    (h : ofSummary p summary = .ok edges) : Faithful p summary edges := by
  apply foldlM_ok_induction h (Faithful p summary)
  · exact ⟨.empty, .empty, fun _ _ hg => absurd hg CalleeTable.not_lists_empty,
      fun _ _ hg => absurd hg CalleeTable.not_lists_empty⟩
  · intro edges entry edges' hentry hedges hstep
    exact hedges.addEntry (Store.mem_toList_iff.mp hentry) hstep

end Edges

end CallTargets
