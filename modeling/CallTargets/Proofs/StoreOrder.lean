import CallTargets.Proofs.Equations
import CallTargets.Proofs.StoreJoin
import Mathlib.Order.Bounds.Basic

/-!
# The order of stores

A store lies below another one if the other has an entry wherever it has one itself and every
location may point to no less there.  As readings include the defaults, the empty store is not
the least one.  The join of two stores is their least upper bound, so that merging changes
nothing just if the merged store lies below.
-/

namespace CallTargets

namespace Store

theorem notMem_keys_iff {s : Store} {l : Loc} : l ∉ s.keys ↔ s.explicit? l = none := by
  rw [mem_keys_iff]
  cases s.explicit? l <;> simp

instance : PartialOrder Store where
  le s t := s.keys ⊆ t.keys ∧ ∀ l, ∀ x ∈ s.values l, x ∈ t.values l
  le_refl s := ⟨List.Subset.refl _, fun _ _ hx => hx⟩
  le_trans _ _ _ hst htu := ⟨List.Subset.trans hst.1 htu.1, fun l x hx => htu.2 l x (hst.2 l x hx)⟩
  le_antisymm s t hst hts := by
    refine ext_values (fun l => ?_) (fun l => ?_)
    · rw [← notMem_keys_iff, ← notMem_keys_iff]
      exact not_congr ⟨fun hl => hst.1 hl, fun hl => hts.1 hl⟩
    · exact Std.ExtTreeSet.ext_mem fun x => ⟨hst.2 l x, hts.2 l x⟩

theorem le_iff {s t : Store} :
    s ≤ t ↔ s.keys ⊆ t.keys ∧ ∀ l, ∀ x ∈ s.values l, x ∈ t.values l := Iff.rfl

theorem mem_keys_join {s t : Store} {l : Loc} :
    l ∈ (s.join t).keys ↔ l ∈ s.keys ∨ l ∈ t.keys := by
  rw [← not_iff_not, not_or, notMem_keys_iff, notMem_keys_iff, notMem_keys_iff]
  exact explicit?_join_eq_none_iff

theorem mem_values_join {s t : Store} {l x : Loc} :
    x ∈ (s.join t).values l ↔ x ∈ s.values l ∨ x ∈ t.values l := by
  rw [values_join, Std.ExtTreeSet.mem_union_iff]

instance : SemilatticeSup Store where
  sup := join
  le_sup_left _ _ :=
    ⟨fun _ hl => mem_keys_join.mpr (Or.inl hl), fun _ _ hx => mem_values_join.mpr (Or.inl hx)⟩
  le_sup_right _ _ :=
    ⟨fun _ hl => mem_keys_join.mpr (Or.inr hl), fun _ _ hx => mem_values_join.mpr (Or.inr hx)⟩
  sup_le _ _ _ hsu htu :=
    ⟨fun _ hl => (mem_keys_join.mp hl).elim (fun h => hsu.1 h) (fun h => htu.1 h),
      fun l x hx => (mem_values_join.mp hx).elim (hsu.2 l x) (htu.2 l x)⟩

/-- The order in which the solver's equations are stated is the order of stores. -/
theorem below_join_iff {s t : Store} : Below join s t ↔ s ≤ t := sup_eq_left

/-- The empty store lies below the stores that give up no default. -/
theorem empty_le_iff {s : Store} : ∅ ≤ s ↔ ∀ l x, l.default? = some x → x ∈ s.values l := by
  have hkeys : (∅ : Store).keys ⊆ s.keys := by
    intro l hl
    simp [mem_keys_iff] at hl
  have hvalues : ∀ l x, x ∈ (∅ : Store).values l ↔ l.default? = some x := by
    intro l x
    rw [values_of_absent (explicit?_empty l), mem_defaults]
  simp [le_iff, hkeys, hvalues]

/-- Joined stores are read as unions and have an entry wherever one of them has one.  The join
does not depend on order, grouping or repetition, and it is the least store above both. -/
theorem join_laws (a b c : Store) :
    (∀ l, (a.join b).values l = a.values l ∪ b.values l) ∧
    (∀ l, l ∈ (a.join b).keys ↔ l ∈ a.keys ∨ l ∈ b.keys) ∧
    a.join b = b.join a ∧ (a.join b).join c = a.join (b.join c) ∧ a.join a = a ∧
    IsLUB {a, b} (a.join b) :=
  ⟨values_join a b, fun _ => mem_keys_join, join_comm a b, join_assoc a b c, join_self a,
    isLUB_pair⟩

end Store

end CallTargets
