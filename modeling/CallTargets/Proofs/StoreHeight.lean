import CallTargets.Analysis.Transfer
import CallTargets.Proofs.StoreJoin
import Mathlib.Data.Fintype.Card
import Mathlib.Data.Fintype.Prod

/-!
# How often a store can grow

There are finitely many locations, although a slot can be any 64-bit number.  The rank
of a store counts its entries and the pairs of a location and a stored pointee.  It
never exceeds `Store.height`, and a join that changes its first store raises the rank.
-/

namespace CallTargets

/-! ## Counting locations -/

namespace Role

/-- The number of a role among all roles. -/
def code : Role → Nat
  | self => 0
  | returned => 1
  | callees => 2
  | offset slot => 3 + slot.toUInt64.toNat

theorem code_lt (r : Role) : r.code < UInt64.size + 3 := by
  cases r with
  | offset slot =>
      have hslot := slot.toUInt64.toNat_lt
      simp only [code, UInt64.size] at *
      omega
  | self => decide
  | returned => decide
  | callees => decide

theorem code_injective : Function.Injective code := by
  intro a b h
  cases a with
  | offset k =>
      cases b with
      | offset m =>
          have hnat : k.toUInt64.toNat = m.toUInt64.toNat := by
            simpa [code] using h
          have hword : k.toUInt64 = m.toUInt64 := UInt64.toNat_inj.mp hnat
          exact congrArg (fun w => offset ⟨w⟩) hword
      | _ => simp only [code] at h; omega
  | _ =>
      cases b with
      | offset m => simp only [code] at h; omega
      | _ => first | rfl | simp [code] at h

end Role

namespace Loc

/-- The number of a location among all locations. -/
def code (l : Loc) : Nat := l.base.index * (UInt64.size + 3) + l.role.code

theorem code_lt (l : Loc) : l.code < count := by
  have hbase := l.base.index_lt
  have hrole := l.role.code_lt
  simp only [code, count, UInt32.size, UInt64.size] at *
  omega

theorem code_injective : Function.Injective code := by
  intro a b h
  have ha := a.role.code_lt
  have hb := b.role.code_lt
  simp only [code, UInt64.size] at ha hb h
  have hbase : a.base = b.base := Ident.ext_index (by omega)
  have hrole : a.role = b.role := Role.code_injective (by omega)
  cases a
  cases b
  simp_all

noncomputable instance : Fintype Loc :=
  Fintype.ofInjective (fun l : Loc => (⟨l.code, l.code_lt⟩ : Fin count))
    (fun _ _ h => code_injective (Fin.mk.inj h))

theorem card_le_count : Fintype.card Loc ≤ count := by
  have h := Fintype.card_le_of_injective
    (fun l : Loc => (⟨l.code, l.code_lt⟩ : Fin count))
    (fun _ _ h => code_injective (Fin.mk.inj h))
  rwa [Fintype.card_fin] at h

end Loc

namespace Store

/-! ## The rank of a store -/

/-- The locations with an entry. -/
def keySet (s : Store) : Finset Loc := s.keys.toFinset

open Classical in
/-- The pairs of a location and a pointee stored there. -/
noncomputable def factSet (s : Store) : Finset (Loc × Loc) :=
  Finset.univ.filter (fun f => f.2 ∈ s.stored f.1)

theorem mem_keySet {s : Store} {l : Loc} : l ∈ s.keySet ↔ ∃ e, s.explicit? l = some e := by
  rw [keySet, List.mem_toFinset, mem_keys_iff]

theorem mem_factSet {s : Store} {l x : Loc} : (l, x) ∈ s.factSet ↔ x ∈ s.stored l := by
  simp [factSet]

noncomputable def rank (s : Store) : Nat := s.keySet.card + s.factSet.card

theorem rank_le_height (s : Store) : s.rank ≤ height := by
  have hkeys : s.keySet.card ≤ Loc.count := (Finset.card_le_univ _).trans Loc.card_le_count
  have hfacts : s.factSet.card ≤ Loc.count * Loc.count := by
    refine (Finset.card_le_univ _).trans ?_
    rw [Fintype.card_prod]
    exact Nat.mul_le_mul Loc.card_le_count Loc.card_le_count
  exact Nat.add_le_add hkeys hfacts

theorem eq_of_sets_eq {s t : Store} (hkeys : s.keySet = t.keySet)
    (hfacts : s.factSet = t.factSet) : s = t := by
  refine ext_explicit (fun l => ?_)
  have hkey : (∃ e, s.explicit? l = some e) ↔ ∃ e, t.explicit? l = some e := by
    rw [← mem_keySet, ← mem_keySet, hkeys]
  have hstored : s.stored l = t.stored l := by
    refine Std.ExtTreeSet.ext_mem (fun x => ?_)
    rw [← mem_factSet, ← mem_factSet, hfacts]
  cases hs : s.explicit? l with
  | none =>
      cases ht : t.explicit? l with
      | none => rfl
      | some e => simp [hs, ht] at hkey
  | some e =>
      cases ht : t.explicit? l with
      | none => simp [hs, ht] at hkey
      | some e' => rw [← stored_of_explicit hs, ← stored_of_explicit ht, hstored]

/-- A store that gains entries or pointees and loses none has a higher rank. -/
theorem rank_lt_of_subset {s t : Store} (hkeys : s.keySet ⊆ t.keySet)
    (hfacts : s.factSet ⊆ t.factSet) (hne : s ≠ t) : s.rank < t.rank := by
  have hkeyCard := Finset.card_le_card hkeys
  have hfactCard := Finset.card_le_card hfacts
  by_contra hnot
  unfold rank at hnot
  refine hne (eq_of_sets_eq ?_ ?_)
  · exact Finset.eq_of_subset_of_card_le hkeys (by omega)
  · exact Finset.eq_of_subset_of_card_le hfacts (by omega)

theorem keySet_subset_join (s t : Store) : s.keySet ⊆ (s.join t).keySet := by
  intro l hl
  obtain ⟨e, he⟩ := mem_keySet.mp hl
  refine mem_keySet.mpr ⟨s.values l ∪ t.values l, ?_⟩
  rw [explicit?_join, if_neg (by simp [he])]

theorem factSet_subset_join (s t : Store) : s.factSet ⊆ (s.join t).factSet := by
  rintro ⟨l, x⟩ hx
  rw [mem_factSet] at hx ⊢
  cases he : s.explicit? l with
  | none => simp [stored, he] at hx
  | some e =>
      rw [stored_of_explicit he] at hx
      rw [stored, explicit?_join, if_neg (by simp [he]), values_of_explicit he]
      exact Std.ExtTreeSet.mem_union_of_left hx

theorem join_eq_or_rank_lt (s t : Store) : s.join t = s ∨ s.rank < (s.join t).rank := by
  by_cases h : s = s.join t
  · exact Or.inl h.symm
  · exact Or.inr
      (rank_lt_of_subset (keySet_subset_join s t) (factSet_subset_join s t) h)

end Store

end CallTargets
