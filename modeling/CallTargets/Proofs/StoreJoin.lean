import CallTargets.Store.Lemmas
import Mathlib.Data.List.Nodup

/-!
# Entries of combined stores

The join of two stores and the union of their entries are folds over the entries of
one of them.  Each step of such a fold rewrites the entry of one location, and no
location comes up twice, so the combined store can be read entry by entry.  From that
reading the join is associative, commutative and idempotent.
-/

namespace CallTargets

/-! ## Locations and sets -/

theorem Loc.base_of_default? {l x : Loc} (h : l.default? = some x) : x.base = l.base := by
  unfold Loc.default? at h
  split at h <;> cases h <;> rfl

theorem Loc.base_offset (base : ValueId) (slot : Int64) : (Loc.offset base slot).base = base := by
  unfold Loc.offset
  split <;> rfl

theorem mem_insert_empty_iff {α : Type} [Ord α] [Std.TransOrd α] [Std.LawfulEqOrd α] {a b : α} :
    b ∈ (∅ : Std.ExtTreeSet α).insert a ↔ b = a := by
  rw [Std.ExtTreeSet.mem_insert, Std.LawfulEqOrd.compare_eq_iff_eq]
  simp [eq_comm]

namespace LocSet

theorem union_comm (a b : LocSet) : a ∪ b = b ∪ a :=
  Std.ExtTreeSet.ext_mem (fun x => by simp [or_comm])

theorem union_assoc (a b c : LocSet) : a ∪ b ∪ c = a ∪ (b ∪ c) :=
  Std.ExtTreeSet.ext_mem (fun x => by simp [or_assoc])

@[simp] theorem union_self (a : LocSet) : a ∪ a = a :=
  Std.ExtTreeSet.ext_mem (fun x => by simp)

end LocSet

namespace Store

/-! ## Reading a store through its list of entries -/

theorem mem_toList_iff {s : Store} {l : Loc} {e : LocSet} :
    (l, e) ∈ s.toList ↔ s.explicit? l = some e :=
  Std.ExtTreeMap.mem_toList_iff_getElem?_eq_some

theorem nodup_keys (s : Store) : s.keys.Nodup := Std.ExtTreeMap.nodup_keys

theorem map_fst_toList (s : Store) : s.toList.map Prod.fst = s.keys :=
  Std.ExtTreeMap.map_fst_toList_eq_keys

theorem mem_keys_iff {s : Store} {l : Loc} : l ∈ s.keys ↔ ∃ e, s.explicit? l = some e := by
  rw [← map_fst_toList, List.mem_map]
  constructor
  · rintro ⟨⟨k, e⟩, hmem, rfl⟩
    exact ⟨e, mem_toList_iff.mp hmem⟩
  · rintro ⟨e, he⟩
    exact ⟨(l, e), mem_toList_iff.mpr he, rfl⟩

theorem not_contains_iff {s : Store} {l : Loc} :
    s.contains l = false ↔ s.explicit? l = none := by
  rw [← Bool.not_eq_true, contains_iff]
  cases s.explicit? l <;> simp

section EntryFold

variable {α : Type} {f : Store → α → Store} (key : α → Loc)
  (update : α → Option LocSet → Option LocSet)

/-- A fold whose items do not touch a location leaves its entry alone. -/
theorem explicit?_foldl_of_notMem
    (hf : ∀ s a k, (f s a).explicit? k =
      if key a = k then update a (s.explicit? k) else s.explicit? k)
    {items : List α} {k : Loc} (hk : k ∉ items.map key) (s : Store) :
    (items.foldl f s).explicit? k = s.explicit? k := by
  induction items generalizing s with
  | nil => rfl
  | cons a items ih =>
      rw [List.map_cons, List.mem_cons, not_or] at hk
      rw [List.foldl_cons, ih hk.2, hf, if_neg (Ne.symm hk.1)]

/-- When no two items have one key, the item of a location alone decides on its entry. -/
theorem explicit?_foldl_of_mem
    (hf : ∀ s a k, (f s a).explicit? k =
      if key a = k then update a (s.explicit? k) else s.explicit? k)
    {items : List α} (hnodup : (items.map key).Nodup) {a : α} (ha : a ∈ items) (s : Store) :
    (items.foldl f s).explicit? (key a) = update a (s.explicit? (key a)) := by
  induction items generalizing s with
  | nil => simp at ha
  | cons b items ih =>
      rw [List.map_cons, List.nodup_cons] at hnodup
      rw [List.foldl_cons]
      rcases List.mem_cons.mp ha with rfl | ha
      · rw [explicit?_foldl_of_notMem key update hf hnodup.1, hf, if_pos rfl]
      · have hne : key b ≠ key a := by
          intro heq
          exact hnodup.1 (heq ▸ List.mem_map_of_mem ha)
        rw [ih hnodup.2 ha, hf, if_neg hne]

/-- A fold over the entries of a store, each of which rewrites the entry of its own
location. -/
theorem explicit?_foldl_toList (f : Store → Loc × LocSet → Store)
    (update : Loc → LocSet → Option LocSet → Option LocSet)
    (hf : ∀ s l e k, (f s (l, e)).explicit? k =
      if l = k then update l e (s.explicit? k) else s.explicit? k)
    (s t : Store) (k : Loc) :
    (t.toList.foldl f s).explicit? k =
      match t.explicit? k with
      | none => s.explicit? k
      | some e => update k e (s.explicit? k) := by
  have hpair : ∀ (s : Store) (a : Loc × LocSet) k, (f s a).explicit? k =
      if Prod.fst a = k then (fun a => update (Prod.fst a) (Prod.snd a)) a (s.explicit? k)
      else s.explicit? k :=
    fun s a k => hf s a.1 a.2 k
  have hnodup : (t.toList.map Prod.fst).Nodup := map_fst_toList t ▸ nodup_keys t
  cases ht : t.explicit? k with
  | some e => exact explicit?_foldl_of_mem _ _ hpair hnodup (mem_toList_iff.mpr ht) s
  | none =>
      refine explicit?_foldl_of_notMem _ _ hpair (fun hmem => ?_) s
      obtain ⟨e, he⟩ := mem_keys_iff.mp (map_fst_toList t ▸ hmem)
      simp [ht] at he

end EntryFold

/-! ## Unions of entries -/

theorem explicit?_extend (s : Store) (l k : Loc) (e : LocSet) :
    (s.extend l e).explicit? k =
      if l = k then some ((s.explicit? k).getD ∅ ∪ e) else s.explicit? k := by
  by_cases h : l = k
  · subst h
    simp
  · rw [explicit?_extend_of_ne h, if_neg h]

theorem explicit?_absorb (s t : Store) (l : Loc) :
    (s.absorb t).explicit? l =
      match t.explicit? l with
      | none => s.explicit? l
      | some e => some ((s.explicit? l).getD ∅ ∪ e) :=
  explicit?_foldl_toList _ (fun _ e old => some (old.getD ∅ ∪ e))
    (fun s l e k => explicit?_extend s l k e) s t l

/-- The pointees stored at a location, none when it has no entry. -/
def stored (s : Store) (l : Loc) : LocSet := (s.explicit? l).getD ∅

theorem stored_of_explicit {s : Store} {l : Loc} {e : LocSet} (h : s.explicit? l = some e) :
    s.stored l = e := by
  simp [stored, h]

theorem contains_of_mem_stored {s : Store} {l x : Loc} (h : x ∈ s.stored l) :
    s.contains l = true := by
  cases hs : s.explicit? l with
  | none => simp [stored, hs] at h
  | some e => exact contains_iff.mpr ⟨e, hs⟩

@[simp] theorem stored_empty (l : Loc) : (∅ : Store).stored l = ∅ := by
  simp [stored]

theorem stored_absorb (s t : Store) (l : Loc) :
    (s.absorb t).stored l = s.stored l ∪ t.stored l := by
  refine Std.ExtTreeSet.ext_mem (fun x => ?_)
  unfold stored
  rw [explicit?_absorb]
  cases t.explicit? l <;> simp

theorem contains_absorb (s t : Store) (l : Loc) :
    (s.absorb t).contains l = (s.contains l || t.contains l) := by
  simp only [contains, Std.ExtTreeMap.contains_eq_isSome_getElem?]
  change ((s.absorb t).explicit? l).isSome = ((s.explicit? l).isSome || (t.explicit? l).isSome)
  rw [explicit?_absorb]
  cases t.explicit? l <;> simp

section AbsorbFold

variable {α : Type} (part : α → Store)

theorem mem_stored_foldl_absorb (items : List α) (s : Store) (l x : Loc) :
    x ∈ (items.foldl (fun s a => s.absorb (part a)) s).stored l ↔
      x ∈ s.stored l ∨ ∃ a ∈ items, x ∈ (part a).stored l := by
  induction items generalizing s with
  | nil => simp
  | cons a items ih =>
      rw [List.foldl_cons, ih, stored_absorb]
      simp [or_assoc]

theorem contains_foldl_absorb (items : List α) (s : Store) (l : Loc) :
    (items.foldl (fun s a => s.absorb (part a)) s).contains l ↔
      s.contains l ∨ ∃ a ∈ items, (part a).contains l := by
  induction items generalizing s with
  | nil => simp
  | cons a items ih =>
      rw [List.foldl_cons, ih, contains_absorb]
      simp [or_assoc]

/-- What is absorbed from parts with the same entry at a location has this entry, unless no part
has one. -/
theorem explicit?_foldl_absorb {items : List α} {l : Loc} {e? : Option LocSet}
    (h : ∀ a ∈ items, (part a).explicit? l = none ∨ (part a).explicit? l = e?) :
    (items.foldl (fun (s : Store) a => s.absorb (part a)) ∅).explicit? l = none ∨
      (items.foldl (fun (s : Store) a => s.absorb (part a)) ∅).explicit? l = e? := by
  refine List.foldlRecOn (motive := fun s : Store => s.explicit? l = none ∨ s.explicit? l = e?)
    items _ (Or.inl (explicit?_empty l)) (fun s hs a ha => ?_)
  rw [explicit?_absorb]
  rcases h a ha with hnone | hpart
  · rwa [hnone]
  · rw [hpart]
    cases e? with
    | none => exact Or.inl (hs.elim id id)
    | some e =>
        rcases hs with hs | hs
        · exact Or.inr (congrArg some (Std.ExtTreeSet.ext_mem (by simp [hs])))
        · exact Or.inr (by simp [hs])

end AbsorbFold

/-! ## The join of two branches -/

/-- The first half of a join: every entry that `t` lacks gets its default pointee. -/
theorem explicit?_padded (s t : Store) (k : Loc) :
    (s.keys.foldl
        (fun acc l => if t.contains l then acc else acc.extend l (defaults l)) s).explicit? k =
      (s.explicit? k).map (fun e => if t.contains k then e else e ∪ defaults k) := by
  let update : Loc → Option LocSet → Option LocSet := fun l old =>
    if t.contains l then old else some (old.getD ∅ ∪ defaults l)
  have hstep : ∀ (acc : Store) (l k : Loc),
      (if t.contains l then acc else acc.extend l (defaults l)).explicit? k =
        if id l = k then update l (acc.explicit? k) else acc.explicit? k := by
    intro acc l k
    by_cases ht : t.contains l = true
    · simp [update, ht]
    · simp only [update, if_neg ht, explicit?_extend, id]
  cases hs : s.explicit? k with
  | none =>
      have hk : k ∉ s.keys.map id := by simp [mem_keys_iff, hs]
      rw [explicit?_foldl_of_notMem id update hstep hk, hs]
      rfl
  | some e =>
      have hk : k ∈ s.keys := mem_keys_iff.mpr ⟨e, hs⟩
      have hnodup : (s.keys.map id).Nodup := by simpa using nodup_keys s
      have hfold := explicit?_foldl_of_mem id update hstep hnodup hk s
      rw [id, hs] at hfold
      rw [hfold]
      simp only [update, Option.getD_some, Option.map_some]
      split <;> rfl

theorem explicit?_join (s t : Store) (l : Loc) :
    (s.join t).explicit? l =
      if s.explicit? l = none ∧ t.explicit? l = none then none
      else some (s.values l ∪ t.values l) := by
  have hstep : ∀ (acc : Store) (l : Loc) (e : LocSet) k,
      (acc.set l (acc.values l ∪ e)).explicit? k =
        if l = k then some ((acc.explicit? k).getD (defaults l) ∪ e) else acc.explicit? k := by
    intro acc l e k
    rw [explicit?_set]
    by_cases h : l = k
    · rw [if_pos h, if_pos h, h, values]
    · rw [if_neg h, if_neg h]
  unfold join
  rw [explicit?_foldl_toList _ (fun l e old => some (old.getD (defaults l) ∪ e)) hstep,
    explicit?_padded]
  cases ht : t.explicit? l with
  | none =>
      cases hs : s.explicit? l with
      | none => simp
      | some e => simp [not_contains_iff.mpr ht, values, hs, ht]
  | some e =>
      have hcontains : t.contains l = true := contains_iff.mpr ⟨e, ht⟩
      cases hs : s.explicit? l with
      | none => simp [values, hs, ht]
      | some e' => simp [hcontains, values, hs, ht]

/-- A joined location may point to whatever it may point to on either side. -/
theorem values_join (s t : Store) (l : Loc) :
    (s.join t).values l = s.values l ∪ t.values l := by
  rw [values, explicit?_join]
  split
  · next h => simp [values, h.1, h.2]
  · rfl

theorem explicit?_join_of_eq {s t : Store} {l : Loc} (h : t.explicit? l = s.explicit? l) :
    (s.join t).explicit? l = s.explicit? l := by
  rw [explicit?_join, h]
  cases hs : s.explicit? l with
  | none => simp
  | some e =>
      rw [if_neg (by simp), values_of_explicit hs, values_of_explicit (h.trans hs), LocSet.union_self]

theorem explicit?_join_eq_none_iff {s t : Store} {l : Loc} :
    (s.join t).explicit? l = none ↔ s.explicit? l = none ∧ t.explicit? l = none := by
  rw [explicit?_join]
  split <;> simp_all

/-- Two stores with the same locations and the same readings are equal. -/
theorem ext_values {s t : Store}
    (hnone : ∀ l, s.explicit? l = none ↔ t.explicit? l = none)
    (hvalues : ∀ l, s.values l = t.values l) : s = t := by
  refine ext_explicit (fun l => ?_)
  have hl := hvalues l
  cases hs : s.explicit? l with
  | none => rw [(hnone l).mp hs]
  | some e =>
      cases ht : t.explicit? l with
      | none => simp [(hnone l).mpr ht] at hs
      | some e' =>
          rw [values_of_explicit hs, values_of_explicit ht] at hl
          rw [hl]

theorem join_comm (s t : Store) : s.join t = t.join s := by
  refine ext_values (fun l => ?_) (fun l => ?_)
  · simp only [explicit?_join_eq_none_iff, and_comm]
  · rw [values_join, values_join, LocSet.union_comm]

theorem join_assoc (s t u : Store) : (s.join t).join u = s.join (t.join u) := by
  refine ext_values (fun l => ?_) (fun l => ?_)
  · simp only [explicit?_join_eq_none_iff, and_assoc]
  · simp only [values_join, LocSet.union_assoc]

theorem join_self (s : Store) : s.join s = s := by
  refine ext_values (fun l => ?_) (fun l => ?_)
  · simp only [explicit?_join_eq_none_iff, and_self]
  · rw [values_join, LocSet.union_self]

end Store

end CallTargets
