import CallTargets.Proofs.BuiltProgram
import CallTargets.Proofs.KeptInvariants
import CallTargets.Proofs.StoreJoin

/-!
# The invariant of stores

Stores only point to values themselves and to slots after the first, and never to
nothing.  Slots that have an entry come after the first one, too; return values belong
to functions, and the callees of calls are function values.  Every way of combining and
changing stores keeps this up, for programs whose tables are linked.
-/

namespace CallTargets

/-- A location that can be pointed to: a value itself or a slot after the first. -/
def Loc.IsTarget (l : Loc) : Prop := l.role = .self ∨ ∃ k, l.role = .offset k ∧ 0 < k

/-- A location that can have an entry. -/
structure Loc.IsKey (p : Program) (l : Loc) : Prop where
  slot_pos : ∀ k, l.role = .offset k → 0 < k
  returned_base : l.role = .returned → ∃ f, p.asFunction? l.base = .ok (some f)
  callees_base : l.role = .callees →
    ∃ block callee args line, p.inst? l.base = .ok (some ⟨block, .call callee args, line⟩)

/-- A pointee that a location can have. -/
structure Loc.MayHold (p : Program) (c : Config) (l x : Loc) : Prop where
  target : x.IsTarget
  callee : l.role = .callees → ∃ f, x = .self x.base ∧
    p.asFunction? x.base = .ok (some f) ∧ p.isIntrinsic c f = .ok false

namespace Store

/-- An entry that a store can have at a location. -/
structure Entry (p : Program) (c : Config) (l : Loc) (e : LocSet) : Prop where
  key : l.IsKey p
  nonempty : ∃ x, x ∈ e
  holds : ∀ x ∈ e, l.MayHold p c x

/-- The invariant of stores. -/
def WellFormed (p : Program) (c : Config) (s : Store) : Prop :=
  ∀ l e, s.explicit? l = some e → Entry p c l e

/-- A set of pointees that a value can have. -/
structure IsReading (e : LocSet) : Prop where
  nonempty : ∃ x, x ∈ e
  targets : ∀ x ∈ e, x.IsTarget

end Store

/-! ## Locations -/

namespace Loc

variable {p : Program} {c : Config}

theorem IsTarget.self (v : ValueId) : (Loc.self v).IsTarget := Or.inl rfl

/-- What can be pointed to can be written to. -/
theorem IsTarget.isKey {l : Loc} (h : l.IsTarget) (p : Program) : l.IsKey p := by
  rcases h with h | ⟨k, h, hk⟩
  · exact ⟨by simp [h], by simp [h], by simp [h]⟩
  · refine ⟨fun k' hk' => ?_, by simp [h], by simp [h]⟩
    rw [h] at hk'
    cases hk'
    exact hk

theorem IsTarget.role_ne_callees {l : Loc} (h : l.IsTarget) : l.role ≠ .callees := by
  rcases h with h | ⟨k, h, -⟩ <;> simp [h]

theorem MayHold.of_target {l x : Loc} (hl : l.role ≠ .callees) (hx : x.IsTarget) :
    l.MayHold p c x :=
  ⟨hx, fun h => absurd h hl⟩

/-- The default pointee is one that the location can have. -/
theorem MayHold.of_default {l x : Loc} (h : l.default? = some x) : l.MayHold p c x := by
  unfold default? at h
  cases hrole : l.role with
  | self =>
      simp only [hrole] at h
      cases h
      exact .of_target (by simp [hrole]) (.self _)
  | offset k =>
      simp only [hrole] at h
      cases h
      exact .of_target (by simp [hrole]) (.self _)
  | returned => simp [hrole] at h
  | callees => simp [hrole] at h

theorem IsTarget.exists_default {l : Loc} (h : l.IsTarget) : ∃ x, l.default? = some x := by
  unfold default?
  rcases h with h | ⟨k, h, -⟩ <;> simp [h]

theorem IsTarget.slot?_nonneg {l : Loc} (h : l.IsTarget) {k : Int64} (hk : l.slot? = some k) :
    0 ≤ k.toInt := by
  unfold slot? at hk
  rcases h with h | ⟨k', h, hk'⟩
  · simp only [h] at hk
    cases hk
    simp
  · simp only [h] at hk
    cases hk
    have hpos := Int64.lt_iff_toInt_lt.mp hk'
    rw [Int64.toInt_zero] at hpos
    omega

/-- A slot that is not negative can be pointed to; the first is the base itself. -/
theorem IsTarget.offset (base : ValueId) {k : Int64} (hk : 0 ≤ k.toInt) :
    (Loc.offset base k).IsTarget := by
  unfold Loc.offset
  split
  · exact .self base
  · next hne =>
      refine Or.inr ⟨k, rfl, Int64.lt_iff_toInt_lt.mpr ?_⟩
      have hne' : k.toInt ≠ 0 := fun h => hne (Int64.toInt_inj.mp (by simpa using h))
      rw [Int64.toInt_zero]
      omega

end Loc

/-! ## Combining stores -/

namespace Store

variable {p : Program} {c : Config} {s t : Store} {l : Loc} {e : LocSet}

theorem Entry.union (h : Entry p c l e) {more : LocSet} (hmore : ∀ x ∈ more, l.MayHold p c x) :
    Entry p c l (e ∪ more) := by
  obtain ⟨x, hx⟩ := h.nonempty
  refine ⟨h.key, ⟨x, by simp [hx]⟩, fun y hy => ?_⟩
  rcases Std.ExtTreeSet.mem_union_iff.mp hy with hy | hy
  · exact h.holds y hy
  · exact hmore y hy

theorem IsReading.entry (h : IsReading e) (hkey : l.IsKey p) (hrole : l.role ≠ .callees) :
    Entry p c l e :=
  ⟨hkey, h.nonempty, fun x hx => .of_target hrole (h.targets x hx)⟩

theorem IsReading.entry_self (h : IsReading e) (v : ValueId) : Entry p c (.self v) e :=
  h.entry (Loc.IsTarget.self v |>.isKey p) (by simp [Loc.self])

theorem operand_of_object (s : Store) {v : ValueId} (h : p.isObject v = .ok true) :
    s.operand p v = .ok ((∅ : LocSet).insert (.self v)) :=
  bind_eq_ok_iff.mpr ⟨true, h, rfl⟩

theorem operand_of_not_object (s : Store) {v : ValueId} (h : p.isObject v = .ok false) :
    s.operand p v = .ok (s.values (.self v)) :=
  bind_eq_ok_iff.mpr ⟨false, h, rfl⟩

namespace WellFormed

theorem empty : WellFormed p c ∅ := by
  intro l e h
  simp at h

theorem stored_mayHold (h : WellFormed p c s) {x : Loc} (hx : x ∈ s.stored l) :
    l.MayHold p c x := by
  cases hs : s.explicit? l with
  | none => simp [stored, hs] at hx
  | some e =>
      rw [stored_of_explicit hs] at hx
      exact (h l e hs).holds x hx

theorem values_mayHold (h : WellFormed p c s) {x : Loc} (hx : x ∈ s.values l) :
    l.MayHold p c x := by
  cases hs : s.explicit? l with
  | none =>
      rw [values_of_absent hs, mem_defaults] at hx
      exact .of_default hx
  | some e =>
      rw [values_of_explicit hs] at hx
      exact (h l e hs).holds x hx

/-- Values and memory always point to something. -/
theorem values_isReading (h : WellFormed p c s) (hl : l.IsTarget) : IsReading (s.values l) := by
  refine ⟨?_, fun x hx => (h.values_mayHold hx).target⟩
  cases hs : s.explicit? l with
  | none =>
      obtain ⟨x, hx⟩ := hl.exists_default
      exact ⟨x, by rw [values_of_absent hs, mem_defaults, hx]⟩
  | some e =>
      rw [values_of_explicit hs]
      exact (h l e hs).nonempty

theorem set (h : WellFormed p c s) (he : Entry p c l e) : WellFormed p c (s.set l e) := by
  intro k e' hk
  rw [explicit?_set] at hk
  split at hk
  · next heq =>
      cases hk
      exact heq ▸ he
  · exact h k e' hk

theorem extend (h : WellFormed p c s) (he : Entry p c l e) : WellFormed p c (s.extend l e) := by
  refine h.set ?_
  rw [LocSet.union_comm]
  exact he.union (fun x hx => h.stored_mayHold hx)

theorem entry_insert (h : WellFormed p c s) (hkey : l.IsKey p) {x : Loc}
    (hx : l.MayHold p c x) : Entry p c l (((s.explicit? l).getD ∅).insert x) := by
  refine ⟨hkey, ⟨x, by simp⟩, fun y hy => ?_⟩
  rw [Std.ExtTreeSet.mem_insert, Std.LawfulEqOrd.compare_eq_iff_eq] at hy
  rcases hy with rfl | hy
  · exact hx
  · exact h.stored_mayHold hy

theorem insert (h : WellFormed p c s) (hkey : l.IsKey p) {x : Loc} (hx : l.MayHold p c x) :
    WellFormed p c (s.insert l x) :=
  h.set (h.entry_insert hkey hx)

theorem absorb (h : WellFormed p c s) (ht : WellFormed p c t) : WellFormed p c (s.absorb t) := by
  unfold Store.absorb
  refine List.foldlRecOn t.toList _ h (fun acc hacc entry hentry => ?_)
  exact hacc.extend (ht entry.1 entry.2 (mem_toList_iff.mp hentry))

theorem join (h : WellFormed p c s) (ht : WellFormed p c t) : WellFormed p c (s.join t) := by
  intro l e he
  rw [explicit?_join] at he
  split at he
  · cases he
  · next hsome =>
      cases he
      cases hs : s.explicit? l with
      | some e =>
          rw [values_of_explicit hs]
          exact (h l e hs).union (fun x hx => ht.values_mayHold hx)
      | none =>
          cases ht' : t.explicit? l with
          | none => exact absurd ⟨hs, ht'⟩ hsome
          | some e =>
              rw [values_of_explicit ht', LocSet.union_comm]
              exact (ht l e ht').union (fun x hx => h.values_mayHold hx)

/-- An operand always points to something. -/
theorem operand (h : WellFormed p c s) {v : ValueId} (hv : s.operand p v = .ok e) :
    IsReading e := by
  obtain ⟨isObject, -, hv⟩ := bind_eq_ok_iff.mp hv
  cases isObject with
  | true =>
      cases hv
      refine ⟨⟨.self v, by simp⟩, fun x hx => ?_⟩
      rw [Std.ExtTreeSet.mem_insert, Std.LawfulEqOrd.compare_eq_iff_eq] at hx
      rcases hx with rfl | hx
      · exact .self v
      · simp at hx
  | false =>
      cases hv
      exact h.values_isReading (.self v)

end WellFormed

end Store

theorem summarize_wellFormed {p : Program} {c : Config} {states : BlockStates Store}
    (h : StatesHold (Store.WellFormed p c) states) :
    (summarize states).WellFormed p c := by
  unfold summarize
  refine List.foldlRecOn states.toList _ .empty (fun acc hacc entry hentry => ?_)
  have hstate := Std.ExtTreeMap.mem_toList_iff_getElem?_eq_some.mp hentry
  exact hacc.absorb (h entry.1 entry.2 hstate).2

end CallTargets
