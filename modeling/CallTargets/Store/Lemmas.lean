import CallTargets.Store

/-!
# What the operations on stores do

Every operation is described by what it does to `explicit?`, the entry of a
location, and to `values`, the reading with defaults.  A store is determined by its
entries.
-/

namespace CallTargets

namespace Store

/-! ## Entries -/

theorem ext_explicit {s t : Store} (h : ∀ l, s.explicit? l = t.explicit? l) : s = t := by
  cases s
  cases t
  exact congrArg Store.mk (Std.ExtTreeMap.ext_getElem? h)

@[simp] theorem explicit?_empty (l : Loc) : (∅ : Store).explicit? l = none :=
  Std.ExtTreeMap.getElem?_empty

theorem explicit?_set (s : Store) (l k : Loc) (pointees : LocSet) :
    (s.set l pointees).explicit? k = if l = k then some pointees else s.explicit? k := by
  simp [set, explicit?, Std.ExtTreeMap.getElem?_insert]

@[simp] theorem explicit?_set_self (s : Store) (l : Loc) (pointees : LocSet) :
    (s.set l pointees).explicit? l = some pointees := by
  simp [explicit?_set]

theorem explicit?_set_of_ne {l k : Loc} (h : l ≠ k) (s : Store) (pointees : LocSet) :
    (s.set l pointees).explicit? k = s.explicit? k := by
  simp [explicit?_set, h]

@[simp] theorem explicit?_extend_self (s : Store) (l : Loc) (pointees : LocSet) :
    (s.extend l pointees).explicit? l = some ((s.explicit? l).getD ∅ ∪ pointees) :=
  explicit?_set_self _ _ _

theorem explicit?_extend_of_ne {l k : Loc} (h : l ≠ k) (s : Store) (pointees : LocSet) :
    (s.extend l pointees).explicit? k = s.explicit? k :=
  explicit?_set_of_ne h _ _

@[simp] theorem explicit?_insert_self (s : Store) (l pointee : Loc) :
    (s.insert l pointee).explicit? l = some (((s.explicit? l).getD ∅).insert pointee) :=
  explicit?_set_self _ _ _

theorem explicit?_insert_of_ne {l k : Loc} (h : l ≠ k) (s : Store) (pointee : Loc) :
    (s.insert l pointee).explicit? k = s.explicit? k :=
  explicit?_set_of_ne h _ _

theorem contains_iff {s : Store} {l : Loc} : s.contains l = true ↔ ∃ e, s.explicit? l = some e := by
  rw [contains, Std.ExtTreeMap.contains_eq_isSome_getElem?]
  exact Option.isSome_iff_exists

/-! ## Readings -/

theorem mem_defaults {l x : Loc} : x ∈ defaults l ↔ l.default? = some x := by
  unfold defaults
  cases l.default? with
  | none => simp
  | some d =>
    rw [Std.ExtTreeSet.mem_insert, Std.LawfulEqOrd.compare_eq_iff_eq]
    simp

theorem values_of_explicit {s : Store} {l : Loc} {e : LocSet} (h : s.explicit? l = some e) :
    s.values l = e := by
  simp [values, h]

theorem values_of_absent {s : Store} {l : Loc} (h : s.explicit? l = none) :
    s.values l = defaults l := by
  simp [values, h]

@[simp] theorem values_set_self (s : Store) (l : Loc) (pointees : LocSet) :
    (s.set l pointees).values l = pointees :=
  values_of_explicit (explicit?_set_self s l pointees)

theorem values_set_of_ne {l k : Loc} (h : l ≠ k) (s : Store) (pointees : LocSet) :
    (s.set l pointees).values k = s.values k := by
  simp [values, explicit?_set_of_ne h]

end Store

end CallTargets
