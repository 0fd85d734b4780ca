import CallTargets.Proofs.AddressTypes
import CallTargets.Proofs.ExactOffsets
import CallTargets.Proofs.MemoryWrites

/-!
# Chained address computations

An address inside a part of an object can be computed in two steps, first the address of the part
and then from there, or in one step with all indices.  The distances add up, as the first index
from the part on steps over nothing.  So both ways lead to the same addresses, and they refuse the
same ones, if no pointee has a negative slot: then an overflow on the way is one at the end.
-/

namespace CallTargets

/-! ## Distances -/

theorem Ty.locate_append {ty part : Ty} {ns ms : List Nat} {offset : Nat} :
    ty.locate (ns ++ ms) = some (offset, part) ↔
      ∃ before inner d, ty.locate ns = some (before, inner) ∧ inner.locate ms = some (d, part) ∧
        before + d = offset := by
  induction ns generalizing ty offset with
  | nil => simp [locate]
  | cons n ns ih =>
      constructor
      · intro h
        obtain ⟨first, field, rest, hpart, hrest, rfl⟩ := locate_cons.mp h
        obtain ⟨before, inner, d, hns, hms, rfl⟩ := ih.mp hrest
        exact ⟨first + before, inner, d, locate_cons.mpr ⟨_, _, _, hpart, hns, rfl⟩, hms,
          Nat.add_assoc ..⟩
      · rintro ⟨_, inner, d, hlocate, hms, rfl⟩
        obtain ⟨first, field, before, hpart, hns, rfl⟩ := locate_cons.mp hlocate
        exact locate_cons.mpr ⟨first, field, before + d, hpart, ih.mpr ⟨_, _, _, hns, hms, rfl⟩,
          (Nat.add_assoc ..).symm⟩

namespace Offset

variable {p : Program} {ty part : Ty} {indices more : List ValueId} {zero : ValueId}

/-- The indices are constants that lead from a value of the type to `part`. -/
def Reaches (p : Program) (ty : Ty) (indices : List ValueId) (part : Ty) : Prop :=
  ∃ n ns before, List.Forall₂ (Reads p) indices (n :: ns) ∧ ty.locate ns = some (before, part)

theorem Reaches.ne_nil (h : Reaches p ty indices part) : indices ≠ [] := by
  obtain ⟨n, ns, before, hreads, -⟩ := h
  rintro rfl
  cases hreads

theorem Reaches.fits (h : Reaches p ty indices part) (hfits : ty.Fits) : part.Fits := by
  obtain ⟨n, ns, before, -, hlocate⟩ := h
  exact hfits.inside (Ty.inside_of_locate hlocate)

theorem forall₂_reads_append {ks : List Nat} : List.Forall₂ (Reads p) (indices ++ more) ks ↔
    ∃ ns ms, List.Forall₂ (Reads p) indices ns ∧ List.Forall₂ (Reads p) more ms ∧
      ks = ns ++ ms := by
  constructor
  · intro h
    induction indices generalizing ks with
    | nil => exact ⟨[], ks, .nil, h, rfl⟩
    | cons v indices ih =>
        cases h with
        | cons hv hrest =>
            obtain ⟨ns, ms, hns, hms, rfl⟩ := ih hrest
            exact ⟨_ :: ns, ms, .cons hv hns, hms, rfl⟩
  · rintro ⟨ns, ms, hns, hms, rfl⟩
    exact List.rel_append hns hms

/-- The offset of constant indices. -/
theorem constant_eq_ok_iff_of_reads (hfits : ty.Fits) {ns : List Nat}
    (hreads : List.Forall₂ (Reads p) indices ns) {d : Int64} : constant p ty indices = .ok d ↔
      ∃ n, ty.distance ns = some n ∧ n ≤ offsetMax ∧ d.toInt = n := by
  rw [constant_eq_ok_iff fun _ => hfits]
  constructor
  · rintro ⟨ms, n, hms, hn⟩
    rw [reads_unique hreads hms]
    exact ⟨n, hn⟩
  · rintro ⟨n, hn⟩
    exact ⟨ns, n, hreads, hn⟩

theorem constant_append (hfits : ty.Fits) (h : Reaches p ty indices part) (hzero : Reads p zero 0)
    {d : Int64} : constant p ty (indices ++ more) = .ok d ↔
      ∃ d₁ d₂, constant p ty indices = .ok d₁ ∧ constant p part (zero :: more) = .ok d₂ ∧
        d₁.toInt + d₂.toInt ≤ offsetMax ∧ d.toInt = d₁.toInt + d₂.toInt := by
  have hpart := h.fits hfits
  obtain ⟨n, ns, before, hreads, hlocate⟩ := h
  have hfirst : ty.distance (n :: ns) = some (n * ty.size + before) := by
    rw [Ty.distance, hlocate]
    rfl
  have hword : ∀ k ≤ offsetMax, ∃ d : Int64, d.toInt = k :=
    fun k hk => ⟨.ofNat k, toInt_ofNat_of_le hk⟩
  constructor
  · intro hd
    obtain ⟨ks, total, hks, -⟩ := (constant_eq_ok_iff fun _ => hfits).mp hd
    obtain ⟨_, ms, hns, hms, rfl⟩ := forall₂_reads_append.mp hks
    cases reads_unique hreads hns
    obtain ⟨total, htotal, hle, hd⟩ := (constant_eq_ok_iff_of_reads hfits hks).mp hd
    obtain ⟨⟨offset, last⟩, hoffset, rfl⟩ := Option.map_eq_some_iff.mp htotal
    obtain ⟨before', inner, rest, hlocate', hrest, rfl⟩ := Ty.locate_append.mp hoffset
    rw [hlocate] at hlocate'
    cases hlocate'
    dsimp only at hle hd
    obtain ⟨d₁, hd₁⟩ := hword (n * ty.size + before) (by omega)
    obtain ⟨d₂, hd₂⟩ := hword rest (by omega)
    have hsecond : part.distance (0 :: ms) = some rest := by simp [Ty.distance, hrest]
    refine ⟨d₁, d₂, ?_, ?_, by omega, by omega⟩
    · exact (constant_eq_ok_iff_of_reads hfits hreads).mpr ⟨_, hfirst, by omega, hd₁⟩
    · exact (constant_eq_ok_iff_of_reads hpart (.cons hzero hms)).mpr
        ⟨_, hsecond, by omega, hd₂⟩
  · rintro ⟨d₁, d₂, hd₁, hd₂, hle, hd⟩
    obtain ⟨_, hn, -, hd₁⟩ := (constant_eq_ok_iff_of_reads hfits hreads).mp hd₁
    rw [hfirst] at hn
    cases hn
    obtain ⟨ks, total, hks, htotal, -, hd₂⟩ := (constant_eq_ok_iff fun _ => hpart).mp hd₂
    cases hks with
    | @cons _ k _ ms hk hms =>
        cases Reads.unique hzero hk
        obtain ⟨⟨rest, last⟩, hrest, rfl⟩ := Option.map_eq_some_iff.mp htotal
        dsimp only at hd₂
        have hall : List.Forall₂ (Reads p) (indices ++ more) (n :: ns ++ ms) :=
          List.rel_append hreads hms
        have hlast : ty.locate (ns ++ ms) = some (before + rest, last) :=
          Ty.locate_append.mpr ⟨before, part, rest, hlocate, hrest, rfl⟩
        refine (constant_eq_ok_iff_of_reads hfits hall).mpr
          ⟨n * ty.size + (before + rest), ?_, by omega, by omega⟩
        rw [List.cons_append, Ty.distance, hlast]
        rfl

theorem add?_eq_some_iff {a b k : Int64} : add? a b = some k ↔ k.toInt = a.toInt + b.toInt := by
  constructor
  · exact toInt_add?
  · intro hk
    have hlow := k.minValue_le_toInt
    have hhigh := k.toInt_le
    unfold add?
    dsimp only
    rw [if_pos (by omega), ← hk, Int64.ofInt_toInt]

end Offset

/-! ## Moved pointees -/

namespace Loc

/-- Where an address computation over the distance `d` takes a pointee, unless the pointee has no
slot or the new slot is no word. -/
def moved? (d : Int64) (x : Loc) : Option Loc :=
  x.slot?.bind fun slot => (Offset.add? slot d).map (offset x.base)

variable {d d₁ d₂ k : Int64} {x y z : Loc}

theorem moved?_eq_some_iff (hx : x.slot? = some k) :
    x.moved? d = some y ↔ ∃ k' : Int64, k'.toInt = k.toInt + d.toInt ∧ offset x.base k' = y := by
  rw [moved?, hx, Option.bind_some, Option.map_eq_some_iff]
  simp only [Offset.add?_eq_some_iff]

@[simp] theorem slot?_offset (base : ValueId) (k : Int64) : (offset base k).slot? = some k := by
  unfold offset
  split
  · next hzero => rw [hzero]; rfl
  · rfl

theorem exists_moved_iff (hx : x.slot? = some k) :
    (∃ y, x.moved? d = some y) ↔ ∃ k' : Int64, k'.toInt = k.toInt + d.toInt := by
  simp [moved?_eq_some_iff hx]

/-- Two moves one after the other are one over both distances. -/
theorem moved?_trans (hx : x.slot? = some k) (hd : d.toInt = d₁.toInt + d₂.toInt)
    (hy : x.moved? d₁ = some y) : y.moved? d₂ = some z ↔ x.moved? d = some z := by
  obtain ⟨k₁, hk₁, rfl⟩ := (moved?_eq_some_iff hx).mp hy
  rw [moved?_eq_some_iff hx, moved?_eq_some_iff (slot?_offset _ _), base_offset]
  rw [hk₁, hd, Int.add_assoc]

/-- A pointee that is moved over both distances is moved over the first of them. -/
theorem exists_moved_of_add (hx : x.slot? = some k) (hk : 0 ≤ k.toInt) (h₁ : 0 ≤ d₁.toInt)
    (h₂ : 0 ≤ d₂.toInt) (hd : d.toInt = d₁.toInt + d₂.toInt) (hz : x.moved? d = some z) :
    ∃ y, x.moved? d₁ = some y := by
  obtain ⟨k₂, hk₂, -⟩ := (moved?_eq_some_iff hx).mp hz
  have hhigh := k₂.toInt_lt
  refine (exists_moved_iff hx).mpr ⟨.ofInt (k.toInt + d₁.toInt), ?_⟩
  exact Int64.toInt_ofInt_of_le (by omega) (by omega)

end Loc

namespace Transfer

variable {p : Program} {inst base : ValueId} {d : Int64} {s s' : Store} {pointees e : LocSet}
  {xs ys : List Loc}

/-- What an address computation does with one pointee. -/
def shiftOne (p : Program) (inst : ValueId) (d : Int64) (s : Store) (x : Loc) :
    Failing Interrupted Store :=
  match x.slot? with
  | none => return s
  | some slot =>
    match Offset.add? slot d with
    | some slot => return s.insert (.self inst) (.offset x.base slot)
    | none => refuse p inst .offsetOverflow s

theorem shift_eq_foldlM (hpointees : s.operand p base = .ok pointees) :
    shift p inst base d s = pointees.toList.foldlM (shiftOne p inst d) s := by
  rw [shift, hpointees]
  rfl

theorem shiftOne_eq_ok_iff {x : Loc} {k : Int64} (hx : x.slot? = some k) :
    shiftOne p inst d s x = .ok s' ↔ ∃ y, x.moved? d = some y ∧ s.insert (.self inst) y = s' := by
  rw [shiftOne, Loc.moved?, hx, Option.bind_some]
  dsimp only
  cases Offset.add? k d with
  | some slot => simp [pure, Except.pure]
  | none =>
      simp only [Option.map_none, reduceCtorEq, false_and, exists_false, iff_false]
      intro h
      obtain ⟨cause, -, h⟩ := bind_eq_ok_iff.mp h
      cases h

theorem foldlM_shiftOne_eq_ok_iff (hslots : ∀ x ∈ xs, ∃ k, x.slot? = some k) :
    xs.foldlM (shiftOne p inst d) s = .ok s' ↔
      (∀ x ∈ xs, ∃ y, x.moved? d = some y) ∧
        (xs.filterMap (Loc.moved? d)).foldl (fun s y => s.insert (.self inst) y) s = s' := by
  induction xs generalizing s with
  | nil => simp [pure, Except.pure]
  | cons x xs ih =>
      obtain ⟨⟨k, hk⟩, hslots⟩ := List.forall_mem_cons.mp hslots
      rw [List.foldlM_cons, bind_eq_ok_iff, List.forall_mem_cons]
      constructor
      · rintro ⟨mid, hmid, h⟩
        obtain ⟨y, hy, rfl⟩ := (shiftOne_eq_ok_iff hk).mp hmid
        obtain ⟨hall, h⟩ := (ih hslots).mp h
        rw [List.filterMap_cons_some hy]
        exact ⟨⟨⟨y, hy⟩, hall⟩, h⟩
      · rintro ⟨⟨⟨y, hy⟩, hall⟩, h⟩
        rw [List.filterMap_cons_some hy] at h
        exact ⟨_, (shiftOne_eq_ok_iff hk).mpr ⟨y, hy, rfl⟩, (ih hslots).mpr ⟨hall, h⟩⟩

/-- All that is moved is added to what the result may point to. -/
theorem mem_stored_foldl_insert {l x : Loc} :
    x ∈ (ys.foldl (fun s y => s.insert l y) s).stored l ↔ x ∈ s.stored l ∨ x ∈ ys := by
  induction ys generalizing s with
  | nil => simp
  | cons y ys ih =>
      rw [List.foldl_cons, ih, Store.stored, Store.explicit?_insert_self, Option.getD_some,
        Std.ExtTreeSet.mem_insert, Std.LawfulEqOrd.compare_eq_iff_eq, List.mem_cons, Store.stored]
      tauto

theorem explicit?_foldl_insert_of_ne {l l' : Loc} (h : l ≠ l') :
    (ys.foldl (fun s y => s.insert l y) s).explicit? l' = s.explicit? l' := by
  induction ys generalizing s with
  | nil => rfl
  | cons y ys ih => rw [List.foldl_cons, ih, Store.explicit?_insert_of_ne h]

/-- The addresses that are computed from pointees with slots, for a result that nothing is known
about. -/
structure Moves (d : Int64) (pointees e : LocSet) : Prop where
  all : ∀ x ∈ pointees, ∃ y, x.moved? d = some y
  mem_iff : ∀ y, y ∈ e ↔ ∃ x ∈ pointees, x.moved? d = some y

theorem moves_of_shift (hpointees : s.operand p base = .ok pointees)
    (hslots : ∀ x ∈ pointees, ∃ k, x.slot? = some k) (hne : ∃ x, x ∈ pointees)
    (hfresh : s.contains (.self inst) = false) (h : shift p inst base d s = .ok s') :
    Moves d pointees (s'.values (.self inst)) ∧
      ∀ l, .self inst ≠ l → s'.explicit? l = s.explicit? l := by
  have hslots : ∀ x ∈ pointees.toList, ∃ k, x.slot? = some k := by simpa using hslots
  rw [shift_eq_foldlM hpointees] at h
  obtain ⟨hall, rfl⟩ := (foldlM_shiftOne_eq_ok_iff hslots).mp h
  simp only [Std.ExtTreeSet.mem_toList] at hall
  refine ⟨⟨hall, fun y => ?_⟩, fun l hl => explicit?_foldl_insert_of_ne hl⟩
  have hmem : ∀ y, y ∈ (((pointees.toList.filterMap (Loc.moved? d)).foldl
      (fun s y => s.insert (.self inst) y) s).stored (.self inst)) ↔
        ∃ x ∈ pointees, x.moved? d = some y := by
    intro y
    rw [mem_stored_foldl_insert, Store.stored, Store.not_contains_iff.mp hfresh]
    simp
  obtain ⟨x, hx⟩ := hne
  obtain ⟨y', hy'⟩ := hall x hx
  obtain ⟨e, he⟩ := Store.contains_iff.mp
    (Store.contains_of_mem_stored ((hmem y').mpr ⟨x, hx, hy'⟩))
  rw [Store.values_of_explicit he, ← Store.stored_of_explicit he]
  exact hmem y

namespace Moves

variable {d₁ d₂ : Int64} {e₁ e' : LocSet}

theorem unique (h : Moves d pointees e) (h' : Moves d pointees e') : e = e' :=
  Std.ExtTreeSet.ext_mem fun y => (h.mem_iff y).trans (h'.mem_iff y).symm

theorem slots (h : Moves d pointees e) (hslots : ∀ x ∈ pointees, ∃ k, x.slot? = some k) :
    ∀ y ∈ e, ∃ k, y.slot? = some k := by
  intro y hy
  obtain ⟨x, hx, hxy⟩ := (h.mem_iff y).mp hy
  obtain ⟨k, hk⟩ := hslots x hx
  obtain ⟨k', -, rfl⟩ := (Loc.moved?_eq_some_iff hk).mp hxy
  exact ⟨k', Loc.slot?_offset _ _⟩

theorem nonempty (h : Moves d pointees e) (hne : ∃ x, x ∈ pointees) : ∃ y, y ∈ e := by
  obtain ⟨x, hx⟩ := hne
  obtain ⟨y, hy⟩ := h.all x hx
  exact ⟨y, (h.mem_iff y).mpr ⟨x, hx, hy⟩⟩

theorem trans (hslots : ∀ x ∈ pointees, ∃ k, x.slot? = some k)
    (hd : d.toInt = d₁.toInt + d₂.toInt) (h₁ : Moves d₁ pointees e₁) (h₂ : Moves d₂ e₁ e) :
    Moves d pointees e := by
  constructor
  · intro x hx
    obtain ⟨k, hk⟩ := hslots x hx
    obtain ⟨y, hxy⟩ := h₁.all x hx
    obtain ⟨z, hyz⟩ := h₂.all y ((h₁.mem_iff y).mpr ⟨x, hx, hxy⟩)
    exact ⟨z, (Loc.moved?_trans hk hd hxy).mp hyz⟩
  · intro z
    rw [h₂.mem_iff]
    constructor
    · rintro ⟨y, hy, hyz⟩
      obtain ⟨x, hx, hxy⟩ := (h₁.mem_iff y).mp hy
      obtain ⟨k, hk⟩ := hslots x hx
      exact ⟨x, hx, (Loc.moved?_trans hk hd hxy).mp hyz⟩
    · rintro ⟨x, hx, hxz⟩
      obtain ⟨k, hk⟩ := hslots x hx
      obtain ⟨y, hxy⟩ := h₁.all x hx
      exact ⟨y, (h₁.mem_iff y).mpr ⟨x, hx, hxy⟩, (Loc.moved?_trans hk hd hxy).mpr hxz⟩

end Moves

theorem exists_shift (hpointees : s.operand p base = .ok pointees)
    (hslots : ∀ x ∈ pointees, ∃ k, x.slot? = some k)
    (hall : ∀ x ∈ pointees, ∃ y, x.moved? d = some y) : ∃ s', shift p inst base d s = .ok s' := by
  have hslots : ∀ x ∈ pointees.toList, ∃ k, x.slot? = some k := by simpa using hslots
  rw [shift_eq_foldlM hpointees]
  exact ⟨_, (foldlM_shiftOne_eq_ok_iff hslots).mpr ⟨by simpa using hall, rfl⟩⟩

end Transfer

/-! ## Results of address computations -/

/-- `g` computes an address from `base`, and nothing is known about it in the store. -/
structure Computes (p : Program) (s : Store) (g base : ValueId) (elem : Ty)
    (indices : List ValueId) : Prop where
  inst : ∃ block line, p.inst? g = .ok (some ⟨block, .gep base elem indices, line⟩)
  fresh : s.contains (.self g) = false

namespace Computes

variable {p : Program} {c : Config} {path : List FuncId} {s s' : Store} {g base : ValueId}
  {elem : Ty} {indices : List ValueId} {pointees : LocSet}

theorem value (h : Computes p s g base elem indices) :
    ∃ value block line, p.value g = .ok value ∧
      value.kind = .inst ⟨block, .gep base elem indices, line⟩ := by
  obtain ⟨⟨block, line, hinst⟩, -⟩ := h
  obtain ⟨value, hvalue, hkind⟩ := Program.inst?_eq_some_iff.mp hinst
  exact ⟨value, block, line, fetch_eq_ok_iff.mpr hvalue, hkind⟩

theorem isPtr (h : Computes p s g base elem indices) (htyped : p.AddressTyped) :
    p.isPtr g = .ok true := by
  obtain ⟨value, block, line, hvalue, hkind⟩ := h.value
  have hty := htyped value (Program.mem_of_fetch hvalue) _ _ _ _ _ hkind
  refine bind_eq_ok_iff.mpr ⟨value, hvalue, ?_⟩
  rw [hty]
  rfl

theorem operand (h : Computes p s g base elem indices) (s' : Store) :
    s'.operand p g = .ok (s'.values (.self g)) := by
  obtain ⟨value, block, line, hvalue, hkind⟩ := h.value
  apply s'.operand_of_not_object
  refine bind_eq_ok_iff.mpr ⟨value, hvalue, ?_⟩
  rw [hkind]
  rfl

theorem stepAt_eq_ok_iff (h : Computes p s g base elem indices) (htyped : p.AddressTyped)
    (hne : indices ≠ []) : stepAt p c path g s = .ok s' ↔
      ∃ d, Offset.constant p elem indices = .ok d ∧ Transfer.shift p g base d s = .ok s' := by
  have hptr := h.isPtr htyped
  obtain ⟨⟨block, line, hinst⟩, -⟩ := h
  have hplain : stepAt p c path g s = Transfer.gep p g base elem indices s := by
    rw [stepAt_eq_plain hinst nofun, Transfer.plain,
      show (p.isPtr g : Failing Interrupted Bool) = .ok true from
        Failing.ofExcept_eq_ok_iff.mpr hptr]
    rfl
  rw [hplain, Transfer.gep, if_neg (by simpa using hne)]
  cases hconstant : Offset.constant p elem indices with
  | ok d => simp
  | error halt =>
      simp only [reduceCtorEq, false_and, exists_false, iff_false]
      intro hok
      cases halt with
      | failed reason =>
          obtain ⟨cause, -, hok⟩ := bind_eq_ok_iff.mp hok
          cases hok
      | fault cause => cases hok
      | exhausted => cases hok

theorem moves_of_step (h : Computes p s g base elem indices) (htyped : p.AddressTyped)
    (hne : indices ≠ []) (hpointees : s.operand p base = .ok pointees)
    (hslots : ∀ x ∈ pointees, ∃ k, x.slot? = some k) (hsome : ∃ x, x ∈ pointees)
    (hstep : stepAt p c path g s = .ok s') :
    ∃ d e, Offset.constant p elem indices = .ok d ∧ s'.operand p g = .ok e ∧
      Transfer.Moves d pointees e ∧ ∀ l, .self g ≠ l → s'.explicit? l = s.explicit? l := by
  obtain ⟨d, hd, hshift⟩ := (h.stepAt_eq_ok_iff htyped hne).mp hstep
  obtain ⟨hmoves, hframe⟩ := Transfer.moves_of_shift hpointees hslots hsome h.fresh hshift
  exact ⟨d, _, hd, h.operand s', hmoves, hframe⟩

theorem exists_step (c : Config) (path : List FuncId) (h : Computes p s g base elem indices)
    (htyped : p.AddressTyped) (hne : indices ≠ []) (hpointees : s.operand p base = .ok pointees)
    (hslots : ∀ x ∈ pointees, ∃ k, x.slot? = some k) {d : Int64}
    (hd : Offset.constant p elem indices = .ok d)
    (hall : ∀ x ∈ pointees, ∃ y, x.moved? d = some y) : ∃ s', stepAt p c path g s = .ok s' := by
  obtain ⟨s', hshift⟩ := Transfer.exists_shift hpointees hslots hall
  exact ⟨s', (h.stepAt_eq_ok_iff htyped hne).mpr ⟨d, hd, hshift⟩⟩

theorem ne (h : Computes p s g base elem indices) {g' : ValueId} {elem' : Ty}
    {indices' : List ValueId} (h' : Computes p s g' g elem' indices') (hbase : g ≠ base) :
    g ≠ g' := by
  rintro rfl
  obtain ⟨block, line, hinst⟩ := h.inst
  obtain ⟨block', line', hinst'⟩ := h'.inst
  rw [hinst] at hinst'
  cases hinst'
  exact hbase rfl

theorem of_frame (h : Computes p s g base elem indices)
    (hframe : s'.explicit? (.self g) = s.explicit? (.self g)) :
    Computes p s' g base elem indices where
  inst := h.inst
  fresh := by
    rw [Store.not_contains_iff, hframe, ← Store.not_contains_iff]
    exact h.fresh

end Computes

/-! ## Chains -/

/-- The address `g₂` is computed from `g₁`, which is the address of a part of `ty` and computed
from `base`, and `g` is computed from `base` with the indices of both.  The `pointees` of `base`
have slots that are not negative. -/
structure Chain (p : Program) (s : Store) (pointees : LocSet) (base g₁ g₂ g : ValueId)
    (ty part : Ty) (indices : List ValueId) (zero : ValueId) (more : List ValueId) : Prop where
  operand : s.operand p base = .ok pointees
  nonempty : ∃ x, x ∈ pointees
  slots : ∀ x ∈ pointees, ∃ k, x.slot? = some k ∧ 0 ≤ k.toInt
  first : Computes p s g₁ base ty indices
  second : Computes p s g₂ g₁ part (zero :: more)
  combined : Computes p s g base ty (indices ++ more)
  ne_base : g₁ ≠ base

namespace Chain

open Offset (Reaches Reads constant)

variable {p : Program} {c : Config} {path : List FuncId} {s s₁ s₂ s' : Store}
  {base g₁ g₂ g zero : ValueId} {ty part : Ty} {indices more : List ValueId}
  {pointees : LocSet}

theorem slot (h : Chain p s pointees base g₁ g₂ g ty part indices zero more) :
    ∀ x ∈ pointees, ∃ k, x.slot? = some k :=
  fun x hx => (h.slots x hx).imp fun _ => And.left

/-- The second address is still unknown when the first one has been computed. -/
theorem second_of_frame (h : Chain p s pointees base g₁ g₂ g ty part indices zero more)
    (hframe : ∀ l, .self g₁ ≠ l → s₁.explicit? l = s.explicit? l) :
    Computes p s₁ g₂ g₁ part (zero :: more) :=
  h.second.of_frame (hframe _ fun heq => h.first.ne h.second h.ne_base (congrArg Loc.base heq))

/-- A pointee that is moved over two distances has room for their sum. -/
theorem le_offsetMax_of_moved {d₁ d₂ k : Int64} {x y z : Loc} (hx : x.slot? = some k)
    (hk : 0 ≤ k.toInt) (hy : x.moved? d₁ = some y) (hz : y.moved? d₂ = some z) :
    d₁.toInt + d₂.toInt ≤ offsetMax := by
  obtain ⟨k₁, hk₁, rfl⟩ := (Loc.moved?_eq_some_iff hx).mp hy
  obtain ⟨k₂, hk₂, -⟩ := (Loc.moved?_eq_some_iff (Loc.slot?_offset _ _)).mp hz
  have hhigh := k₂.toInt_lt
  have hmax : (offsetMax : Int) = 2 ^ 63 - 1 := by decide
  omega

/-- The combined computation finds what the chain has found. -/
theorem combined_of_chained (h : Chain p s pointees base g₁ g₂ g ty part indices zero more)
    (htyped : p.AddressTyped) (hfits : ty.Fits) (hreaches : Reaches p ty indices part)
    (hzero : Reads p zero 0) (hs₁ : stepAt p c path g₁ s = .ok s₁)
    (hs₂ : stepAt p c path g₂ s₁ = .ok s₂) :
    ∃ s', stepAt p c path g s = .ok s' ∧ s'.operand p g = s₂.operand p g₂ := by
  have hne : indices ++ more ≠ [] := List.append_ne_nil_of_left_ne_nil hreaches.ne_nil _
  obtain ⟨d₁, e₁, hd₁, he₁, hmoves₁, hframe⟩ :=
    h.first.moves_of_step htyped hreaches.ne_nil h.operand h.slot h.nonempty hs₁
  obtain ⟨d₂, e₂, hd₂, he₂, hmoves₂, -⟩ :=
    (h.second_of_frame hframe).moves_of_step htyped (List.cons_ne_nil _ _) he₁
      (hmoves₁.slots h.slot) (hmoves₁.nonempty h.nonempty) hs₂
  have hsum : d₁.toInt + d₂.toInt ≤ offsetMax := by
    obtain ⟨x, hx⟩ := h.nonempty
    obtain ⟨k, hk, hpos⟩ := h.slots x hx
    obtain ⟨y, hxy⟩ := hmoves₁.all x hx
    obtain ⟨z, hyz⟩ := hmoves₂.all y ((hmoves₁.mem_iff y).mpr ⟨x, hx, hxy⟩)
    exact le_offsetMax_of_moved hk hpos hxy hyz
  have hpos₁ := Offset.constant_nonneg hd₁
  have hpos₂ := Offset.constant_nonneg hd₂
  have hmax : (offsetMax : Int) = 2 ^ 63 - 1 := by decide
  have hd : (Int64.ofInt (d₁.toInt + d₂.toInt)).toInt = d₁.toInt + d₂.toInt :=
    Int64.toInt_ofInt_of_le (by omega) (by omega)
  have hconstant := (Offset.constant_append hfits hreaches hzero).mpr
    ⟨d₁, d₂, hd₁, hd₂, hsum, hd⟩
  have hmoves := hmoves₁.trans h.slot hd hmoves₂
  obtain ⟨s', hs'⟩ :=
    h.combined.exists_step c path htyped hne h.operand h.slot hconstant hmoves.all
  obtain ⟨d', e', hd', he', hmoves', -⟩ :=
    h.combined.moves_of_step htyped hne h.operand h.slot h.nonempty hs'
  rw [hconstant] at hd'
  cases hd'
  rw [hmoves'.unique hmoves] at he'
  exact ⟨s', hs', he'.trans he₂.symm⟩

/-- The chain finds what the combined computation has found. -/
theorem chained_of_combined (h : Chain p s pointees base g₁ g₂ g ty part indices zero more)
    (htyped : p.AddressTyped) (hfits : ty.Fits) (hreaches : Reaches p ty indices part)
    (hzero : Reads p zero 0) (hs' : stepAt p c path g s = .ok s') :
    ∃ s₁ s₂, stepAt p c path g₁ s = .ok s₁ ∧ stepAt p c path g₂ s₁ = .ok s₂ ∧
      s₂.operand p g₂ = s'.operand p g := by
  have hne : indices ++ more ≠ [] := List.append_ne_nil_of_left_ne_nil hreaches.ne_nil _
  obtain ⟨d, e, hd, he, hmoves, -⟩ :=
    h.combined.moves_of_step htyped hne h.operand h.slot h.nonempty hs'
  obtain ⟨d₁, d₂, hd₁, hd₂, -, hsum⟩ := (Offset.constant_append hfits hreaches hzero).mp hd
  have hall₁ : ∀ x ∈ pointees, ∃ y, x.moved? d₁ = some y := by
    intro x hx
    obtain ⟨k, hk, hpos⟩ := h.slots x hx
    obtain ⟨z, hxz⟩ := hmoves.all x hx
    exact Loc.exists_moved_of_add hk hpos (Offset.constant_nonneg hd₁)
      (Offset.constant_nonneg hd₂) hsum hxz
  obtain ⟨s₁, hs₁⟩ :=
    h.first.exists_step c path htyped hreaches.ne_nil h.operand h.slot hd₁ hall₁
  obtain ⟨d₁', e₁, hd₁', he₁, hmoves₁, hframe⟩ :=
    h.first.moves_of_step htyped hreaches.ne_nil h.operand h.slot h.nonempty hs₁
  rw [hd₁] at hd₁'
  cases hd₁'
  have hall₂ : ∀ y ∈ e₁, ∃ z, y.moved? d₂ = some z := by
    intro y hy
    obtain ⟨x, hx, hxy⟩ := (hmoves₁.mem_iff y).mp hy
    obtain ⟨k, hk⟩ := h.slot x hx
    obtain ⟨z, hxz⟩ := hmoves.all x hx
    exact ⟨z, (Loc.moved?_trans hk hsum hxy).mpr hxz⟩
  have hsecond := h.second_of_frame hframe
  obtain ⟨s₂, hs₂⟩ := hsecond.exists_step c path htyped (List.cons_ne_nil _ _) he₁
    (hmoves₁.slots h.slot) hd₂ hall₂
  obtain ⟨d₂', e₂, hd₂', he₂, hmoves₂, -⟩ :=
    hsecond.moves_of_step htyped (List.cons_ne_nil _ _) he₁ (hmoves₁.slots h.slot)
      (hmoves₁.nonempty h.nonempty) hs₂
  rw [hd₂] at hd₂'
  cases hd₂'
  rw [(hmoves₁.trans h.slot hsum hmoves₂).unique hmoves] at he₂
  exact ⟨s₁, s₂, hs₁, hs₂, he₂.trans he.symm⟩

end Chain

open Offset (Reaches Reads constant)

/-- The offset of two lists of indices in a row is the sum of the offset of the first list and the
one from the part that it reaches.  It is given just if both are given and the sum is one.  So a
chain of two address computations and a combined one succeed together and find the same. -/
theorem chained_addresses_agree {steps : List Step} {built : Built}
    (hbuilt : build steps = .ok built) {ty part : Ty} {slots : Nat} (hslots : ty.slots = .ok slots)
    {indices : List ValueId} (hreaches : Reaches built.program ty indices part) {zero : ValueId}
    (hzero : Reads built.program zero 0) (more : List ValueId) :
    (∀ d, constant built.program ty (indices ++ more) = .ok d ↔
      ∃ d₁ d₂, constant built.program ty indices = .ok d₁ ∧
        constant built.program part (zero :: more) = .ok d₂ ∧
        d₁.toInt + d₂.toInt ≤ offsetMax ∧ d.toInt = d₁.toInt + d₂.toInt) ∧
    ∀ c path s pointees base g₁ g₂ g,
      Chain built.program s pointees base g₁ g₂ g ty part indices zero more → ∀ e,
        (∃ s₁ s₂, stepAt built.program c path g₁ s = .ok s₁ ∧
          stepAt built.program c path g₂ s₁ = .ok s₂ ∧ s₂.operand built.program g₂ = .ok e) ↔
        ∃ s', stepAt built.program c path g s = .ok s' ∧ s'.operand built.program g = .ok e := by
  have hfits := Ty.fits_of_slots hslots
  have htyped := addressTyped_of_build hbuilt
  refine ⟨fun d => Offset.constant_append hfits hreaches hzero, ?_⟩
  intro c path s pointees base g₁ g₂ g h e
  constructor
  · rintro ⟨s₁, s₂, hs₁, hs₂, he⟩
    obtain ⟨s', hs', hsame⟩ := h.combined_of_chained htyped hfits hreaches hzero hs₁ hs₂
    exact ⟨s', hs', hsame.trans he⟩
  · rintro ⟨s', hs', he⟩
    obtain ⟨s₁, s₂, hs₁, hs₂, hsame⟩ := h.chained_of_combined htyped hfits hreaches hzero hs'
    exact ⟨s₁, s₂, hs₁, hs₂, hsame.trans he⟩

/-- An array of pairs of a pointer and a pair.  `field` is the last pointer of the second element,
which is found by way of the pair that it is in, and `direct` is found at once. -/
def nested : List Step :=
  let outer : Ty := .struct [.ptr, .struct [.ptr, .ptr]]
  [.global "table", .int 0, .int 1, .define "main" [] .void,
    .gep "pair" outer (.ofNat 0) [.ofNat 2, .ofNat 2],
    .gep "field" (.struct [.ptr, .ptr]) (.ofNat 4) [.ofNat 1, .ofNat 2],
    .gep "direct" outer (.ofNat 0) [.ofNat 2, .ofNat 2, .ofNat 2], .ret none]

theorem chained_addresses_agree_nested : ∃ built s₁ s₂ s' e, build nested = .ok built ∧
    stepAt built.program {} [.ofNat 0] (.ofNat 4) ∅ = .ok s₁ ∧
    stepAt built.program {} [.ofNat 0] (.ofNat 5) s₁ = .ok s₂ ∧
    s₂.operand built.program (.ofNat 5) = .ok e ∧
    stepAt built.program {} [.ofNat 0] (.ofNat 6) ∅ = .ok s' ∧
    s'.operand built.program (.ofNat 6) = .ok e ∧ .offset (.ofNat 0) 5 ∈ e := by
  obtain ⟨built, hbuilt, hpair, hfield, hdirect, hzero, hone, hoperand, hsteps⟩ : ∃ built,
      build nested = .ok built ∧
      built.program.inst? (.ofNat 4) = .ok (some ⟨.ofNat 0, .gep (.ofNat 0)
        (.struct [.ptr, .struct [.ptr, .ptr]]) [.ofNat 2, .ofNat 2], none⟩) ∧
      built.program.inst? (.ofNat 5) = .ok (some ⟨.ofNat 0, .gep (.ofNat 4)
        (.struct [.ptr, .ptr]) [.ofNat 1, .ofNat 2], none⟩) ∧
      built.program.inst? (.ofNat 6) = .ok (some ⟨.ofNat 0, .gep (.ofNat 0)
        (.struct [.ptr, .struct [.ptr, .ptr]]) [.ofNat 2, .ofNat 2, .ofNat 2], none⟩) ∧
      built.program.asInt? (.ofNat 1) = .ok (some 0) ∧
      built.program.asInt? (.ofNat 2) = .ok (some 1) ∧
      (∅ : Store).operand built.program (.ofNat 0) = .ok ((∅ : LocSet).insert (.self (.ofNat 0))) ∧
      (stepAt built.program {} [.ofNat 0] (.ofNat 4) ∅).toOption.any (fun s₁ =>
        (stepAt built.program {} [.ofNat 0] (.ofNat 5) s₁).toOption.any (fun s₂ =>
          (s₂.operand built.program (.ofNat 5)).toOption.any (fun e =>
            decide (.offset (.ofNat 0) 5 ∈ e)))) = true :=
    ⟨_, rfl, rfl, rfl, rfl, rfl, rfl, rfl, by decide +kernel⟩
  obtain ⟨s₁, hs₁, hsteps⟩ := eq_ok_of_toOption_any hsteps
  obtain ⟨s₂, hs₂, hsteps⟩ := eq_ok_of_toOption_any hsteps
  obtain ⟨e, he, hmem⟩ := eq_ok_of_toOption_any hsteps
  have hreads : Reads built.program (.ofNat 2) 1 := ⟨1, hone, rfl⟩
  have hfresh : ∀ l, (∅ : Store).contains l = false :=
    fun l => Store.not_contains_iff.mpr (Store.explicit?_empty l)
  obtain ⟨-, hchain⟩ := chained_addresses_agree hbuilt
    (show (Ty.struct [.ptr, .struct [.ptr, .ptr]]).slots = .ok 3 from rfl)
    ⟨1, [1], 1, .cons hreads (.cons hreads .nil), rfl⟩ ⟨0, hzero, rfl⟩ [.ofNat 2]
  obtain ⟨s', hs', he'⟩ := (hchain {} [.ofNat 0] ∅ _ (.ofNat 0) (.ofNat 4) (.ofNat 5) (.ofNat 6)
    { operand := hoperand
      nonempty := ⟨_, mem_insert_empty_iff.mpr rfl⟩
      slots := fun x hx => by
        rw [mem_insert_empty_iff.mp hx]
        exact ⟨0, rfl, Int.le_refl 0⟩
      first := ⟨⟨_, _, hpair⟩, hfresh _⟩
      second := ⟨⟨_, _, hfield⟩, hfresh _⟩
      combined := ⟨⟨_, _, hdirect⟩, hfresh _⟩
      ne_base := by decide } e).mp ⟨s₁, s₂, hs₁, hs₂, he⟩
  exact ⟨built, s₁, s₂, s', e, hbuilt, hs₁, hs₂, he, hs', he', of_decide_eq_true hmem⟩

end CallTargets
