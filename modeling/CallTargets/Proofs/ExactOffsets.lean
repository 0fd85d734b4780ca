import CallTargets.Proofs.SafeTransfer
import CallTargets.Proofs.TypeParts
import Mathlib.Data.List.Forall2

/-!
# Offsets are exact or refused

The offset of an address computation is counted in words, with sizes cut down to the largest
word.  A number that was cut down is too large for an offset, and so is everything that is
counted from it.  Hence an offset that is given is the distance over unbounded numbers, and one
is given whenever that distance is small enough.  For types that fit in a word it follows that
parts which lie apart have slots of their own.
-/

namespace CallTargets

namespace Offset

variable {p : Program} {ty : Ty} {indices : List ValueId}

/-- The operand is a constant with the value `n`. -/
def Reads (p : Program) (v : ValueId) (n : Nat) : Prop :=
  ∃ k, p.asInt? v = .ok (some k) ∧ k.toInt = n

/-! ## Words -/

theorem offsetMax_lt_wordMax : offsetMax < wordMax := by decide

theorem index_eq_ok_iff {v : ValueId} {n : Nat} : index p v = .ok n ↔ Reads p v n := by
  constructor
  · intro h
    obtain ⟨k?, hk, h⟩ := bind_eq_ok_iff.mp h
    cases k? with
    | none => cases h
    | some k =>
        dsimp only at h
        split at h
        · next hpos =>
            cases h
            rw [Int64.le_iff_toInt_le, Int64.toInt_zero] at hpos
            exact ⟨k, Failing.ofExcept_eq_ok_iff.mp hk, (Int.toNat_of_nonneg hpos).symm⟩
        · cases h
  · rintro ⟨k, hk, hn⟩
    have hpos : 0 ≤ k := by
      rw [Int64.le_iff_toInt_le, Int64.toInt_zero, hn]
      omega
    refine bind_eq_ok_iff.mpr ⟨some k, Failing.ofExcept_eq_ok_iff.mpr hk, ?_⟩
    dsimp only
    rw [if_pos hpos, hn]
    rfl

theorem checked_eq_ok_iff {n m : Nat} : checked n = .ok m ↔ n = m ∧ n ≤ wordMax := by
  unfold checked word?
  split
  · next heq =>
      split at heq
      · next hn =>
          cases heq
          simp [hn]
      · cases heq
  · next heq =>
      split at heq
      · cases heq
      · next hn => simp [hn]

/-- A product that is small enough for an offset has no factor that was cut down, unless it is
zero. -/
theorem mul_min_eq_iff {n a total : Nat} (htotal : total ≤ offsetMax) :
    n * min a wordMax = total ↔ n * a = total := by
  have hmax := offsetMax_lt_wordMax
  rcases Nat.le_total a wordMax with ha | ha
  · rw [Nat.min_eq_left ha]
  · rw [Nat.min_eq_right ha]
    rcases Nat.eq_zero_or_pos n with rfl | hn
    · simp
    · have hword : wordMax ≤ n * wordMax := Nat.le_mul_of_pos_left _ hn
      have hlarge : n * wordMax ≤ n * a := Nat.mul_le_mul_left _ ha
      omega

theorem checked_mul_eq_ok_iff {n a total : Nat} (htotal : total ≤ offsetMax) :
    checked (n * min a wordMax) = .ok total ↔ n * a = total := by
  rw [checked_eq_ok_iff, mul_min_eq_iff htotal]
  have hmax := offsetMax_lt_wordMax
  refine and_iff_left_of_imp (fun h => ?_)
  rw [(mul_min_eq_iff htotal).mpr h]
  omega

/-! ## Steps into a type -/

theorem select_struct {fields : List Ty} (hfits : (Ty.struct fields).Fits) {n : Nat} {field : Ty}
    (h : fields[n]? = some field) :
    select (.struct fields) n = .ok (min (Ty.sizes (fields.take n)) wordMax, field) := by
  have hsum : Ty.slotSum (fields.take n) ≤ wordMax := by
    have hsplit := Ty.slotSum_append (fields.take n) (fields.drop n)
    rw [List.take_append_drop] at hsplit
    have hall := hfits fields .self
    omega
  have hcount := Ty.slotsFrom_take_eq hfits n
  rw [Ty.slotSum_eq hsum] at hcount
  simp only [select, h]
  exact bind_eq_ok_iff.mpr ⟨_, Failing.ofExcept_eq_ok_iff.mpr hcount, rfl⟩

theorem select_array {elem : Ty} {length : UInt64} (hfits : (Ty.array elem length).Fits)
    {n step : Nat} {inner : Ty} :
    select (.array elem length) n = .ok (step, inner) ↔
      checked (n * min elem.size wordMax) = .ok step ∧ elem = inner := by
  have hslots := Ty.slots_eq hfits.elem
  constructor
  · intro h
    obtain ⟨slots, hcount, h⟩ := bind_eq_ok_iff.mp h
    have hcount := Failing.ofExcept_eq_ok_iff.mp hcount
    rw [hslots] at hcount
    cases hcount
    obtain ⟨product, hproduct, h⟩ := bind_eq_ok_iff.mp h
    cases h
    exact ⟨hproduct, rfl⟩
  · rintro ⟨hproduct, rfl⟩
    refine bind_eq_ok_iff.mpr ⟨_, Failing.ofExcept_eq_ok_iff.mpr hslots, ?_⟩
    exact bind_eq_ok_iff.mpr ⟨step, hproduct, rfl⟩

/-- A selected part is the exact one, if the slots before it are few enough for an offset. -/
theorem select_eq_ok_iff (hfits : ty.Fits) {n step : Nat} (hstep : step ≤ offsetMax) {inner : Ty} :
    select ty n = .ok (step, inner) ↔ ty.part? n = some (step, inner) := by
  cases ty with
  | struct fields =>
      rw [Ty.part?]
      cases hfield : fields[n]? with
      | none =>
          simp [select, hfield]
      | some field =>
          have hmax := offsetMax_lt_wordMax
          rw [select_struct hfits hfield]
          simp only [Option.map_some, Option.some.injEq, Except.ok.injEq, Prod.mk.injEq]
          refine and_congr_left (fun _ => ?_)
          omega
  | array elem length =>
      rw [select_array hfits, checked_mul_eq_ok_iff hstep]
      simp [Ty.part?]
  | void | int _ | float | ptr | label => simp [select, Ty.part?]

theorem le_of_descend {offset total : Nat} (h : descend p ty offset indices = .ok total) :
    offset ≤ total := by
  induction indices generalizing ty offset with
  | nil =>
      cases h
      exact Nat.le_refl _
  | cons v rest ih =>
      obtain ⟨n, -, h⟩ := bind_eq_ok_iff.mp h
      obtain ⟨⟨step, inner⟩, -, h⟩ := bind_eq_ok_iff.mp h
      obtain ⟨next, hnext, h⟩ := bind_eq_ok_iff.mp h
      obtain ⟨rfl, -⟩ := checked_eq_ok_iff.mp hnext
      have hrest := ih h
      omega

/-- Following indices into a type gives the exact distance, if that is small enough for an
offset. -/
theorem descend_eq_ok_iff (hfits : ty.Fits) {offset total : Nat} (htotal : total ≤ offsetMax) :
    descend p ty offset indices = .ok total ↔
      ∃ ns d part, List.Forall₂ (Reads p) indices ns ∧ ty.locate ns = some (d, part) ∧
        offset + d = total := by
  have hmax := offsetMax_lt_wordMax
  induction indices generalizing ty offset with
  | nil =>
      constructor
      · intro h
        cases h
        exact ⟨[], 0, ty, .nil, rfl, rfl⟩
      · rintro ⟨ns, d, part, hreads, hlocate, rfl⟩
        cases hreads
        cases hlocate
        rfl
  | cons v rest ih =>
      constructor
      · intro h
        obtain ⟨n, hn, h⟩ := bind_eq_ok_iff.mp h
        obtain ⟨⟨step, inner⟩, hselect, h⟩ := bind_eq_ok_iff.mp h
        obtain ⟨next, hnext, h⟩ := bind_eq_ok_iff.mp h
        obtain ⟨rfl, -⟩ := checked_eq_ok_iff.mp hnext
        -- Nothing is ever taken away, so that a small total has only small steps.
        have hle := le_of_descend h
        have hpart := (select_eq_ok_iff hfits (by omega)).mp hselect
        obtain ⟨ns, d, part, hreads, hlocate, hsum⟩ :=
          (ih (hfits.inside (Ty.inside_of_part hpart))).mp h
        refine ⟨n :: ns, step + d, part, .cons (index_eq_ok_iff.mp hn) hreads, ?_, by omega⟩
        exact Ty.locate_cons.mpr ⟨step, inner, d, hpart, hlocate, rfl⟩
      · rintro ⟨_, _, part, hreads, hlocate, hsum⟩
        cases hreads with
        | @cons _ n _ ns hn hreads =>
            obtain ⟨step, inner, d, hpart, hinner, rfl⟩ := Ty.locate_cons.mp hlocate
            have hselect := (select_eq_ok_iff hfits (by omega)).mpr hpart
            have hnext : checked (offset + step) = .ok (offset + step) :=
              checked_eq_ok_iff.mpr ⟨rfl, by omega⟩
            have hdescend : descend p inner (offset + step) rest = .ok total :=
              (ih (hfits.inside (Ty.inside_of_part hpart))).mpr
                ⟨ns, d, part, hreads, hinner, by omega⟩
            exact bind_eq_ok_iff.mpr ⟨n, index_eq_ok_iff.mpr hn, bind_eq_ok_iff.mpr
              ⟨_, hselect, bind_eq_ok_iff.mpr ⟨_, hnext, hdescend⟩⟩⟩

/-! ## Whole index lists -/

theorem covered_eq_ok_iff (hfits : indices ≠ [] → ty.Fits) {total : Nat}
    (htotal : total ≤ offsetMax) :
    covered p ty indices = .ok total ↔
      ∃ ns, List.Forall₂ (Reads p) indices ns ∧ ty.distance ns = some total := by
  cases indices with
  | nil =>
      constructor
      · intro h
        cases h
        exact ⟨[], .nil, rfl⟩
      · rintro ⟨ns, hreads, hdistance⟩
        cases hreads
        cases hdistance
        rfl
  | cons v rest =>
      have hfits := hfits (List.cons_ne_nil _ _)
      have hslots := Ty.slots_eq hfits
      constructor
      · intro h
        obtain ⟨n, hn, h⟩ := bind_eq_ok_iff.mp h
        obtain ⟨slots, hcount, h⟩ := bind_eq_ok_iff.mp h
        have hcount := Failing.ofExcept_eq_ok_iff.mp hcount
        rw [hslots] at hcount
        cases hcount
        obtain ⟨start, hstart, h⟩ := bind_eq_ok_iff.mp h
        have hle := le_of_descend h
        have hstart := (checked_mul_eq_ok_iff (by omega)).mp hstart
        obtain ⟨ns, d, part, hreads, hlocate, rfl⟩ := (descend_eq_ok_iff hfits htotal).mp h
        exact ⟨n :: ns, .cons (index_eq_ok_iff.mp hn) hreads,
          by rw [Ty.distance, hlocate, Option.map_some, hstart]⟩
      · rintro ⟨_, hreads, hdistance⟩
        cases hreads with
        | @cons _ n _ ns hn hreads =>
            obtain ⟨⟨d, part⟩, hlocate, hsum⟩ := Option.map_eq_some_iff.mp hdistance
            dsimp only at hsum
            have hstart : checked (n * min ty.size wordMax) = .ok (n * ty.size) :=
              (checked_mul_eq_ok_iff (by omega)).mpr rfl
            have hdescend := (descend_eq_ok_iff hfits htotal).mpr
              ⟨ns, d, part, hreads, hlocate, hsum⟩
            exact bind_eq_ok_iff.mpr ⟨n, index_eq_ok_iff.mpr hn, bind_eq_ok_iff.mpr
              ⟨_, Failing.ofExcept_eq_ok_iff.mpr hslots, bind_eq_ok_iff.mpr
                ⟨_, hstart, hdescend⟩⟩⟩

theorem toInt_ofNat_of_le {n : Nat} (h : n ≤ offsetMax) : (Int64.ofNat n).toInt = n := by
  apply Int64.toInt_ofNat_of_lt
  unfold offsetMax at h
  simp only [UInt64.size] at h
  omega

theorem constant_eq_ok_iff_covered {d : Int64} :
    constant p ty indices = .ok d ↔
      ∃ n, covered p ty indices = .ok n ∧ n ≤ offsetMax ∧ d.toInt = n := by
  constructor
  · intro h
    obtain ⟨n, hn, h⟩ := bind_eq_ok_iff.mp h
    split at h
    · next hle =>
        cases h
        exact ⟨n, hn, hle, toInt_ofNat_of_le hle⟩
    · cases h
  · rintro ⟨n, hn, hle, hd⟩
    have heq : Int64.ofNat n = d := Int64.toInt_inj.mp (by rw [toInt_ofNat_of_le hle, hd])
    refine bind_eq_ok_iff.mpr ⟨n, hn, ?_⟩
    rw [if_pos hle, heq]
    rfl

theorem constant_eq_ok_iff (hfits : indices ≠ [] → ty.Fits) {d : Int64} :
    constant p ty indices = .ok d ↔
      ∃ ns n, List.Forall₂ (Reads p) indices ns ∧ ty.distance ns = some n ∧ n ≤ offsetMax ∧
        d.toInt = n := by
  rw [constant_eq_ok_iff_covered]
  constructor
  · rintro ⟨n, hn, hle, hd⟩
    obtain ⟨ns, hreads, hdistance⟩ := (covered_eq_ok_iff hfits hle).mp hn
    exact ⟨ns, n, hreads, hdistance, hle, hd⟩
  · rintro ⟨ns, n, hreads, hdistance, hle, hd⟩
    exact ⟨n, (covered_eq_ok_iff hfits hle).mpr ⟨ns, hreads, hdistance⟩, hle, hd⟩

/-- Without a count of the slots of the type nothing but the empty list can be followed, if there
is no fault. -/
theorem eq_nil_or_failed {cause : Fault} (hslots : ty.slots = .error cause)
    (hindices : ∀ v ∈ indices, p.HasValue v)
    (hsafe : ∀ cause, constant p ty indices ≠ .error (.fault cause)) :
    indices = [] ∨ (∃ reason, constant p ty indices = .error (.failed reason)) ∧
      ∀ ns, ¬ List.Forall₂ (Reads p) indices ns := by
  cases indices with
  | nil => exact Or.inl rfl
  | cons v rest =>
      right
      have hindex := index_safe (hindices v List.mem_cons_self)
      have hread : ∀ n, index p v ≠ .ok n := by
        intro n hn
        apply hsafe cause
        simp only [constant, covered, hn, hslots]
        rfl
      cases hv : index p v with
      | ok n => exact absurd hv (hread n)
      | error halt =>
          rw [hv] at hindex
          refine ⟨?_, ?_⟩
          · cases halt with
            | failed reason => exact ⟨reason, by simp only [constant, covered, hv]; rfl⟩
            | fault cause => exact hindex.elim
            | exhausted => exact absurd hv (index_ends p v)
          · intro ns hreads
            cases hreads with
            | cons hn _ => exact hread _ (index_eq_ok_iff.mpr hn)

theorem slots_error_of_fault {cause : Fault} (hindices : ∀ v ∈ indices, p.HasValue v)
    (h : constant p ty indices = .error (.fault cause)) : ∃ cause', ty.slots = .error cause' := by
  cases hslots : ty.slots with
  | error cause' => exact ⟨cause', rfl⟩
  | ok slots =>
      have hsafe := constant_safe hindices (Ty.fits_of_slots hslots)
      rw [h] at hsafe
      exact hsafe.elim

/-- An offset that is given is the exact distance, and one is given just if all indices are
constants that lead into the type over a distance that a signed word can hold.  Slots that can be
counted are counted exactly up to the largest word, and only where they cannot be counted is there
a fault. -/
theorem offsets_exact (hindices : ∀ v ∈ indices, p.HasValue v) (ty : Ty) :
    ((∀ cause, constant p ty indices ≠ .error (.fault cause)) →
      ((∃ d, constant p ty indices = .ok d) ∨
        ∃ reason, constant p ty indices = .error (.failed reason)) ∧
      ∀ d, constant p ty indices = .ok d ↔
        ∃ ns n, List.Forall₂ (Reads p) indices ns ∧ ty.distance ns = some n ∧ n ≤ offsetMax ∧
          d.toInt = n) ∧
    (∀ n, ty.slots = .ok n → n = min ty.size wordMax ∧ 1 ≤ n) ∧
    ∀ cause, constant p ty indices = .error (.fault cause) →
      ∃ cause', ty.slots = .error cause' := by
  have hends := constant_ends p ty indices
  refine ⟨fun hsafe => ⟨?_, fun d => ?_⟩, fun n => Ty.slots_exact,
    fun cause => slots_error_of_fault hindices⟩
  · cases hconstant : constant p ty indices with
    | ok d => exact Or.inl ⟨d, rfl⟩
    | error halt =>
        cases halt with
        | failed reason => exact Or.inr ⟨reason, rfl⟩
        | fault cause => exact absurd hconstant (hsafe cause)
        | exhausted => exact absurd hconstant hends
  · cases hslots : ty.slots with
    | ok slots => exact constant_eq_ok_iff fun _ => Ty.fits_of_slots hslots
    | error cause =>
        rcases eq_nil_or_failed hslots hindices hsafe with rfl | ⟨⟨reason, hfailed⟩, hnone⟩
        · exact constant_eq_ok_iff fun hne => absurd rfl hne
        · rw [hfailed]
          refine ⟨nofun, ?_⟩
          rintro ⟨ns, n, hreads, -⟩
          exact absurd hreads (hnone ns)

/-- A type whose slots no word can count, with elements that a word can count. -/
def wide : Ty := .array (.array .ptr 4294967296) 4294967296

/-- The second element of the wide type lies exactly one element away from the first. -/
theorem offsets_exact_wide : ∃ built, build [.int 0, .int 1] = .ok built ∧
    (∀ v ∈ [Ident.ofNat 0, .ofNat 1], built.program.HasValue v) ∧
    wordMax < wide.size ∧ wide.slots = .ok wordMax ∧
    (∀ cause, constant built.program wide [.ofNat 0, .ofNat 1] ≠ .error (.fault cause)) ∧
    constant built.program wide [.ofNat 0, .ofNat 1] = .ok 4294967296 := by
  obtain ⟨built, hbuilt, hindices, hzero, hone⟩ : ∃ built,
      build [.int 0, .int 1] = .ok built ∧
      (∀ v ∈ [Ident.ofNat 0, .ofNat 1], built.program.HasValue v) ∧
      built.program.asInt? (.ofNat 0) = .ok (some 0) ∧
      built.program.asInt? (.ofNat 1) = .ok (some 1) :=
    ⟨_, rfl, by decide, rfl, rfl⟩
  have hslots : wide.slots = .ok wordMax := rfl
  have hsafe : ∀ cause, constant built.program wide [.ofNat 0, .ofNat 1] ≠
      .error (.fault cause) := by
    intro cause hfault
    have hsafe := constant_safe hindices (Ty.fits_of_slots hslots)
    rw [hfault] at hsafe
    exact hsafe
  have hreads : List.Forall₂ (Reads built.program) [.ofNat 0, .ofNat 1] [0, 1] :=
    .cons ⟨0, hzero, rfl⟩ (.cons ⟨1, hone, rfl⟩ .nil)
  refine ⟨built, hbuilt, hindices, by decide, hslots, hsafe, ?_⟩
  exact (((offsets_exact hindices wide).1 hsafe).2 _).mpr
    ⟨[0, 1], 4294967296, hreads, rfl, by decide, by decide⟩

/-! ## Parts of a type that fits in a word -/

/-- The indices stay inside one value of the type, and beyond the first they lead over the
numbers `ns` to `part`. -/
structure Selects (p : Program) (ty : Ty) (indices : List ValueId) (ns : List Nat) (part : Ty) :
    Prop where
  reads : List.Forall₂ (Reads p) indices (0 :: ns)
  inBounds : ty.inBounds ns = true
  part_eq : (ty.locate ns).map Prod.snd = some part

theorem Reads.unique {v : ValueId} {n m : Nat} (h : Reads p v n) (h' : Reads p v m) : n = m := by
  obtain ⟨k, hk, hn⟩ := h
  obtain ⟨k', hk', hm⟩ := h'
  rw [hk] at hk'
  cases hk'
  omega

theorem reads_unique {ns ms : List Nat} (h : List.Forall₂ (Reads p) indices ns)
    (h' : List.Forall₂ (Reads p) indices ms) : ns = ms := by
  have hunique : Relator.RightUnique (Reads p) := fun _ _ _ => Reads.unique
  exact hunique.forall₂ h h'

/-- The offset of a part that is selected in bounds is the number of slots before it. -/
theorem Selects.locate_eq {ns : List Nat} {part : Ty} (h : Selects p ty indices ns part)
    (hsize : ty.size ≤ wordMax) {d : Int64} (hd : constant p ty indices = .ok d) :
    ∃ before : Nat, ty.locate ns = some (before, part) ∧ d.toInt = before := by
  obtain ⟨⟨before, _⟩, hlocate, rfl⟩ := Option.map_eq_some_iff.mp h.part_eq
  obtain ⟨ms, n, hreads, hdistance, -, hn⟩ :=
    (constant_eq_ok_iff fun _ => Ty.fits_of_size_le hsize).mp hd
  cases reads_unique h.reads hreads
  rw [Ty.distance, hlocate] at hdistance
  have hcovered : 0 * ty.size + before = n := Option.some.inj hdistance
  exact ⟨before, hlocate, by omega⟩

theorem Selects.size_le {ns : List Nat} {part : Ty} (h : Selects p ty indices ns part)
    (hsize : ty.size ≤ wordMax) : part.size ≤ wordMax := by
  obtain ⟨⟨before, _⟩, hlocate, rfl⟩ := Option.map_eq_some_iff.mp h.part_eq
  exact Nat.le_trans (Ty.inside_of_locate hlocate).size_le hsize

/-- The slot is one of the `count` slots from `d` on. -/
def Spans (d : Int64) (count : Nat) (slot : Int) : Prop :=
  d.toInt ≤ slot ∧ slot < d.toInt + count

/-- In a type that fits in a word, selected parts have their slots inside the type, and two parts
share none unless the way to one of them leads through the other. -/
theorem sub_objects_apart (hsize : ty.size ≤ wordMax) {indices' : List ValueId}
    {ns ns' : List Nat} {part part' : Ty} {d d' : Int64}
    (hpart : Selects p ty indices ns part) (hd : constant p ty indices = .ok d)
    (hpart' : Selects p ty indices' ns' part') (hd' : constant p ty indices' = .ok d') :
    ∃ whole count count' : Nat, ty.slots = .ok whole ∧ part.slots = .ok count ∧
      part'.slots = .ok count' ∧
      (0 ≤ d.toInt ∧ d.toInt + count ≤ whole) ∧ (0 ≤ d'.toInt ∧ d'.toInt + count' ≤ whole) ∧
      (¬ ns <+: ns' → ¬ ns' <+: ns →
        ∀ slot, ¬ (Spans d count slot ∧ Spans d' count' slot)) := by
  obtain ⟨before, hlocate, hbefore⟩ := hpart.locate_eq hsize hd
  obtain ⟨before', hlocate', hbefore'⟩ := hpart'.locate_eq hsize hd'
  have hend := Ty.locate_end_le hpart.inBounds hlocate
  have hend' := Ty.locate_end_le hpart'.inBounds hlocate'
  refine ⟨ty.size, part.size, part'.size, Ty.slots_eq_size hsize,
    Ty.slots_eq_size (hpart.size_le hsize), Ty.slots_eq_size (hpart'.size_le hsize),
    by omega, by omega, fun hns hns' slot hslot => ?_⟩
  have hapart := Ty.locate_apart hpart.inBounds hlocate hpart'.inBounds hlocate' hns hns'
  obtain ⟨⟨hstart, hstop⟩, hstart', hstop'⟩ := hslot
  omega

/-- A struct around an array of structs that hold an empty struct and an empty array. -/
def nested : Ty := .struct [.ptr, .array (.struct [.ptr, .struct [], .array .ptr 0]) 3, .ptr]

/-- The empty struct and the empty array after it have a slot each. -/
theorem sub_objects_apart_nested : ∃ built,
    build [.int 0, .int 1, .int 2] = .ok built ∧ nested.size ≤ wordMax ∧
    Selects built.program nested [.ofNat 0, .ofNat 1, .ofNat 2, .ofNat 1] [1, 2, 1] (.struct []) ∧
    Selects built.program nested [.ofNat 0, .ofNat 1, .ofNat 2, .ofNat 2] [1, 2, 2]
      (.array .ptr 0) ∧
    constant built.program nested [.ofNat 0, .ofNat 1, .ofNat 2, .ofNat 1] = .ok 8 ∧
    constant built.program nested [.ofNat 0, .ofNat 1, .ofNat 2, .ofNat 2] = .ok 9 ∧
    nested.slots = .ok 11 ∧ ∀ slot, ¬ (Spans 8 1 slot ∧ Spans 9 1 slot) := by
  obtain ⟨built, hbuilt, hzero, hone, htwo, hd, hd'⟩ : ∃ built,
      build [.int 0, .int 1, .int 2] = .ok built ∧
      built.program.asInt? (.ofNat 0) = .ok (some 0) ∧
      built.program.asInt? (.ofNat 1) = .ok (some 1) ∧
      built.program.asInt? (.ofNat 2) = .ok (some 2) ∧
      constant built.program nested [.ofNat 0, .ofNat 1, .ofNat 2, .ofNat 1] = .ok 8 ∧
      constant built.program nested [.ofNat 0, .ofNat 1, .ofNat 2, .ofNat 2] = .ok 9 :=
    ⟨_, rfl, rfl, rfl, rfl, rfl, rfl⟩
  have hzero : Reads built.program (.ofNat 0) 0 := ⟨0, hzero, rfl⟩
  have hone : Reads built.program (.ofNat 1) 1 := ⟨1, hone, rfl⟩
  have htwo : Reads built.program (.ofNat 2) 2 := ⟨2, htwo, rfl⟩
  have hsize : nested.size ≤ wordMax := by decide
  have hpart : Selects built.program nested [.ofNat 0, .ofNat 1, .ofNat 2, .ofNat 1] [1, 2, 1]
      (.struct []) := ⟨.cons hzero (.cons hone (.cons htwo (.cons hone .nil))), rfl, rfl⟩
  have hpart' : Selects built.program nested [.ofNat 0, .ofNat 1, .ofNat 2, .ofNat 2] [1, 2, 2]
      (.array .ptr 0) := ⟨.cons hzero (.cons hone (.cons htwo (.cons htwo .nil))), rfl, rfl⟩
  obtain ⟨whole, count, count', hwhole, hcount, hcount', -, -, hapart⟩ :=
    sub_objects_apart hsize hpart hd hpart' hd'
  cases hcount
  cases hcount'
  exact ⟨built, hbuilt, hsize, hpart, hpart', hd, hd', rfl, hapart (by decide) (by decide)⟩

end Offset

end CallTargets
