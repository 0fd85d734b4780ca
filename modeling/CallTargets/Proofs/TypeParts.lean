import CallTargets.Proofs.TypeLayout

/-!
# Parts of a type

Numbers lead into a type: each selects a field of a struct or an element of an array.  The part
that is reached that way starts after all slots that the numbers step over.  As long as every
number selects a part that is there, what is reached lies inside the type, and two parts overlap
only if the way to one of them leads through the other.
-/

namespace CallTargets

namespace Ty

/-- The slots before a direct part of a type, and that part.  The elements of an array go on
beyond its length. -/
def part? : Ty → Nat → Option (Nat × Ty)
  | struct fields, n => fields[n]?.map fun field => (sizes (fields.take n), field)
  | array elem _, n => some (n * elem.size, elem)
  | _, _ => none

/-- The slots before the part that some numbers lead to, and that part. -/
def locate : Ty → List Nat → Option (Nat × Ty)
  | ty, [] => some (0, ty)
  | ty, n :: rest => do
    let (before, inner) ← ty.part? n
    let (offset, part) ← inner.locate rest
    return (before + offset, part)

/-- The slots that some numbers cover.  The first steps over whole values of the type, and the
others lead into one of them. -/
def distance (ty : Ty) : List Nat → Option Nat
  | [] => some 0
  | n :: rest => (ty.locate rest).map fun (offset, _) => n * ty.size + offset

/-- The number of direct parts of a type. -/
def width : Ty → Nat
  | struct fields => fields.length
  | array _ length => length.toNat
  | _ => 0

/-- Every number selects a part that is there. -/
def inBounds : Ty → List Nat → Bool
  | _, [] => true
  | ty, n :: rest =>
    decide (n < ty.width) && (ty.part? n).any fun (_, inner) => inner.inBounds rest

/-! ## Direct parts -/

theorem sizes_append (fields more : List Ty) : sizes (fields ++ more) = sizes fields + sizes more := by
  induction fields with
  | nil => simp [sizes]
  | cons ty fields ih =>
      rw [List.cons_append, sizes, sizes, ih]
      omega

theorem sizes_take_succ {fields : List Ty} {n : Nat} {field : Ty} (h : fields[n]? = some field) :
    sizes (fields.take (n + 1)) = sizes (fields.take n) + field.size := by
  rw [List.take_add_one, h, sizes_append]
  simp [sizes]

theorem sizes_take_le {fields : List Ty} {n m : Nat} (h : n ≤ m) :
    sizes (fields.take n) ≤ sizes (fields.take m) := by
  obtain ⟨k, rfl⟩ := Nat.exists_eq_add_of_le h
  rw [List.take_add, sizes_append]
  omega

/-- A part that is there ends before the type does. -/
theorem part_end_le {ty inner : Ty} {n before : Nat} (h : ty.part? n = some (before, inner))
    (hn : n < ty.width) : before + inner.size ≤ ty.size := by
  cases ty with
  | struct fields =>
      obtain ⟨field, hfield, heq⟩ := Option.map_eq_some_iff.mp h
      cases heq
      have hlast : sizes (fields.take (n + 1)) ≤ sizes (fields.take fields.length) :=
        sizes_take_le hn
      rw [sizes_take_succ hfield, List.take_length] at hlast
      rw [size]
      omega
  | array elem length =>
      obtain ⟨rfl, rfl⟩ : n * elem.size = before ∧ elem = inner := by simpa [part?] using h
      have hn : n + 1 ≤ max 1 length.toNat := Nat.le_trans hn (Nat.le_max_right _ _)
      calc n * elem.size + elem.size = elem.size * (n + 1) := by rw [Nat.mul_succ, Nat.mul_comm]
        _ ≤ elem.size * max 1 length.toNat := Nat.mul_le_mul_left _ hn
        _ = (array elem length).size := by rw [size]
  | void | int | float | ptr | label => cases h

/-- A part ends before the next one starts. -/
theorem part_end_le_part {ty inner inner' : Ty} {n m before before' : Nat}
    (h : ty.part? n = some (before, inner)) (h' : ty.part? m = some (before', inner'))
    (hlt : n < m) : before + inner.size ≤ before' := by
  cases ty with
  | struct fields =>
      obtain ⟨field, hfield, heq⟩ := Option.map_eq_some_iff.mp h
      obtain ⟨field', -, heq'⟩ := Option.map_eq_some_iff.mp h'
      cases heq
      cases heq'
      rw [← sizes_take_succ hfield]
      exact sizes_take_le hlt
  | array elem length =>
      obtain ⟨rfl, rfl⟩ : n * elem.size = before ∧ elem = inner := by simpa [part?] using h
      obtain ⟨rfl, -⟩ : m * elem.size = before' ∧ elem = inner' := by simpa [part?] using h'
      calc n * elem.size + elem.size = (n + 1) * elem.size := (Nat.succ_mul _ _).symm
        _ ≤ m * elem.size := Nat.mul_le_mul_right _ hlt
  | void | int | float | ptr | label => cases h

theorem inside_of_part {ty inner : Ty} {n before : Nat} (h : ty.part? n = some (before, inner)) :
    Inside ty inner := by
  cases ty with
  | struct fields =>
      obtain ⟨field, hfield, heq⟩ := Option.map_eq_some_iff.mp h
      cases heq
      exact .field .self (List.mem_of_getElem? hfield)
  | array elem length =>
      cases h
      exact .elem .self
  | void | int | float | ptr | label => cases h

/-! ## Parts at any depth -/

theorem locate_cons {ty part : Ty} {n offset : Nat} {rest : List Nat} :
    ty.locate (n :: rest) = some (offset, part) ↔
      ∃ before inner d, ty.part? n = some (before, inner) ∧ inner.locate rest = some (d, part) ∧
        before + d = offset := by
  rw [locate]
  constructor
  · intro h
    obtain ⟨⟨before, inner⟩, hstep, h⟩ := Option.bind_eq_some_iff.mp h
    obtain ⟨⟨d, last⟩, hrest, h⟩ := Option.bind_eq_some_iff.mp h
    cases h
    exact ⟨before, inner, d, hstep, hrest, rfl⟩
  · rintro ⟨before, inner, d, hstep, hrest, rfl⟩
    exact Option.bind_eq_some_iff.mpr
      ⟨_, hstep, Option.bind_eq_some_iff.mpr ⟨_, hrest, rfl⟩⟩

theorem inBounds_cons {ty : Ty} {n : Nat} {rest : List Nat} :
    ty.inBounds (n :: rest) = true ↔
      n < ty.width ∧ ∃ before inner, ty.part? n = some (before, inner) ∧
        inner.inBounds rest = true := by
  rw [inBounds, Bool.and_eq_true, decide_eq_true_eq, Option.any_eq_true]
  simp

theorem inside_of_locate {ty part : Ty} {ns : List Nat} {offset : Nat}
    (h : ty.locate ns = some (offset, part)) : Inside ty part := by
  induction ns generalizing ty offset with
  | nil =>
      cases h
      exact .self
  | cons n rest ih =>
      obtain ⟨before, inner, d, hstep, hrest, -⟩ := locate_cons.mp h
      exact (inside_of_part hstep).trans (ih hrest)

/-- What is reached in bounds lies inside the type. -/
theorem locate_end_le {ty part : Ty} {ns : List Nat} {offset : Nat}
    (hbounds : ty.inBounds ns = true) (h : ty.locate ns = some (offset, part)) :
    offset + part.size ≤ ty.size := by
  induction ns generalizing ty offset with
  | nil =>
      cases h
      omega
  | cons n rest ih =>
      obtain ⟨before, inner, d, hstep, hrest, rfl⟩ := locate_cons.mp h
      obtain ⟨hn, before', inner', hstep', hbounds⟩ := inBounds_cons.mp hbounds
      rw [hstep] at hstep'
      cases hstep'
      have hinner := ih hbounds hrest
      have hend := part_end_le hstep hn
      omega

/-- The number at which two ways part decides which of the two parts comes first. -/
theorem locate_apart {ty part part' : Ty} {ns ms : List Nat} {offset offset' : Nat}
    (hbounds : ty.inBounds ns = true) (h : ty.locate ns = some (offset, part))
    (hbounds' : ty.inBounds ms = true) (h' : ty.locate ms = some (offset', part'))
    (hns : ¬ ns <+: ms) (hms : ¬ ms <+: ns) :
    offset + part.size ≤ offset' ∨ offset' + part'.size ≤ offset := by
  induction ns generalizing ty ms offset offset' with
  | nil => exact absurd List.nil_prefix hns
  | cons n rest ih =>
      cases ms with
      | nil => exact absurd List.nil_prefix hms
      | cons m rest' =>
          obtain ⟨before, inner, d, hstep, hrest, rfl⟩ := locate_cons.mp h
          obtain ⟨before', inner', d', hstep', hrest', rfl⟩ := locate_cons.mp h'
          obtain ⟨-, _, _, hsame, hbounds⟩ := inBounds_cons.mp hbounds
          rw [hstep] at hsame
          cases hsame
          obtain ⟨-, _, _, hsame, hbounds'⟩ := inBounds_cons.mp hbounds'
          rw [hstep'] at hsame
          cases hsame
          have hinner := locate_end_le hbounds hrest
          have hinner' := locate_end_le hbounds' hrest'
          rcases Nat.lt_trichotomy n m with hlt | rfl | hlt
          · have hend := part_end_le_part hstep hstep' hlt
            omega
          · rw [hstep] at hstep'
            cases hstep'
            rw [List.cons_prefix_cons] at hns hms
            have hapart := ih hbounds hrest hbounds' hrest' (fun h => hns ⟨rfl, h⟩)
              (fun h => hms ⟨rfl, h⟩)
            omega
          · have hend := part_end_le_part hstep' hstep hlt
            omega

/-! ## Types that fit in a word -/

theorem size_le_sizes {fields : List Ty} {ty : Ty} (h : ty ∈ fields) : ty.size ≤ sizes fields := by
  obtain ⟨before, after, rfl⟩ := List.append_of_mem h
  rw [sizes_append, sizes]
  omega

theorem Inside.size_le {whole ty : Ty} (h : Inside whole ty) : ty.size ≤ whole.size := by
  induction h with
  | self => exact Nat.le_refl _
  | @field fields ty _ hmem ih =>
      have hfield := size_le_sizes hmem
      rw [size] at ih
      omega
  | @elem elem length _ ih =>
      rw [size] at ih
      exact Nat.le_trans (Nat.le_mul_of_pos_right _ (by omega)) ih

theorem slotSum_le_sizes (fields : List Ty) : slotSum fields ≤ sizes fields := by
  induction fields with
  | nil => simp [slotSum, sizes]
  | cons ty fields ih =>
      rw [slotSum, sizes]
      omega

theorem fits_of_size_le {ty : Ty} (h : ty.size ≤ wordMax) : ty.Fits := by
  intro fields hfields
  have hsum := slotSum_le_sizes fields
  have hinside := hfields.size_le
  rw [size] at hinside
  omega

/-- The slots of a type that fits in a word are counted exactly. -/
theorem slots_eq_size {ty : Ty} (h : ty.size ≤ wordMax) : ty.slots = .ok ty.size := by
  rw [slots_eq (fits_of_size_le h), Nat.min_eq_left h]

end Ty

end CallTargets
