import CallTargets.Ty
import CallTargets.Proofs.Outcome

/-!
# Types whose slots can be counted

Counting the slots of a type in words breaks off only at a struct whose fields sum to more
than a word.  Where no such struct is inside, the count is the size of the type, cut down to
the largest word, and it does not break off.
-/

namespace CallTargets

namespace Ty

/-- The types that a type is made of, with the type itself. -/
inductive Inside (whole : Ty) : Ty → Prop where
  | self : Inside whole whole
  | field {fields : List Ty} {ty : Ty} (h : Inside whole (.struct fields)) (hty : ty ∈ fields) :
      Inside whole ty
  | elem {elem : Ty} {length : UInt64} (h : Inside whole (.array elem length)) :
      Inside whole elem

theorem Inside.trans {whole part ty : Ty} (h : Inside whole part) (hty : Inside part ty) :
    Inside whole ty := by
  induction hty with
  | self => exact h
  | field _ hmem ih => exact .field ih hmem
  | elem _ ih => exact .elem ih

/-- The slots of some fields, where a field has at most a word of slots. -/
def slotSum : List Ty → Nat
  | [] => 0
  | ty :: rest => min ty.size wordMax + slotSum rest

theorem slotSum_append (fields more : List Ty) :
    slotSum (fields ++ more) = slotSum fields + slotSum more := by
  induction fields with
  | nil => simp [slotSum]
  | cons ty fields ih =>
      rw [List.cons_append, slotSum, slotSum, ih]
      omega

/-- No struct inside the type has fields whose slots sum to more than a word. -/
def Fits (whole : Ty) : Prop := ∀ fields, Inside whole (.struct fields) → slotSum fields ≤ wordMax

theorem Fits.inside {whole ty : Ty} (h : whole.Fits) (hty : Inside whole ty) : ty.Fits :=
  fun fields hfields => h fields (hty.trans hfields)

theorem Fits.field {fields : List Ty} (h : (struct fields).Fits) {ty : Ty} (hty : ty ∈ fields) :
    ty.Fits :=
  h.inside (.field .self hty)

theorem Fits.elem {elem : Ty} {length : UInt64} (h : (array elem length).Fits) : elem.Fits :=
  h.inside (.elem .self)

mutual

/-- Decides `Fits`. -/
def fits : Ty → Bool
  | struct fields => decide (slotSum fields ≤ wordMax) && allFit fields
  | array elem _ => fits elem
  | _ => true

def allFit : List Ty → Bool
  | [] => true
  | ty :: rest => fits ty && allFit rest

end

theorem allFit_iff {fields : List Ty} : allFit fields = true ↔ ∀ ty ∈ fields, ty.fits = true := by
  induction fields with
  | nil => simp [allFit]
  | cons ty rest ih => simp [allFit, ih]

theorem Inside.fits {whole ty : Ty} (hty : Inside whole ty) (h : whole.fits = true) :
    ty.fits = true := by
  induction hty with
  | self => exact h
  | field _ hmem ih =>
      rw [Ty.fits, Bool.and_eq_true] at ih
      exact allFit_iff.mp ih.2 _ hmem
  | elem _ ih => rwa [Ty.fits] at ih

theorem fits_of_fits {ty : Ty} (h : ty.Fits) : ty.fits = true := by
  match ty with
  | .struct fields =>
      rw [fits, Bool.and_eq_true, allFit_iff]
      exact ⟨decide_eq_true (h fields .self), fun ty hty => fits_of_fits (h.field hty)⟩
  | .array elem length =>
      rw [fits]
      exact fits_of_fits h.elem
  | .void | .int _ | .float | .ptr | .label => rfl

theorem fits_iff {ty : Ty} : ty.fits = true ↔ ty.Fits := by
  refine ⟨fun h fields hfields => ?_, fits_of_fits⟩
  have hstruct := hfields.fits h
  rw [fits, Bool.and_eq_true] at hstruct
  exact of_decide_eq_true hstruct.1

instance (ty : Ty) : Decidable ty.Fits := decidable_of_iff _ fits_iff

theorem one_le_size (ty : Ty) : 1 ≤ ty.size := by
  match ty with
  | .struct fields =>
      rw [size]
      omega
  | .array elem length =>
      rw [size]
      exact Nat.mul_pos (one_le_size elem) (by omega)
  | .void | .int _ | .float | .ptr | .label => simp [size]

/-- As every field has a slot, at most one of them can be too large for a word. -/
theorem slotSum_eq {fields : List Ty} (h : slotSum fields ≤ wordMax) :
    slotSum fields = min (sizes fields) wordMax := by
  induction fields with
  | nil => simp [slotSum, sizes]
  | cons ty fields ih =>
      have hpos := one_le_size ty
      rw [slotSum] at h ⊢
      rw [ih (by omega), sizes]
      rw [ih (by omega)] at h
      omega

theorem mulSaturating_min (a : Nat) {n : Nat} (hn : 1 ≤ n) :
    mulSaturating (min a wordMax) n = min (a * n) wordMax := by
  unfold mulSaturating
  rcases Nat.le_total a wordMax with ha | ha
  · rw [Nat.min_eq_left ha]
  · have hword : wordMax ≤ wordMax * n := Nat.le_mul_of_pos_right _ hn
    have hlarge : wordMax * n ≤ a * n := Nat.mul_le_mul_right n ha
    rw [Nat.min_eq_right ha]
    omega

theorem slotsFrom_eq {fields : List Ty}
    (hslots : ∀ ty ∈ fields, ty.slots = .ok (min ty.size wordMax)) (sum : Nat)
    (h : sum + slotSum fields ≤ wordMax) : slotsFrom sum fields = .ok (sum + slotSum fields) := by
  induction fields generalizing sum with
  | nil => simp [slotsFrom, slotSum, pure, Except.pure]
  | cons ty fields ih =>
      rw [slotSum] at h ⊢
      have hadd : addWords sum (min ty.size wordMax) = .ok (sum + min ty.size wordMax) := by
        unfold addWords
        rw [if_pos (by omega)]
      have hrest := ih (fun ty hty => hslots ty (List.mem_cons_of_mem _ hty))
        (sum + min ty.size wordMax) (by omega)
      rw [slotsFrom, hslots ty List.mem_cons_self]
      simp only [bind, Except.bind, hadd, hrest]
      congr 1
      omega

/-- The slots of a type are its size, as far as a word can tell.  The recursion is on the
type, through the fields of structs and the elements of arrays. -/
theorem slots_eq {ty : Ty} (h : ty.Fits) : ty.slots = .ok (min ty.size wordMax) := by
  match ty with
  | .struct fields =>
      have hsum := h fields .self
      have hfields := slotsFrom_eq (fun ty hty => slots_eq (h.field hty)) 0 (by omega)
      have hsize := slotSum_eq hsum
      have hword : 1 ≤ wordMax := by decide
      rw [slots, hfields, size]
      simp only [bind, Except.bind, pure, Except.pure]
      congr 1
      omega
  | .array elem length =>
      rw [slots, slots_eq h.elem, size]
      simp only [bind, Except.bind, pure, Except.pure]
      rw [mulSaturating_min _ (by omega)]
  | .void | .int _ | .float | .ptr | .label => simp [slots, size, wordMax, pure, Except.pure]

theorem slotsFrom_eq_ok {fields : List Ty}
    (hslots : ∀ ty ∈ fields, ∀ n, ty.slots = .ok n → n = min ty.size wordMax) {sum total : Nat}
    (hsum : sum ≤ wordMax) (h : slotsFrom sum fields = .ok total) :
    (∀ ty ∈ fields, ∃ n, ty.slots = .ok n) ∧ sum + slotSum fields ≤ wordMax := by
  induction fields generalizing sum with
  | nil => exact ⟨by simp, by simpa [slotSum] using hsum⟩
  | cons ty fields ih =>
      rw [slotsFrom] at h
      obtain ⟨n, hn, h⟩ := bind_eq_ok_iff.mp h
      obtain ⟨next, hnext, h⟩ := bind_eq_ok_iff.mp h
      obtain ⟨hword, rfl⟩ : sum + n ≤ wordMax ∧ sum + n = next := by
        unfold addWords at hnext
        split at hnext
        · next hword =>
            cases hnext
            exact ⟨hword, rfl⟩
        · cases hnext
      obtain ⟨hrest, htotal⟩ :=
        ih (fun ty hty => hslots ty (List.mem_cons_of_mem _ hty)) hword h
      obtain rfl := hslots ty List.mem_cons_self n hn
      refine ⟨fun other hother => ?_, ?_⟩
      · rcases List.mem_cons.mp hother with rfl | hother
        · exact ⟨_, hn⟩
        · exact hrest other hother
      · rw [slotSum]
        omega

/-- A type whose slots have been counted has no struct inside that is too large.  The recursion
is on the type, as in `slots_eq`. -/
theorem fits_of_slots {ty : Ty} {n : Nat} (h : ty.slots = .ok n) : ty.Fits := by
  match ty with
  | .struct fields =>
      rw [slots] at h
      obtain ⟨total, htotal, -⟩ := bind_eq_ok_iff.mp h
      have hslots : ∀ ty ∈ fields, ∀ n, ty.slots = .ok n → n = min ty.size wordMax := by
        intro ty hty n hn
        rw [slots_eq (fits_of_slots hn)] at hn
        exact (Except.ok.inj hn).symm
      obtain ⟨hfields, hsum⟩ := slotsFrom_eq_ok hslots (Nat.zero_le _) htotal
      rw [← fits_iff, fits, Bool.and_eq_true, allFit_iff]
      refine ⟨decide_eq_true (by omega), fun ty hty => ?_⟩
      obtain ⟨m, hm⟩ := hfields ty hty
      exact fits_of_fits (fits_of_slots hm)
  | .array elem length =>
      rw [slots] at h
      obtain ⟨m, hm, -⟩ := bind_eq_ok_iff.mp h
      rw [← fits_iff, fits]
      exact fits_of_fits (fits_of_slots hm)
  | .void | .int _ | .float | .ptr | .label => exact fits_iff.mp rfl

theorem slots_exact {ty : Ty} {n : Nat} (h : ty.slots = .ok n) :
    n = min ty.size wordMax ∧ 1 ≤ n := by
  rw [slots_eq (fits_of_slots h)] at h
  cases h
  have hpos := one_le_size ty
  have hword : 1 ≤ wordMax := by decide
  exact ⟨rfl, by omega⟩

/-- Counting may also stop before the last field. -/
theorem slotsFrom_take_eq {fields : List Ty} (h : (struct fields).Fits) (n : Nat) :
    slotsFrom 0 (fields.take n) = .ok (slotSum (fields.take n)) := by
  have hsplit : slotSum fields = slotSum (fields.take n) + slotSum (fields.drop n) := by
    rw [← slotSum_append, List.take_append_drop]
  have hsum := h fields .self
  have hslots : ∀ ty ∈ fields.take n, ty.slots = .ok (min ty.size wordMax) := fun ty hty =>
    slots_eq (h.field (List.mem_of_mem_take hty))
  have htake := slotsFrom_eq hslots 0 (by omega)
  rwa [Nat.zero_add] at htake

end Ty

end CallTargets
