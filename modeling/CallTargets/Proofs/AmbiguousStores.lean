import CallTargets.Proofs.MemoryWrites
import CallTargets.Proofs.StoreOrder

/-!
# Stores through ambiguous addresses

A store whose address may point to several locations adds to each of them, since any of them may
be the one that is left alone.  It adds to entries.  A target without an entry was read as its
default until then, and that reading is given up for what is stored.
-/

namespace CallTargets

namespace Store

/-- Adding `pointees` to the entry of `l` gives up no reading: there is an entry to add to, or the
default is among what is added. -/
def Spared (s : Store) (pointees : LocSet) (l : Loc) : Prop :=
  s.contains l = true ∨ ∀ d, l.default? = some d → d ∈ pointees

variable {s : Store} {pointees : LocSet} {l x : Loc}

theorem mem_values_iff :
    x ∈ s.values l ↔ x ∈ s.stored l ∨ s.contains l = false ∧ l.default? = some x := by
  cases h : s.explicit? l with
  | none => simp [values_of_absent h, mem_defaults, stored, h, not_contains_iff.mpr h]
  | some e =>
      simp [values_of_explicit h, stored_of_explicit h, contains_iff.mpr ⟨e, h⟩]

/-- What adding to an entry gives up. -/
theorem lost_iff : x ∈ s.values l ∧ x ∉ s.stored l ∪ pointees ↔
    s.contains l = false ∧ l.default? = some x ∧ x ∉ pointees := by
  rw [mem_values_iff, Std.ExtTreeSet.mem_union_iff, not_or]
  constructor
  · rintro ⟨hstored | ⟨habsent, hdefault⟩, hnot, hnew⟩
    · exact absurd hstored hnot
    · exact ⟨habsent, hdefault, hnew⟩
  · rintro ⟨habsent, hdefault, hnew⟩
    refine ⟨Or.inr ⟨habsent, hdefault⟩, fun hstored => ?_, hnew⟩
    simp [stored, not_contains_iff.mp habsent] at hstored

theorem spared_iff : s.Spared pointees l ↔ ∀ x ∈ s.values l, x ∈ s.stored l ∪ pointees := by
  constructor
  · intro h x hx
    by_contra hnot
    obtain ⟨habsent, hdefault, hnew⟩ := lost_iff.mp ⟨hx, hnot⟩
    rcases h with hentry | hmem
    · rw [hentry] at habsent
      cases habsent
    · exact hnew (hmem x hdefault)
  · intro h
    rw [Spared, or_iff_not_imp_left, Bool.not_eq_true]
    intro habsent d hdefault
    by_contra hnew
    obtain ⟨hx, hnot⟩ := lost_iff.mpr ⟨habsent, hdefault, hnew⟩
    exact hnot (h d hx)

theorem stored_union_eq_iff :
    s.stored l ∪ pointees = s.values l ∪ pointees ↔ s.Spared pointees l := by
  rw [spared_iff]
  constructor
  · intro heq x hx
    rw [heq]
    exact Std.ExtTreeSet.mem_union_of_left hx
  · intro h
    apply Std.ExtTreeSet.ext_mem
    intro x
    constructor
    · intro hx
      rw [Std.ExtTreeSet.mem_union_iff] at hx ⊢
      exact hx.imp_left fun hstored => mem_values_iff.mpr (Or.inl hstored)
    · intro hx
      rcases Std.ExtTreeSet.mem_union_iff.mp hx with hold | hnew
      · exact h x hold
      · exact Std.ExtTreeSet.mem_union_of_right hnew

theorem exists_operand {p : Program} {v : ValueId} {isPtr : Bool} (s : Store)
    (h : p.isPtr v = .ok isPtr) : ∃ e, s.operand p v = .ok e := by
  obtain ⟨value, hvalue, -⟩ := bind_eq_ok_iff.mp h
  have hobject : ∃ isObject, p.isObject v = .ok isObject := by
    unfold Program.isObject
    rw [hvalue]
    dsimp only [bind, Except.bind]
    split <;> exact ⟨_, rfl⟩
  obtain ⟨isObject, hobject⟩ := hobject
  cases isObject with
  | true => exact ⟨_, s.operand_of_object hobject⟩
  | false => exact ⟨_, s.operand_of_not_object hobject⟩

end Store

theorem Transfer.written_of_ambiguous {targets pointees old : LocSet} (h : 2 ≤ targets.size) :
    written .weakOnAmbiguity targets pointees old = old ∪ pointees := by
  have hkeep : overwrites .weakOnAmbiguity targets = false := by
    rw [overwrites, beq_eq_false_iff_ne]
    omega
  rw [written, hkeep]
  rfl

variable {p : Program} {c : Config} {s : Store}

/-- A store to several possible targets adds to the entry of each of them and changes no other
location.  This adds to what a target may point to just if the target has an entry, or what is
stored includes its default; the store gives up nothing just if this holds for every target. -/
theorem ambiguous_store_adds (path : List FuncId) {v value ptr : ValueId} {inst : Inst}
    {targets : LocSet} (hinst : p.inst? v = .ok (some inst)) (hop : inst.op = .store value ptr)
    (hvalue : p.isPtr value = .ok true) (hweak : c.storeUpdate = .weakOnAmbiguity)
    (htargets : s.operand p ptr = .ok targets) (hsize : 2 ≤ targets.size) :
    ∃ s' pointees, stepAt p c path v s = .ok s' ∧ s.operand p value = .ok pointees ∧
      (∀ l, l ∉ targets → s'.values l = s.values l) ∧
      (∀ t ∈ targets, s'.values t = s.stored t ∪ pointees ∧
        (s'.values t = s.values t ∪ pointees ↔ s.Spared pointees t)) ∧
      (s ≤ s' ↔ ∀ t ∈ targets, s.Spared pointees t) := by
  obtain ⟨pointees, hpointees⟩ := s.exists_operand hvalue
  have hstore : ∃ s', Transfer.store p c.storeUpdate value ptr s = .ok s' :=
    ⟨_, bind_eq_ok_iff.mpr ⟨targets, htargets, bind_eq_ok_iff.mpr ⟨pointees, hpointees, rfl⟩⟩⟩
  obtain ⟨s', hstore⟩ := hstore
  have hstep : stepAt p c path v s = .ok s' := by
    rw [stepAt_eq_plain hinst (by simp [hop]), hop]
    exact bind_eq_ok_iff.mpr ⟨true, Failing.ofExcept_eq_ok_iff.mpr hvalue,
      Failing.ofExcept_eq_ok_iff.mpr hstore⟩
  have hentries := Transfer.explicit?_of_store htargets hpointees hstore
  have hreadings := Transfer.values_of_store htargets hpointees hstore
  simp only [hweak, Transfer.written_of_ambiguous hsize] at hentries hreadings
  have hold : ∀ l, l ∉ targets → s'.values l = s.values l := fun l hl => by
    rw [hreadings, if_neg hl]
  have hnew : ∀ t ∈ targets, s'.values t = s.stored t ∪ pointees := fun t ht => by
    rw [hreadings, if_pos ht]
  refine ⟨s', pointees, hstep, hpointees, hold, fun t ht => ⟨hnew t ht, ?_⟩, ?_⟩
  · rw [hnew t ht]
    exact Store.stored_union_eq_iff
  · have hkeys : s.keys ⊆ s'.keys := by
      intro l hl
      obtain ⟨e, he⟩ := Store.mem_keys_iff.mp hl
      rw [Store.mem_keys_iff, hentries]
      split
      · exact ⟨_, rfl⟩
      · exact ⟨e, he⟩
    rw [Store.le_iff, and_iff_right hkeys]
    constructor
    · intro h t ht
      rw [Store.spared_iff, ← hnew t ht]
      exact h t
    · intro h l
      by_cases hl : l ∈ targets
      · rw [hnew l hl]
        exact Store.spared_iff.mp (h l hl)
      · rw [hold l hl]
        exact fun _ hx => hx

/-- `other` is stored to the second field of `node` or to that of itself.  What is then found in
the field of `node` is taken for the address of a function and called; `f` is stored in the first
field of `node`. -/
def linking : List Step :=
  let pair : Ty := .struct [.ptr, .ptr]
  [.define "f" [] .void, .ret none, .global "node", .global "other", .define "main" [.int 1] .void,
    .block (.ofNat 1) "left", .block (.ofNat 1) "right", .block (.ofNat 1) "both",
    .int 0, .int 1, .gep "next" pair (.ofNat 2) [.ofNat 6, .ofNat 7],
    .gep "last" pair (.ofNat 3) [.ofNat 6, .ofNat 7], .store (.ofNat 0) (.ofNat 2),
    .condBr (.ofNat 5) (.ofNat 2) (.ofNat 3), .positionAtEnd (.ofNat 2), .br (.ofNat 4),
    .positionAtEnd (.ofNat 3), .br (.ofNat 4), .positionAtEnd (.ofNat 4), .phi "p" .ptr,
    .incoming (.ofNat 14) (.ofNat 8) (.ofNat 2), .incoming (.ofNat 14) (.ofNat 9) (.ofNat 3),
    .store (.ofNat 3) (.ofNat 14), .load "x" .ptr (.ofNat 8), .load "y" .ptr (.ofNat 16),
    .setLine 7, .call "" .void (.ofNat 17) [], .ret none]

/-- The store in `linking`, when it is reached. -/
theorem linking_at_store : ∃ built s s' targets, build linking = .ok built ∧
    [Ident.ofNat 8, .ofNat 9, .ofNat 10, .ofNat 14].foldlM
      (fun s v => stepAt built.program {} [.ofNat 1] v s) ∅ = .ok s ∧
    built.program.inst? (.ofNat 15) =
      .ok (some ⟨.ofNat 4, .store (.ofNat 3) (.ofNat 14), none⟩) ∧
    built.program.isPtr (.ofNat 3) = .ok true ∧
    s.operand built.program (.ofNat 14) = .ok targets ∧ 2 ≤ targets.size ∧
    .offset (.ofNat 2) 1 ∈ targets ∧ .offset (.ofNat 3) 1 ∈ targets ∧
    s.contains (.offset (.ofNat 2) 1) = false ∧
    s.operand built.program (.ofNat 3) = .ok ((∅ : LocSet).insert (.self (.ofNat 3))) ∧
    stepAt built.program {} [.ofNat 1] (.ofNat 15) s = .ok s' ∧
    .self (.ofNat 2) ∉ s'.values (.offset (.ofNat 2) 1) := by
  obtain ⟨built, hbuilt, hinst, hptr, hobject, hsteps⟩ : ∃ built, build linking = .ok built ∧
      built.program.inst? (.ofNat 15) =
        .ok (some ⟨.ofNat 4, .store (.ofNat 3) (.ofNat 14), none⟩) ∧
      built.program.isPtr (.ofNat 3) = .ok true ∧
      (∀ s : Store, s.operand built.program (.ofNat 3) =
        .ok ((∅ : LocSet).insert (.self (.ofNat 3)))) ∧
      ([Ident.ofNat 8, .ofNat 9, .ofNat 10, .ofNat 14].foldlM
        (fun s v => stepAt built.program {} [.ofNat 1] v s) ∅).toOption.any (fun s =>
          (s.operand built.program (.ofNat 14)).toOption.any (fun targets =>
            decide (2 ≤ targets.size ∧ .offset (.ofNat 2) 1 ∈ targets ∧
              .offset (.ofNat 3) 1 ∈ targets ∧ s.contains (.offset (.ofNat 2) 1) = false)) &&
          (stepAt built.program {} [.ofNat 1] (.ofNat 15) s).toOption.any (fun s' =>
            decide (.self (.ofNat 2) ∉ s'.values (.offset (.ofNat 2) 1)))) = true :=
    ⟨_, rfl, rfl, rfl, fun _ => rfl, by decide +kernel⟩
  obtain ⟨s, hs, hsteps⟩ := eq_ok_of_toOption_any hsteps
  obtain ⟨htargets, hstep⟩ := Bool.and_eq_true_iff.mp hsteps
  obtain ⟨targets, htargets, hfacts⟩ := eq_ok_of_toOption_any htargets
  obtain ⟨hsize, hnode, hother, habsent⟩ := of_decide_eq_true hfacts
  obtain ⟨s', hs', hlost⟩ := eq_ok_of_toOption_any hstep
  exact ⟨built, s, s', targets, hbuilt, hs, hinst, hptr, htargets, hsize, hnode, hother, habsent,
    hobject s, hs', of_decide_eq_true hlost⟩

/-- The store keeps what the field of `other` was read as, but not what the field of `node` was. -/
theorem ambiguous_store_adds_linking : ∃ built s s' pointees, build linking = .ok built ∧
    stepAt built.program {} [.ofNat 1] (.ofNat 15) s = .ok s' ∧
    s.operand built.program (.ofNat 3) = .ok pointees ∧
    s'.values (.offset (.ofNat 3) 1) = s.values (.offset (.ofNat 3) 1) ∪ pointees ∧
    ¬s ≤ s' := by
  obtain ⟨built, s, _, targets, hbuilt, -, hinst, hptr, htargets, hsize, hnode, hother, habsent,
    hobject, -, -⟩ := linking_at_store
  obtain ⟨s', pointees, hs', hpointees, -, hadds, hkeeps⟩ :=
    ambiguous_store_adds (c := {}) [.ofNat 1] hinst rfl hptr rfl htargets hsize
  rw [hobject] at hpointees
  cases hpointees
  refine ⟨built, s, s', _, hbuilt, hs', hobject, ?_, fun hle => ?_⟩
  · refine (hadds _ hother).2.mpr (Or.inr fun d hd => ?_)
    cases hd
    exact mem_insert_empty_iff.mpr rfl
  · rcases hkeeps.mp hle _ hnode with hentry | hdefault
    · rw [hentry] at habsent
      cases habsent
    · exact absurd (mem_insert_empty_iff.mp (hdefault (.self (.ofNat 2)) rfl)) (by decide)

/-- After the store the field of `node` is not read as `node` any more, and so `f` is not found. -/
theorem default_lost_at_ambiguous_store : ∃ built s s' targets pointees,
    build linking = .ok built ∧
    [Ident.ofNat 8, .ofNat 9, .ofNat 10, .ofNat 14].foldlM
      (fun s v => stepAt built.program {} [.ofNat 1] v s) ∅ = .ok s ∧
    built.program.inst? (.ofNat 15) =
      .ok (some ⟨.ofNat 4, .store (.ofNat 3) (.ofNat 14), none⟩) ∧
    s.operand built.program (.ofNat 14) = .ok targets ∧ 2 ≤ targets.size ∧
    s.operand built.program (.ofNat 3) = .ok pointees ∧
    stepAt built.program {} [.ofNat 1] (.ofNat 15) s = .ok s' ∧
    (∃ t ∈ targets, s'.values t ≠ s.values t ∪ pointees) ∧
    (∃ res, (analyze built.program {}).outcome {} = .ok res ∧
      res.report built.program = .ok "") := by
  obtain ⟨built, s, s', targets, hbuilt, hs, hinst, -, htargets, hsize, hnode, -, habsent,
    hobject, hs', hlost⟩ := linking_at_store
  refine ⟨built, s, s', targets, _, hbuilt, hs, hinst, htargets, hsize, hobject, hs',
    ⟨_, hnode, fun heq => hlost ?_⟩, ?_⟩
  · rw [heq]
    exact Std.ExtTreeSet.mem_union_of_left (Store.mem_values_iff.mpr (Or.inr ⟨habsent, rfl⟩))
  · have hanalyze : (build linking).toOption.any (fun built =>
        ((analyze built.program {}).outcome {}).toOption.any (fun res =>
          (res.report built.program).toOption.any (fun text => decide (text = "")))) = true := by
      decide +kernel
    obtain ⟨built', hbuilt', hanalyze⟩ := eq_ok_of_toOption_any hanalyze
    rw [hbuilt] at hbuilt'
    cases hbuilt'
    obtain ⟨res, hres, hreport⟩ := eq_ok_of_toOption_any hanalyze
    obtain ⟨text, htext, hempty⟩ := eq_ok_of_toOption_any hreport
    exact ⟨res, hres, of_decide_eq_true hempty ▸ htext⟩

end CallTargets
