import CallTargets.Proofs.AmbiguousStores

/-!
# What loads read

A load copies to its own location what each pointee of its address may point to, one pointee
after the other and within one store.  A pointee may be the location of the load itself, as in a
loop where the address comes from the round before.  Before the first copy this location may lack
an entry, and is then read as its default; after the first copy it has one.  Whether the default
is copied as well depends on whether the location comes first among the pointees, and so on how
the values of the program are numbered.
-/

namespace CallTargets

namespace Store

/-- Adds what each of the sources in turn may point to. -/
def copyAll (s : Store) (dst : Loc) (sources : List Loc) : Store :=
  sources.foldl (fun s source => s.copy dst source) s

/-- Another pointee comes before `dst` itself, which has no entry until that one is copied. -/
def LosesDefault (s : Store) (dst : Loc) (pointees : LocSet) : Prop :=
  s.contains dst = false ∧ dst ∈ pointees ∧ ∃ t ∈ pointees, compare t dst = .lt

variable {s : Store} {dst source l t y : Loc} {sources : List Loc} {pointees : LocSet}

/-! ## One copy -/

theorem explicit?_copy_of_ne (h : l ≠ dst) : (s.copy dst source).explicit? l = s.explicit? l :=
  explicit?_extend_of_ne h.symm _ _

theorem contains_copy : (s.copy dst source).contains dst = true :=
  contains_iff.mpr ⟨_, explicit?_extend_self _ _ _⟩

theorem mem_stored_copy : y ∈ (s.copy dst source).stored dst ↔
    y ∈ s.stored dst ∨ y ∈ s.values source := by
  have hentry : (s.copy dst source).explicit? dst = some (s.stored dst ∪ s.values source) :=
    explicit?_extend_self _ _ _
  rw [stored_of_explicit hentry, Std.ExtTreeSet.mem_union_iff]

theorem notMem_stored_of_absent (h : s.contains l = false) : y ∉ s.stored l := by
  intro hy
  rw [contains_of_mem_stored hy] at h
  cases h

theorem mem_values_of_contains (h : s.contains l = true) : y ∈ s.values l ↔ y ∈ s.stored l := by
  simp [mem_values_iff, h]

theorem mem_values_copy : y ∈ (s.copy dst source).values t ↔
    t ≠ dst ∧ y ∈ s.values t ∨ t = dst ∧ (y ∈ s.stored dst ∨ y ∈ s.values source) := by
  by_cases h : t = dst
  · subst h
    simp [mem_values_of_contains contains_copy, mem_stored_copy]
  · simp [values, explicit?_copy_of_ne h, h]

/-! ## Copies in turn -/

theorem copyAll_cons : s.copyAll dst (source :: sources) = (s.copy dst source).copyAll dst sources :=
  rfl

theorem explicit?_copyAll_of_ne (h : l ≠ dst) :
    (s.copyAll dst sources).explicit? l = s.explicit? l := by
  induction sources generalizing s with
  | nil => rfl
  | cons source sources ih => rw [copyAll_cons, ih, explicit?_copy_of_ne h]

theorem contains_copyAll : (s.copyAll dst sources).contains dst = true ↔
    s.contains dst = true ∨ ∃ t, t ∈ sources := by
  induction sources generalizing s with
  | nil => simp [copyAll]
  | cons source sources ih => simp [copyAll_cons, ih, contains_copy]

/-- Reading an entry while adding to it finds nothing that is not added anyway. -/
theorem mem_stored_copyAll_of_contains (h : s.contains dst = true) :
    y ∈ (s.copyAll dst sources).stored dst ↔
      y ∈ s.stored dst ∨ ∃ t ∈ sources, y ∈ s.values t := by
  induction sources generalizing s with
  | nil => simp [copyAll]
  | cons source sources ih =>
      rw [copyAll_cons, ih contains_copy, mem_stored_copy, List.exists_mem_cons_iff, or_assoc]
      constructor
      · rintro (hold | hnew | ⟨t, ht, hread⟩)
        · exact Or.inl hold
        · exact Or.inr (Or.inl hnew)
        · rcases mem_values_copy.mp hread with ⟨-, hread⟩ | ⟨-, hold | hnew⟩
          · exact Or.inr (Or.inr ⟨t, ht, hread⟩)
          · exact Or.inl hold
          · exact Or.inr (Or.inl hnew)
      · rintro (hold | hnew | ⟨t, ht, hread⟩)
        · exact Or.inl hold
        · exact Or.inr (Or.inl hnew)
        · by_cases hdst : t = dst
          · subst hdst
            exact Or.inl ((mem_values_of_contains h).mp hread)
          · exact Or.inr (Or.inr ⟨t, ht, mem_values_copy.mpr (Or.inl ⟨hdst, hread⟩)⟩)

/-- The first copy makes the entry, and no later copy reads the default. -/
theorem mem_stored_copyAll_cons_of_absent (h : s.contains dst = false) :
    y ∈ (s.copyAll dst (source :: sources)).stored dst ↔
      y ∈ s.values source ∨ ∃ t ∈ sources, t ≠ dst ∧ y ∈ s.values t := by
  have hempty : y ∉ s.stored dst := notMem_stored_of_absent h
  rw [copyAll_cons, mem_stored_copyAll_of_contains contains_copy, mem_stored_copy,
    or_iff_right hempty]
  simp only [mem_values_copy, or_iff_right hempty]
  constructor
  · rintro (hread | ⟨t, ht, hother | ⟨-, hread⟩⟩)
    · exact Or.inl hread
    · exact Or.inr ⟨t, ht, hother⟩
    · exact Or.inl hread
  · exact Or.imp_right fun ⟨t, ht, hother⟩ => ⟨t, ht, Or.inl hother⟩

/-! ## Copies in order of the pointees -/

theorem losesDefault_iff (h : s.contains dst = false) (hlist : pointees.toList = source :: sources) :
    s.LosesDefault dst pointees ↔ dst ∈ sources := by
  have hmem : ∀ t, t ∈ pointees ↔ t = source ∨ t ∈ sources := fun t => by
    rw [← Std.ExtTreeSet.mem_toList, hlist, List.mem_cons]
  have hordered : (source :: sources).Pairwise fun a b => compare a b = .lt :=
    hlist ▸ pointees.ordered_toList
  obtain ⟨hfirst, -⟩ := List.pairwise_cons.mp hordered
  constructor
  · rintro ⟨-, hdst, t, ht, hlt⟩
    rcases (hmem dst).mp hdst with rfl | hdst
    · rcases (hmem t).mp ht with rfl | ht
      · exact absurd hlt (Std.OrientedCmp.not_lt_of_lt hlt)
      · exact absurd hlt (Std.OrientedCmp.not_lt_of_lt (hfirst t ht))
    · exact hdst
  · intro hdst
    exact ⟨h, (hmem dst).mpr (Or.inr hdst), source, (hmem source).mpr (Or.inl rfl),
      hfirst dst hdst⟩

/-- Each pointee adds what it may point to, except that the default of `dst` may be lost. -/
theorem mem_stored_copyAll : y ∈ (s.copyAll dst pointees.toList).stored dst ↔
    y ∈ s.stored dst ∨
      ∃ t ∈ pointees, y ∈ s.values t ∧ ¬(t = dst ∧ s.LosesDefault dst pointees) := by
  by_cases hentry : s.contains dst = true
  · have hkept : ¬s.LosesDefault dst pointees := fun hloses => by
      rw [hloses.1] at hentry
      cases hentry
    simp [mem_stored_copyAll_of_contains hentry, hkept]
  · have habsent : s.contains dst = false := by simpa using hentry
    simp only [← Std.ExtTreeSet.mem_toList (t := pointees)]
    cases hlist : pointees.toList with
    | nil => simp [copyAll]
    | cons source sources =>
        have hnodup := (hlist ▸ nodup_toList pointees : (source :: sources).Nodup)
        obtain ⟨hsource, -⟩ := List.nodup_cons.mp hnodup
        have hempty : y ∉ s.stored dst := notMem_stored_of_absent habsent
        rw [mem_stored_copyAll_cons_of_absent habsent, losesDefault_iff habsent hlist,
          or_iff_right hempty, List.exists_mem_cons_iff]
        constructor
        · rintro (hread | ⟨t, ht, hdst, hread⟩)
          · exact Or.inl ⟨hread, fun hboth => hsource (hboth.1 ▸ hboth.2)⟩
          · exact Or.inr ⟨t, ht, hread, fun hboth => hdst hboth.1⟩
        · rintro (⟨hread, -⟩ | ⟨t, ht, hread, hnot⟩)
          · exact Or.inl hread
          · exact Or.inr ⟨t, ht, fun hdst => hnot ⟨hdst, hdst ▸ ht⟩, hread⟩

/-- The loss goes unnoticed just if some other pointee may point to the default. -/
theorem copyAll_adds_all_iff (hdefault : dst.default? = some l) :
    (∀ y, y ∈ (s.copyAll dst pointees.toList).stored dst ↔
        y ∈ s.stored dst ∨ ∃ t ∈ pointees, y ∈ s.values t) ↔
      (s.LosesDefault dst pointees → ∃ t ∈ pointees, t ≠ dst ∧ l ∈ s.values t) := by
  simp only [mem_stored_copyAll]
  constructor
  · intro hall hloses
    have hread : l ∈ s.values dst := mem_values_iff.mpr (Or.inr ⟨hloses.1, hdefault⟩)
    rcases (hall l).mpr (Or.inr ⟨dst, hloses.2.1, hread⟩) with hold | ⟨t, ht, hread, hnot⟩
    · exact absurd hold (notMem_stored_of_absent hloses.1)
    · exact ⟨t, ht, fun hdst => hnot ⟨hdst, hloses⟩, hread⟩
  · intro hother y
    constructor
    · exact Or.imp_right fun ⟨t, ht, hread, _⟩ => ⟨t, ht, hread⟩
    · rintro (hold | ⟨t, ht, hread⟩)
      · exact Or.inl hold
      · by_cases hlost : t = dst ∧ s.LosesDefault dst pointees
        · obtain ⟨rfl, hloses⟩ := hlost
          rcases mem_values_iff.mp hread with hold | ⟨-, hy⟩
          · exact Or.inl hold
          · obtain ⟨u, hu, hne, hfound⟩ := hother hloses
            cases hdefault.symm.trans hy
            exact Or.inr ⟨u, hu, hfound, fun hboth => hne hboth.1⟩
        · exact Or.inr ⟨t, ht, hread, hlost⟩

end Store

variable {p : Program} {c : Config} {s : Store}

/-- A load adds to its own location what each pointee of its address may point to, and changes no
other location.  This is read from the store as it was before, with one exception: when the load
itself is among the pointees, has no entry and is preceded by another pointee, its default is not
added on its own account. -/
theorem load_adds_values (path : List FuncId) {v ptr : ValueId} {inst : Inst} {pointees : LocSet}
    (hinst : p.inst? v = .ok (some inst)) (hop : inst.op = .load ptr)
    (hptr : p.isPtr v = .ok true) (hpointees : s.operand p ptr = .ok pointees) :
    ∃ s', stepAt p c path v s = .ok s' ∧
      (∀ l, l ≠ .self v → s'.explicit? l = s.explicit? l) ∧
      (s'.contains (.self v) = true ↔ s.contains (.self v) = true ∨ ∃ t, t ∈ pointees) ∧
      (∀ y, y ∈ s'.stored (.self v) ↔ y ∈ s.stored (.self v) ∨
        ∃ t ∈ pointees, y ∈ s.values t ∧ ¬(t = .self v ∧ s.LosesDefault (.self v) pointees)) ∧
      ((∀ y, y ∈ s'.stored (.self v) ↔
          y ∈ s.stored (.self v) ∨ ∃ t ∈ pointees, y ∈ s.values t) ↔
        (s.LosesDefault (.self v) pointees →
          ∃ t ∈ pointees, t ≠ .self v ∧ .self v ∈ s.values t)) := by
  have hload : Transfer.load p v ptr s = .ok (s.copyAll (.self v) pointees.toList) :=
    bind_eq_ok_iff.mpr ⟨pointees, hpointees, rfl⟩
  have hstep : stepAt p c path v s = .ok (s.copyAll (.self v) pointees.toList) := by
    rw [stepAt_eq_plain hinst (by simp [hop]), hop]
    exact bind_eq_ok_iff.mpr ⟨true, Failing.ofExcept_eq_ok_iff.mpr hptr,
      Failing.ofExcept_eq_ok_iff.mpr hload⟩
  refine ⟨_, hstep, fun l hl => Store.explicit?_copyAll_of_ne hl, ?_,
    fun y => Store.mem_stored_copyAll, Store.copyAll_adds_all_iff rfl⟩
  simp only [Store.contains_copyAll, Std.ExtTreeSet.mem_toList]

/-- The address of the load in a loop is first `cell`, which holds the address of `f`, and then
what was loaded in the round before. -/
def chasing : List Step :=
  [.define "f" [] .void, .ret none, .define "main" [.int 1] .void,
    .block (.ofNat 1) "loop", .block (.ofNat 1) "done", .alloca "cell" .ptr,
    .store (.ofNat 0) (.ofNat 4), .br (.ofNat 2), .positionAtEnd (.ofNat 2), .phi "p" .ptr,
    .load "x" .ptr (.ofNat 7), .incoming (.ofNat 7) (.ofNat 4) (.ofNat 1),
    .incoming (.ofNat 7) (.ofNat 8) (.ofNat 2), .condBr (.ofNat 3) (.ofNat 2) (.ofNat 3),
    .positionAtEnd (.ofNat 3), .ret none]

/-- The load in `chasing`, when it is reached for the first time. -/
theorem chasing_at_load : ∃ built s s' pointees, build chasing = .ok built ∧
    [Ident.ofNat 5, .ofNat 7].foldlM
      (fun s v => stepAt built.program {} [.ofNat 1] v s) ∅ = .ok s ∧
    built.program.inst? (.ofNat 8) = .ok (some ⟨.ofNat 2, .load (.ofNat 7), none⟩) ∧
    built.program.isPtr (.ofNat 8) = .ok true ∧
    s.operand built.program (.ofNat 7) = .ok pointees ∧
    .self (.ofNat 4) ∈ pointees ∧ .self (.ofNat 8) ∈ pointees ∧
    s.contains (.self (.ofNat 8)) = false ∧
    .self (.ofNat 0) ∈ s.values (.self (.ofNat 4)) ∧
    stepAt built.program {} [.ofNat 1] (.ofNat 8) s = .ok s' ∧
    .self (.ofNat 8) ∉ s'.stored (.self (.ofNat 8)) := by
  obtain ⟨built, hbuilt, hinst, hptr, hsteps⟩ : ∃ built, build chasing = .ok built ∧
      built.program.inst? (.ofNat 8) = .ok (some ⟨.ofNat 2, .load (.ofNat 7), none⟩) ∧
      built.program.isPtr (.ofNat 8) = .ok true ∧
      ([Ident.ofNat 5, .ofNat 7].foldlM
        (fun s v => stepAt built.program {} [.ofNat 1] v s) ∅).toOption.any (fun s =>
          (s.operand built.program (.ofNat 7)).toOption.any (fun pointees =>
            decide (.self (.ofNat 4) ∈ pointees ∧ .self (.ofNat 8) ∈ pointees ∧
              s.contains (.self (.ofNat 8)) = false ∧
              .self (.ofNat 0) ∈ s.values (.self (.ofNat 4)))) &&
          (stepAt built.program {} [.ofNat 1] (.ofNat 8) s).toOption.any (fun s' =>
            decide (.self (.ofNat 8) ∉ s'.stored (.self (.ofNat 8))))) = true :=
    ⟨_, rfl, rfl, rfl, by decide +kernel⟩
  obtain ⟨s, hs, hsteps⟩ := eq_ok_of_toOption_any hsteps
  obtain ⟨hpointees, hstep⟩ := Bool.and_eq_true_iff.mp hsteps
  obtain ⟨pointees, hpointees, hfacts⟩ := eq_ok_of_toOption_any hpointees
  obtain ⟨hcell, hself, habsent, hread⟩ := of_decide_eq_true hfacts
  obtain ⟨s', hs', hlost⟩ := eq_ok_of_toOption_any hstep
  exact ⟨built, s, s', pointees, hbuilt, hs, hinst, hptr, hpointees, hcell, hself, habsent, hread,
    hs', of_decide_eq_true hlost⟩

/-- The load finds `f`, and the address keeps its entry. -/
theorem load_adds_values_chasing : ∃ built s s', build chasing = .ok built ∧
    stepAt built.program {} [.ofNat 1] (.ofNat 8) s = .ok s' ∧
    .self (.ofNat 0) ∈ s'.stored (.self (.ofNat 8)) ∧
    s'.explicit? (.self (.ofNat 7)) = s.explicit? (.self (.ofNat 7)) := by
  obtain ⟨built, s, _, pointees, hbuilt, -, hinst, hptr, hpointees, hcell, -, -, hread, -, -⟩ :=
    chasing_at_load
  obtain ⟨s', hs', hothers, -, hadds, -⟩ :=
    load_adds_values (c := {}) [.ofNat 1] hinst rfl hptr hpointees
  refine ⟨built, s, s', hbuilt, hs', (hadds _).mpr (Or.inr ⟨_, hcell, hread, ?_⟩),
    hothers _ (by decide)⟩
  exact fun hboth => absurd hboth.1 (by decide)

/-- Before the load its own location, a pointee of the address, is read as its default, but this
default is not loaded. -/
theorem default_lost_at_load : ∃ built s s' pointees, build chasing = .ok built ∧
    [Ident.ofNat 5, .ofNat 7].foldlM
      (fun s v => stepAt built.program {} [.ofNat 1] v s) ∅ = .ok s ∧
    built.program.inst? (.ofNat 8) = .ok (some ⟨.ofNat 2, .load (.ofNat 7), none⟩) ∧
    built.program.isPtr (.ofNat 8) = .ok true ∧
    s.operand built.program (.ofNat 7) = .ok pointees ∧
    stepAt built.program {} [.ofNat 1] (.ofNat 8) s = .ok s' ∧
    ¬∀ y, y ∈ s'.stored (.self (.ofNat 8)) ↔
      y ∈ s.stored (.self (.ofNat 8)) ∨ ∃ t ∈ pointees, y ∈ s.values t := by
  obtain ⟨built, s, s', pointees, hbuilt, hs, hinst, hptr, hpointees, -, hself, habsent, -, hs',
    hlost⟩ := chasing_at_load
  refine ⟨built, s, s', pointees, hbuilt, hs, hinst, hptr, hpointees, hs', fun hall => ?_⟩
  have hdefault : .self (.ofNat 8) ∈ s.values (.self (.ofNat 8)) :=
    Store.mem_values_iff.mpr (Or.inr ⟨habsent, rfl⟩)
  exact hlost ((hall _).mpr (Or.inr ⟨_, hself, hdefault⟩))

end CallTargets
