import CallTargets.Proofs.StepAnswers

/-!
# Types of address computations

The result of an address computation is a pointer, whatever it leads to.  This is seen from the
steps: a value keeps its type from the step that makes it, and a step that makes an address
computation gives it this type.
-/

namespace CallTargets

/-- Every address computation makes a pointer. -/
def Program.AddressTyped (p : Program) : Prop :=
  ∀ value ∈ p.values, ∀ home base elem indices line,
    value.kind = .inst ⟨home, .gep base elem indices, line⟩ → value.ty = .ptr

namespace Step

open Program (AddressTyped)

variable {b b' : Builder}

theorem push_addressTyped {name : String} {ty : Ty} {op : Op} {v : ValueId}
    (h : b.push name ty op = .ok (v, b')) (hb : b.program.AddressTyped)
    (hty : ∀ base elem indices, op = .gep base elem indices → ty = .ptr) :
    b'.program.AddressTyped := by
  obtain ⟨home, block, -, -, hprogram⟩ := Builder.push_program h
  rw [hprogram]
  intro value hvalue home' base elem indices line hkind
  rcases Array.mem_push.mp hvalue with hold | rfl
  · exact hb value hold _ _ _ _ _ hkind
  · cases hkind
    exact hty _ _ _ rfl

theorem declare_addressTyped (name : String) (params : List Ty) (ret : Ty)
    (hb : b.program.AddressTyped) : (b.declare name params ret).2.program.AddressTyped := by
  rw [Builder.declare_program]
  intro value hvalue home base elem indices line hkind
  simp only [← Array.mem_toList_iff, Array.toList_appendList, Array.toList_push, List.mem_append,
    List.mem_singleton, List.mem_mapIdx] at hvalue
  rcases hvalue with (hold | rfl) | ⟨i, hi, rfl⟩
  · exact hb value (Array.mem_toList_iff.mp hold) _ _ _ _ _ hkind
  · cases hkind
  · cases hkind

theorem appendBlock_addressTyped {func : FuncId} {name : String} {block : BlockId}
    (h : b.appendBlock func name = .ok (block, b')) (hb : b.program.AddressTyped) :
    b'.program.AddressTyped := by
  obtain ⟨fn, -, -, hprogram⟩ := Builder.appendBlock_program h
  rw [hprogram]
  exact hb

theorem define_addressTyped {name : String} {params : List Ty} {ret : Ty} {func : FuncId}
    (h : b.define name params ret = .ok (func, b')) (hb : b.program.AddressTyped) :
    b'.program.AddressTyped := by
  have hdeclare := declare_addressTyped name params ret hb
  unfold Builder.define at h
  generalize b.declare name params ret = declared at h hdeclare
  obtain ⟨⟨entry, mid⟩, hblock, h⟩ := bind_eq_ok_iff.mp h
  cases h
  have hmid : mid.program.AddressTyped := appendBlock_addressTyped hblock hdeclare
  exact hmid

theorem nameParam_addressTyped {func : FuncId} {position : Nat} {name : String} {v : ValueId}
    (h : b.nameParam func position name = .ok (v, b')) (hb : b.program.AddressTyped) :
    b'.program.AddressTyped := by
  obtain ⟨v, -, h⟩ := bind_eq_ok_iff.mp h
  obtain ⟨old, hold, h⟩ := bind_eq_ok_iff.mp h
  cases h
  intro value hvalue home base elem indices line hkind
  rcases Array.mem_or_eq_of_mem_setIfInBounds hvalue with hvalue | rfl
  · exact hb value hvalue _ _ _ _ _ hkind
  · exact hb old (Program.mem_of_fetch hold) _ _ _ _ _ hkind

theorem addIncoming_addressTyped {phi source : ValueId} {block : BlockId}
    (h : b.addIncoming phi source block = .ok b') (hb : b.program.AddressTyped) :
    b'.program.AddressTyped := by
  obtain ⟨data, -, h⟩ := bind_eq_ok_iff.mp h
  split at h
  · cases h
    intro value hvalue home base elem indices line hkind
    rcases Array.mem_or_eq_of_mem_setIfInBounds hvalue with hvalue | rfl
    · exact hb value hvalue _ _ _ _ _ hkind
    · cases hkind
  · cases h

theorem addValue_addressTyped {name : String} {ty : Ty} {kind : ValueKind}
    (hkind : kind.IsConstant) (hb : b.program.AddressTyped) :
    (b.addValue name ty kind).2.program.AddressTyped := by
  intro value hvalue home base elem indices line heq
  rcases Array.mem_push.mp hvalue with hold | rfl
  · exact hb value hold _ _ _ _ _ heq
  · subst heq
    exact hkind.elim

theorem apply_addressTyped {step : Step} {m : Made} (h : step.apply b = .ok (m, b'))
    (hb : b.program.AddressTyped) : b'.program.AddressTyped := by
  have hmade : ∀ {name : String} {ty : Ty} {op : Op},
      (do return made (← b.push name ty op) : Except Fault (Made × Builder)) = .ok (m, b') →
      (∀ base elem indices, op = .gep base elem indices → ty = .ptr) →
        b'.program.AddressTyped := by
    intro name ty op h hty
    obtain ⟨⟨v, last⟩, hpush, h⟩ := bind_eq_ok_iff.mp h
    cases h
    exact push_addressTyped hpush hb hty
  cases step with
  | declare name params result =>
      cases h
      exact declare_addressTyped name params result hb
  | define name params result =>
      obtain ⟨⟨func, last⟩, hdefine, h⟩ := bind_eq_ok_iff.mp h
      cases h
      exact define_addressTyped hdefine hb
  | nameParam f position name =>
      obtain ⟨⟨v, last⟩, hname, h⟩ := bind_eq_ok_iff.mp h
      cases h
      exact nameParam_addressTyped hname hb
  | block f name =>
      obtain ⟨⟨home, last⟩, hblock, h⟩ := bind_eq_ok_iff.mp h
      cases h
      exact appendBlock_addressTyped hblock hb
  | incoming target value source =>
      obtain ⟨last, hincoming, h⟩ := bind_eq_ok_iff.mp h
      cases h
      exact addIncoming_addressTyped hincoming hb
  | funcValue f =>
      obtain ⟨v, -, h⟩ := bind_eq_ok_iff.mp h
      cases h
      exact hb
  | param f position =>
      obtain ⟨v, -, h⟩ := bind_eq_ok_iff.mp h
      cases h
      exact hb
  | positionAtEnd | setLine | clearLine =>
      cases h
      exact hb
  | global | int | null | undef =>
      cases h
      exact addValue_addressTyped trivial hb
  | gep => exact hmade h fun _ _ _ _ => rfl
  | alloca | load | store | cast | phi | call | ret | br | condBr | binOp | icmp | unreachable =>
      exact hmade h nofun

end Step

theorem addressTyped_of_buildFrom {b : Builder} {done : List Made} {steps : List Step}
    {built : Built} (h : buildFrom b done steps = .ok built) (hb : b.program.AddressTyped) :
    built.program.AddressTyped := by
  induction steps generalizing b done with
  | nil =>
      cases h
      exact hb
  | cons step rest ih =>
      unfold buildFrom at h
      cases hstep : step.apply b with
      | error fault =>
          rw [hstep] at h
          cases h
      | ok answer =>
          rw [hstep] at h
          exact ih h (Step.apply_addressTyped hstep hb)

theorem addressTyped_of_build {steps : List Step} {built : Built} (h : build steps = .ok built) :
    built.program.AddressTyped :=
  addressTyped_of_buildFrom h fun _ hvalue => absurd hvalue (Array.not_mem_empty _)

end CallTargets
