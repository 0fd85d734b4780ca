import CallTargets.Proofs.ListedOnce

/-!
# What a step answers and what it leaves alone

A step that makes a value, a block or a function answers with the number of things of that kind
made before it, so that identifiers are dense and in the order of creation.  What earlier values
are is never changed, except for the phi that an incoming edge is added to: that one gets just this
edge, behind those that it has.
-/

namespace CallTargets

/-- How many values, blocks or functions there are. -/
def Program.count (p : Program) : Entity → Nat
  | .value => p.values.size
  | .block => p.blocks.size
  | .func => p.functions.size

/-- What was answered, by its kind and its number. -/
def Made.number? : Made → Option (Entity × Nat)
  | value v => some (.value, v.index)
  | block b => some (.block, b.index)
  | func f => some (.func, f.index)
  | nothing => none

namespace Step

/-- The kind of what a step makes and answers. -/
def creates : Step → Option Entity
  | declare .. | define .. => some .func
  | block .. => some .block
  | funcValue _ | param .. | nameParam .. | positionAtEnd _ | setLine _ | clearLine
  | incoming .. => none
  | _ => some .value

/-- The types of the parameters of a function that a step makes. -/
def params? : Step → Option (List Ty)
  | declare _ params _ | define _ params _ => some params
  | _ => none

/-- How many things of a kind a step makes.  A function comes with a value of its own and one for
each parameter, and a defined one with its entry block. -/
def adds : Step → Entity → Nat
  | declare _ params _, .value | define _ params _, .value => 1 + params.length
  | define .., .block => 1
  | step, e => if step.creates = some e then 1 else 0

/-- The phi that a step adds an edge to, and the edge. -/
def edge? : Step → Option (ValueId × ValueId × BlockId)
  | incoming target source from' => some (target, source, from')
  | _ => none

/-- What becomes of a value when a step is carried out: its type stays, and so does its kind unless
the value is the phi that the step adds an edge to. -/
structure Keeps (step : Step) (n : Nat) (value value' : Value) : Prop where
  ty : value'.ty = value.ty
  kind : (∀ phi edge, step.edge? = some (phi, edge) → phi.index ≠ n) → value'.kind = value.kind
  /-- The new edge comes behind the others, in the same block and at the same line. -/
  phi : ∀ phi edge, step.edge? = some (phi, edge) → phi.index = n → ∃ home edges line,
    value.kind = .inst ⟨home, .phi edges, line⟩ ∧
      value'.kind = .inst ⟨home, .phi (edges ++ [edge]), line⟩

/-- A step that takes one program to another has answered and changed what it should. -/
structure Sound (step : Step) (m : Made) (p p' : Program) : Prop where
  count : ∀ e, p'.count e = p.count e + step.adds e
  answer : ∀ e, step.creates = some e → m.number? = some (e, p.count e)
  /-- A new function has the first of the new values, and its parameters have those after it. -/
  function : ∀ params, step.params? = some params → ∃ fn,
    p'.functions[p.functions.size]? = some fn ∧ fn.value.index = p.values.size ∧
      fn.params.map Ident.index = List.range' (p.values.size + 1) params.length ∧
      fn.blocks.map Ident.index = List.range' p.blocks.size (step.adds .block)
  kept : ∀ (n : Nat) (value : Value), p.values[n]? = some value →
    ∃ value', p'.values[n]? = some value' ∧ step.Keeps n value value'
  /-- An edge is only added to a value that is there. -/
  known : ∀ phi edge, step.edge? = some (phi, edge) → phi.index < p.values.size

variable {step : Step} {p p' : Program}

namespace Keeps

variable {n : Nat} {value value' : Value}

theorem of_ne (hne : ∀ phi edge, step.edge? = some (phi, edge) → phi.index ≠ n)
    (hty : value'.ty = value.ty) (hkind : value'.kind = value.kind) :
    step.Keeps n value value' :=
  ⟨hty, fun _ => hkind, fun phi edge hedge hn => absurd hn (hne phi edge hedge)⟩

theorem refl (hedge : step.edge? = none) (n : Nat) (value : Value) : step.Keeps n value value :=
  of_ne (by simp [hedge]) rfl rfl

end Keeps

/-- The phi that is given an edge has it behind those that it had. -/
theorem Sound.inst?_incoming {m : Made} {target source : ValueId} {home block : BlockId}
    {edges : List (ValueId × BlockId)} {line : Option UInt32}
    (h : (incoming target source block).Sound m p p')
    (hphi : p.inst? target = .ok (some ⟨home, .phi edges, line⟩)) :
    p'.inst? target = .ok (some ⟨home, .phi (edges ++ [(source, block)]), line⟩) := by
  obtain ⟨value, hvalue, hkind⟩ := Program.inst?_eq_some_iff.mp hphi
  obtain ⟨value', hvalue', hkeeps⟩ := h.kept target.index value hvalue
  obtain ⟨home', edges', line', hold, hnew⟩ := hkeeps.phi target (source, block) rfl rfl
  rw [hkind] at hold
  cases hold
  exact Program.inst?_eq_some_iff.mpr ⟨value', hvalue', hnew⟩

/-! ## Kinds of steps -/

/-- A step that makes nothing. -/
theorem sound_of_none (m : Made) (hcreates : step.creates = none) (hparams : step.params? = none)
    (hadds : ∀ e, step.adds e = 0) (hcount : ∀ e, p'.count e = p.count e)
    (hkept : ∀ (n : Nat) (value : Value), p.values[n]? = some value →
      ∃ value', p'.values[n]? = some value' ∧ step.Keeps n value value')
    (hknown : ∀ phi edge, step.edge? = some (phi, edge) → phi.index < p.values.size) :
    step.Sound m p p' where
  count e := by rw [hcount, hadds, Nat.add_zero]
  answer e he := by simp [hcreates] at he
  function params h := by simp [hparams] at h
  kept := hkept
  known := hknown

theorem sound_of_same (m : Made) (hcreates : step.creates = none) (hparams : step.params? = none)
    (hadds : ∀ e, step.adds e = 0) (hedge : step.edge? = none) : step.Sound m p p :=
  sound_of_none m hcreates hparams hadds (fun _ => rfl)
    (fun n value h => ⟨value, h, .refl hedge n value⟩) (by simp [hedge])

/-- A step that makes one value. -/
theorem sound_of_value {value : Value} (hcreates : step.creates = some .value)
    (hparams : step.params? = none)
    (hadds : ∀ e, step.adds e = if some Entity.value = some e then 1 else 0)
    (hedge : step.edge? = none)
    (hvalues : p'.values = p.values.push value) (hblocks : p'.blocks.size = p.blocks.size)
    (hfunctions : p'.functions = p.functions) (hroom : p'.values.size ≤ UInt32.size) :
    step.Sound (.value (.ofNat p.values.size)) p p' where
  count e := by
    rw [hadds]
    cases e <;> simp [Program.count, hvalues, hblocks, hfunctions]
  answer e he := by
    rw [hvalues] at hroom
    rw [hcreates] at he
    cases he
    rw [Made.number?, Ident.index_ofNat_of_lt (Program.lt_of_size_push_le hroom)]
    rfl
  function params h := by simp [hparams] at h
  kept n old h := by
    rw [hvalues]
    exact ⟨old, Program.getElem?_push_of_some h, .refl hedge n old⟩
  known := by simp [hedge]

end Step

namespace Builder

variable {b b' : Builder}

theorem declare_program (b : Builder) (name : String) (params : List Ty) (ret : Ty) :
    (b.declare name params ret).2.program = { b.program with
      values := b.program.values.push
          ⟨nameOf name, .ptr, .function (.ofNat b.program.functions.size)⟩ ++
        params.mapIdx fun i ty =>
          Value.mk none ty (.argument (.ofNat b.program.functions.size) i)
      functions := b.program.functions.push ⟨name, .ofNat b.program.values.size,
        params.mapIdx fun i _ => .ofNat (b.program.values.size + 1 + i), ret, []⟩ } := by
  simp [declare, addValue, nextValue]

theorem map_index_mapIdx {first : Nat} {params : List Ty}
    (hroom : first + params.length ≤ UInt32.size) :
    (params.mapIdx fun i _ => (Ident.ofNat (first + i) : ValueId)).map Ident.index =
      List.range' first params.length := by
  apply List.ext_getElem?
  intro i
  rw [List.getElem?_map, List.getElem?_mapIdx]
  by_cases hi : i < params.length
  · have hindex : (Ident.ofNat (first + i) : ValueId).index = first + i :=
      Ident.index_ofNat_of_lt (by omega)
    simp [hi, hindex]
  · simp [hi]

/-- What a declaration makes; nothing is said of the steps that it is a part of. -/
theorem declare_makes (b : Builder) (name : String) (params : List Ty) (ret : Ty) {p' : Program}
    (hp' : (b.declare name params ret).2.program = p')
    (hroom : ∀ e, p'.count e ≤ UInt32.size) :
    (b.declare name params ret).1.index = b.program.functions.size ∧
      p'.values.size = b.program.values.size + (1 + params.length) ∧
      p'.blocks = b.program.blocks ∧
      p'.functions.size = b.program.functions.size + 1 ∧
      (∃ fn, p'.functions[b.program.functions.size]? = some fn ∧
        fn.value.index = b.program.values.size ∧
        fn.params.map Ident.index = List.range' (b.program.values.size + 1) params.length ∧
        fn.blocks = []) ∧
      ∀ (n : Nat) (value : Value), b.program.values[n]? = some value →
        p'.values[n]? = some value := by
  rw [declare_program] at hp'
  subst hp'
  have hvalues := hroom .value
  have hfunctions := hroom .func
  simp only [Program.count, Program.size_declared, List.length_mapIdx,
    Array.size_push] at hvalues hfunctions
  have hindex : (b.declare name params ret).1.index = b.program.functions.size :=
    Ident.index_ofNat_of_lt hfunctions
  have hsize : (b.program.values.push
      ⟨nameOf name, .ptr, .function (.ofNat b.program.functions.size)⟩ ++ params.mapIdx fun i ty =>
        Value.mk none ty (.argument (.ofNat b.program.functions.size) i)).size =
      b.program.values.size + (1 + params.length) := by
    rw [Program.size_declared, List.length_mapIdx, Nat.add_assoc]
  refine ⟨hindex, hsize, rfl, Array.size_push _, ?_, ?_⟩
  · refine ⟨_, by rw [Array.getElem?_push, if_pos rfl], ?_, map_index_mapIdx hvalues, rfl⟩
    apply Ident.index_ofNat_of_lt
    omega
  · intro n value hvalue
    have hpushed := Program.getElem?_push_of_some hvalue
      (b := ⟨nameOf name, .ptr, .function (.ofNat b.program.functions.size)⟩)
    rw [Program.getElem?_appendList, if_pos (Array.getElem?_eq_some_iff.mp hpushed).1, hpushed]

theorem push_program {name : String} {ty : Ty} {op : Op} {v : ValueId}
    (h : b.push name ty op = .ok (v, b')) :
    ∃ home block, b.program.blocks[home.index]? = some block ∧ v = .ofNat b.program.values.size ∧
      b'.program = { b.program with
        values := b.program.values.push ⟨nameOf name, ty, .inst ⟨home, op, b.line⟩⟩
        blocks := b.program.blocks.setIfInBounds home.index
          { block with insts := block.insts.push (.ofNat b.program.values.size) } } := by
  unfold push at h
  cases hcursor : b.cursor with
  | none =>
      rw [hcursor] at h
      cases h
  | some home =>
      rw [hcursor] at h
      obtain ⟨block, hblock, h⟩ := bind_eq_ok_iff.mp h
      cases h
      exact ⟨home, block, fetch_eq_ok_iff.mp hblock, rfl, rfl⟩

theorem appendBlock_program {func : FuncId} {name : String} {block : BlockId}
    (h : b.appendBlock func name = .ok (block, b')) :
    ∃ fn, b.program.functions[func.index]? = some fn ∧ block = .ofNat b.program.blocks.size ∧
      b'.program = { b.program with
        blocks := b.program.blocks.push ⟨func, nameOf name, #[]⟩
        functions := b.program.functions.setIfInBounds func.index
          { fn with blocks := fn.blocks ++ [.ofNat b.program.blocks.size] } } := by
  obtain ⟨fn, hfn, h⟩ := bind_eq_ok_iff.mp h
  cases h
  exact ⟨fn, fetch_eq_ok_iff.mp hfn, rfl, rfl⟩

end Builder

namespace Step

open Program (count)

variable {b b' : Builder}

theorem declare_sound (b : Builder) (name : String) (params : List Ty) (ret : Ty)
    (hroom : ∀ e, (b.declare name params ret).2.program.count e ≤ UInt32.size) :
    (declare name params ret).Sound (.func (b.declare name params ret).1) b.program
      (b.declare name params ret).2.program := by
  obtain ⟨hindex, hvalues, hblocks, hfunctions, hfunction, hkept⟩ :=
    b.declare_makes name params ret rfl hroom
  constructor
  · intro e
    cases e with
    | value => exact hvalues
    | block => exact congrArg Array.size hblocks
    | func => exact hfunctions
  · rintro e ⟨⟩
    rw [Made.number?, hindex]
    rfl
  · rintro params' ⟨⟩
    obtain ⟨fn, hfn, hvalue, hparams, hnone⟩ := hfunction
    exact ⟨fn, hfn, hvalue, hparams, by rw [hnone]; rfl⟩
  · exact fun n value hvalue => ⟨value, hkept n value hvalue, .refl rfl n value⟩
  · exact nofun

theorem define_sound {name : String} {params : List Ty} {ret : Ty} {func : FuncId}
    (h : b.define name params ret = .ok (func, b'))
    (hroom : ∀ e, b'.program.count e ≤ UInt32.size) :
    (define name params ret).Sound (.func func) b.program b'.program := by
  have hmakes := @b.declare_makes name params ret
  unfold Builder.define at h
  generalize b.declare name params ret = declared at h hmakes
  obtain ⟨⟨entry, last⟩, hentry, h⟩ := bind_eq_ok_iff.mp h
  cases h
  obtain ⟨old, hold, -, hprogram⟩ := Builder.appendBlock_program hentry
  have hlast : (last.positionAtEnd entry).program = last.program := rfl
  rw [hlast, hprogram] at hroom ⊢
  have hroom' : ∀ e, declared.2.program.count e ≤ UInt32.size := by
    intro e
    refine Nat.le_trans ?_ (hroom e)
    cases e <;> simp [count]
  obtain ⟨hindex, hvalues, hblocks, hfunctions, ⟨fn, hfn, hvalue, hparams, hnone⟩, hkept⟩ :=
    hmakes rfl hroom'
  rw [hindex, hfn] at hold
  cases hold
  constructor
  · intro e
    cases e with
    | value => exact hvalues
    | block => simp [count, hblocks, adds]
    | func =>
        simp only [count, Array.size_setIfInBounds]
        exact hfunctions
  · rintro e ⟨⟩
    rw [Made.number?, hindex]
    rfl
  · rintro params' ⟨⟩
    have hsize := hroom .block
    simp only [count, Array.size_push, hblocks] at hsize
    have hentry : (Ident.ofNat b.program.blocks.size : BlockId).index = b.program.blocks.size :=
      Ident.index_ofNat_of_lt hsize
    refine ⟨_, (getElem?_replaced (hindex ▸ hfn)).trans (if_pos hindex), hvalue, hparams, ?_⟩
    simp [hnone, hentry, hblocks, adds]
  · exact fun n value hvalue => ⟨value, hkept n value hvalue, .refl rfl n value⟩
  · exact nofun

theorem block_sound {func : FuncId} {name : String} {block : BlockId}
    (h : b.appendBlock func name = .ok (block, b'))
    (hroom : ∀ e, b'.program.count e ≤ UInt32.size) :
    (Step.block func name).Sound (.block block) b.program b'.program := by
  obtain ⟨fn, hfn, rfl, hprogram⟩ := Builder.appendBlock_program h
  rw [hprogram] at hroom ⊢
  constructor
  · intro e
    cases e <;> simp [count, adds, creates]
  · rintro e ⟨⟩
    have hindex : (Ident.ofNat b.program.blocks.size : BlockId).index = b.program.blocks.size :=
      Ident.index_ofNat_of_lt (Program.lt_of_size_push_le (hroom .block))
    rw [Made.number?, hindex]
    rfl
  · rintro params ⟨⟩
  · exact fun n value hvalue => ⟨value, hvalue, .refl rfl n value⟩
  · exact nofun

theorem nameParam_sound {func : FuncId} {position : Nat} {name : String} {v : ValueId}
    (h : b.nameParam func position name = .ok (v, b')) :
    (nameParam func position name).Sound (.value v) b.program b'.program := by
  obtain ⟨v', -, h⟩ := bind_eq_ok_iff.mp h
  obtain ⟨value, hvalue, h⟩ := bind_eq_ok_iff.mp h
  cases h
  refine sound_of_none _ rfl rfl (fun _ => rfl) (fun e => by cases e <;> simp [count]) ?_ nofun
  intro n old hn
  have hnew : (nameParam func position name).Keeps n value { value with name := nameOf name } :=
    .of_ne nofun rfl rfl
  exact exists_replaced (fetch_eq_ok_iff.mp hvalue) (fun a => .refl rfl n a) hnew hn

theorem incoming_sound {phi source : ValueId} {block : BlockId}
    (h : b.addIncoming phi source block = .ok b') :
    (incoming phi source block).Sound .nothing b.program b'.program := by
  obtain ⟨data, hdata, h⟩ := bind_eq_ok_iff.mp h
  split at h
  · next home edges line hkind =>
      cases h
      have hold := fetch_eq_ok_iff.mp hdata
      refine sound_of_none _ rfl rfl (fun _ => rfl) (fun e => by cases e <;> simp [count]) ?_ ?_
      · intro n value hvalue
        rw [getElem?_replaced hold]
        split
        · next hn =>
            rw [← hn, hold] at hvalue
            cases hvalue
            refine ⟨_, rfl, rfl, fun hne => absurd hn (hne phi (source, block) rfl), ?_⟩
            rintro _ _ ⟨⟩ -
            exact ⟨home, edges, line, hkind, rfl⟩
        · next hn =>
            refine ⟨value, hvalue, .of_ne ?_ rfl rfl⟩
            rintro _ _ ⟨⟩
            exact hn
      · rintro _ _ ⟨⟩
        exact (Array.getElem?_eq_some_iff.mp hold).1
  · cases h

theorem push_sound {step : Step} {name : String} {ty : Ty} {op : Op} {v : ValueId}
    (hcreates : step.creates = some .value) (hparams : step.params? = none)
    (hadds : ∀ e, step.adds e = if some Entity.value = some e then 1 else 0)
    (hedge : step.edge? = none) (h : b.push name ty op = .ok (v, b')) (hroom : ∀ e, b'.program.count e ≤ UInt32.size) :
    step.Sound (.value v) b.program b'.program := by
  obtain ⟨home, block, -, rfl, hprogram⟩ := Builder.push_program h
  rw [hprogram] at hroom ⊢
  exact sound_of_value hcreates hparams hadds hedge rfl Array.size_setIfInBounds rfl (hroom .value)

theorem apply_sound {step : Step} {m : Made} (h : step.apply b = .ok (m, b'))
    (hroom : ∀ e, b'.program.count e ≤ UInt32.size) : step.Sound m b.program b'.program := by
  have hmade : ∀ {name : String} {ty : Ty} {op : Op}, step.creates = some .value →
      step.params? = none → (∀ e, step.adds e = if some Entity.value = some e then 1 else 0) →
      step.edge? = none → (do return Step.made (← b.push name ty op) : Except Fault (Made × Builder)) =
        .ok (m, b') → step.Sound m b.program b'.program := by
    intro name ty op hcreates hparams hadds hedge h
    obtain ⟨⟨v, last⟩, hpush, h⟩ := bind_eq_ok_iff.mp h
    cases h
    exact push_sound hcreates hparams hadds hedge hpush hroom
  cases step with
  | declare name params result =>
      cases h
      exact declare_sound b name params result hroom
  | define name params result =>
      obtain ⟨⟨func, last⟩, hdefine, h⟩ := bind_eq_ok_iff.mp h
      cases h
      exact define_sound hdefine hroom
  | nameParam f position name =>
      obtain ⟨⟨v, last⟩, hname, h⟩ := bind_eq_ok_iff.mp h
      cases h
      exact nameParam_sound hname
  | block f name =>
      obtain ⟨⟨home, last⟩, hblock, h⟩ := bind_eq_ok_iff.mp h
      cases h
      exact block_sound hblock hroom
  | incoming target value source =>
      obtain ⟨last, hincoming, h⟩ := bind_eq_ok_iff.mp h
      cases h
      exact incoming_sound hincoming
  | funcValue f =>
      obtain ⟨v, -, h⟩ := bind_eq_ok_iff.mp h
      cases h
      exact sound_of_same _ rfl rfl (fun _ => rfl) rfl
  | param f position =>
      obtain ⟨v, -, h⟩ := bind_eq_ok_iff.mp h
      cases h
      exact sound_of_same _ rfl rfl (fun _ => rfl) rfl
  | positionAtEnd | setLine | clearLine =>
      cases h
      exact sound_of_same _ rfl rfl (fun _ => rfl) rfl
  | global | int | null | undef =>
      cases h
      exact sound_of_value rfl rfl (fun _ => rfl) rfl rfl rfl rfl (hroom .value)
  | alloca | load | store | gep | cast | phi | call | ret | br | condBr | binOp | icmp
  | unreachable => exact hmade rfl rfl (fun _ => rfl) rfl h

end Step

end CallTargets
