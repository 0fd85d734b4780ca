import CallTargets.Program.Builder
import CallTargets.Proofs.Outcome
import Mathlib.Logic.Relation

/-!
# How steps change a program

A step of a construction changes the tables of a program in one of a few ways, or it makes a
function and its entry block in one go.  What every such change keeps holds of every program
that was built.
-/

namespace CallTargets

/-- A value that stands for itself: a global or a constant. -/
def ValueKind.IsConstant : ValueKind → Prop
  | .global | .int _ | .null | .undef => True
  | _ => False

namespace Program

/-- The changes that are made to a program under construction. -/
inductive Edit (p : Program) : Program → Prop where
  | constant {v : Value} (hkind : v.kind.IsConstant) :
      Edit p { p with values := p.values.push v }
  | declare (name : String) (params : List Ty) (ret : Ty) :
      Edit p { p with
        values := p.values.push ⟨nameOf name, .ptr, .function (.ofNat p.functions.size)⟩ ++
          params.mapIdx fun i ty => Value.mk none ty (.argument (.ofNat p.functions.size) i)
        functions := p.functions.push ⟨name, .ofNat p.values.size,
          params.mapIdx fun i _ => .ofNat (p.values.size + 1 + i), ret, []⟩ }
  | block {func : FuncId} {fn : Function} (name : String) (hfn : p.function func = .ok fn) :
      Edit p { p with
        blocks := p.blocks.push ⟨func, nameOf name, #[]⟩
        functions := p.functions.setIfInBounds func.index
          { fn with blocks := fn.blocks ++ [.ofNat p.blocks.size] } }
  | rename {v : ValueId} {value : Value} (name : String) (hvalue : p.value v = .ok value) :
      Edit p { p with
        values := p.values.setIfInBounds v.index { value with name := nameOf name } }
  | inst {block : Block} (name : String) (ty : Ty) (inst : Inst)
      (hblock : p.block inst.block = .ok block) :
      Edit p { p with
        values := p.values.push ⟨nameOf name, ty, .inst inst⟩
        blocks := p.blocks.setIfInBounds inst.block.index
          { block with insts := block.insts.push (.ofNat p.values.size) } }
  | incoming {phi : ValueId} {value : Value} {home : BlockId} {line : Option UInt32}
      {incoming : List (ValueId × BlockId)} (edge : ValueId × BlockId)
      (hvalue : p.value phi = .ok value) (hkind : value.kind = .inst ⟨home, .phi incoming, line⟩) :
      Edit p { p with
        values := p.values.setIfInBounds phi.index
          { value with kind := .inst ⟨home, .phi (incoming ++ [edge]), line⟩ } }

/-- Some changes, one after the other. -/
abbrev Edits : Program → Program → Prop := Relation.ReflTransGen Edit

end Program

namespace Builder

open Program (Edit Edits)

variable {b b' : Builder}

theorem declare_edit (b : Builder) (name : String) (params : List Ty) (ret : Ty) :
    Edit b.program (b.declare name params ret).2.program := by
  have hdeclare := Edit.declare (p := b.program) name params ret
  simpa [declare, addValue, nextValue] using hdeclare

theorem appendBlock_edit {func : FuncId} {name : String} {block : BlockId}
    (h : b.appendBlock func name = .ok (block, b')) : Edit b.program b'.program := by
  obtain ⟨fn, hfn, h⟩ := bind_eq_ok_iff.mp h
  cases h
  exact .block name hfn

theorem define_edits {name : String} {params : List Ty} {ret : Ty} {func : FuncId}
    (h : b.define name params ret = .ok (func, b')) : Edits b.program b'.program := by
  have hdeclare := declare_edit b name params ret
  unfold define at h
  generalize b.declare name params ret = declared at h hdeclare
  obtain ⟨⟨entry, mid⟩, hblock, h⟩ := bind_eq_ok_iff.mp h
  cases h
  have hentry : Edit declared.2.program mid.program := appendBlock_edit hblock
  exact .tail (.single hdeclare) hentry

theorem nameParam_edit {func : FuncId} {position : Nat} {name : String} {v : ValueId}
    (h : b.nameParam func position name = .ok (v, b')) : Edit b.program b'.program := by
  obtain ⟨v', -, h⟩ := bind_eq_ok_iff.mp h
  obtain ⟨value, hvalue, h⟩ := bind_eq_ok_iff.mp h
  cases h
  exact .rename name hvalue

theorem push_edit {name : String} {ty : Ty} {op : Op} {v : ValueId}
    (h : b.push name ty op = .ok (v, b')) : Edit b.program b'.program := by
  unfold push at h
  cases hcursor : b.cursor with
  | none =>
      rw [hcursor] at h
      cases h
  | some home =>
      rw [hcursor] at h
      obtain ⟨block, hblock, h⟩ := bind_eq_ok_iff.mp h
      cases h
      exact .inst name ty ⟨home, op, b.line⟩ hblock

theorem addIncoming_edit {phi value : ValueId} {block : BlockId}
    (h : b.addIncoming phi value block = .ok b') : Edit b.program b'.program := by
  obtain ⟨data, hdata, h⟩ := bind_eq_ok_iff.mp h
  split at h
  · next hkind =>
      cases h
      exact .incoming (value, block) hdata hkind
  · cases h

end Builder

open Program (Edit Edits)

theorem Step.apply_edits {b b' : Builder} {m : Made} {step : Step}
    (h : step.apply b = .ok (m, b')) : Edits b.program b'.program := by
  have hmade : ∀ {name : String} {ty : Ty} {op : Op},
      (do return Step.made (← b.push name ty op) : Except Fault (Made × Builder)) =
        .ok (m, b') → Edits b.program b'.program := by
    intro name ty op h
    obtain ⟨⟨v, mid⟩, hpush, h⟩ := bind_eq_ok_iff.mp h
    cases h
    have hedit : Edit b.program mid.program := Builder.push_edit hpush
    exact .single hedit
  cases step with
  | declare name params result =>
      cases h
      exact .single (Builder.declare_edit b name params result)
  | define name params result =>
      obtain ⟨⟨func, mid⟩, hdefine, h⟩ := bind_eq_ok_iff.mp h
      cases h
      have hedits : Edits b.program mid.program := Builder.define_edits hdefine
      exact hedits
  | nameParam f position name =>
      obtain ⟨⟨v, mid⟩, hname, h⟩ := bind_eq_ok_iff.mp h
      cases h
      have hedit : Edit b.program mid.program := Builder.nameParam_edit hname
      exact .single hedit
  | block f name =>
      obtain ⟨⟨home, mid⟩, hblock, h⟩ := bind_eq_ok_iff.mp h
      cases h
      have hedit : Edit b.program mid.program := Builder.appendBlock_edit hblock
      exact .single hedit
  | incoming target value source =>
      obtain ⟨mid, hincoming, h⟩ := bind_eq_ok_iff.mp h
      cases h
      exact .single (Builder.addIncoming_edit hincoming)
  | funcValue f =>
      obtain ⟨v, -, h⟩ := bind_eq_ok_iff.mp h
      cases h
      exact .refl
  | param f position =>
      obtain ⟨v, -, h⟩ := bind_eq_ok_iff.mp h
      cases h
      exact .refl
  | positionAtEnd | setLine | clearLine =>
      cases h
      exact .refl
  | global | int | null | undef =>
      cases h
      exact .single (.constant trivial)
  | alloca | load | store | gep | cast | phi | call | ret | br | condBr | binOp | icmp
  | unreachable => exact hmade h

theorem edits_of_buildFrom {b : Builder} {done : List Made} {steps : List Step} {built : Built}
    (h : buildFrom b done steps = .ok built) : Edits b.program built.program := by
  induction steps generalizing b done with
  | nil =>
      cases h
      exact .refl
  | cons step rest ih =>
      unfold buildFrom at h
      cases hstep : step.apply b with
      | error fault =>
          rw [hstep] at h
          cases h
      | ok answer =>
          rw [hstep] at h
          exact (Step.apply_edits hstep).trans (ih h)

/-- What holds of the empty program and is kept by every change holds of every program that
was built. -/
theorem build_induction {steps : List Step} {built : Built} (h : build steps = .ok built)
    (P : Program → Prop) (hempty : P .empty) (hedit : ∀ p p', P p → Edit p p' → P p') :
    P built.program := by
  have hedits : Edits .empty built.program := edits_of_buildFrom h
  generalize built.program = p at hedits
  induction hedits with
  | refl => exact hempty
  | tail _ hstep ih => exact hedit _ _ ih hstep

end CallTargets
