import CallTargets.Analysis.Call
import CallTargets.Proofs.GraphFacts
import CallTargets.Proofs.ProgramEdits

/-!
# Programs that can be read throughout

Whatever the tables of a built program refer to exists: the value, parameters and blocks of a
function, the function and instructions of a block, the block of an instruction.  In a closed
program the operands and targets of its instructions exist, too.  Questions about such a
program have answers, and so every function has a flow graph unless it is only declared.
-/

namespace CallTargets

namespace Op

/-- The values that an instruction uses. -/
def values : Op → List ValueId
  | load ptr => [ptr]
  | store value ptr => [value, ptr]
  | gep base _ indices => base :: indices
  | cast _ value => [value]
  | phi incoming => incoming.map Prod.fst
  | call callee args => callee :: args
  | ret value => value.toList
  | condBr cond _ _ => [cond]
  | binOp lhs rhs => [lhs, rhs]
  | icmp lhs rhs => [lhs, rhs]
  | alloca _ | br _ | unreachable => []

/-- The blocks that an instruction uses. -/
def blocks : Op → List BlockId
  | phi incoming => incoming.map Prod.snd
  | br dest => [dest]
  | condBr _ thenDest elseDest => [thenDest, elseDest]
  | _ => []

/-- The element type of an address computation. -/
def elem? : Op → Option Ty
  | gep _ elem _ => some elem
  | _ => none

theorem mem_blocks_of_mem_targets {op : Op} {b : BlockId} (h : b ∈ op.targets) :
    b ∈ op.blocks := by
  cases op with
  | br dest => exact h
  | condBr cond thenDest elseDest =>
      by_cases hsame : thenDest = elseDest <;> simp_all [targets, blocks]
  | _ => simp [targets] at h

end Op

namespace Program

variable {p p' : Program}

def HasValue (p : Program) (v : ValueId) : Prop := v.index < p.values.size

def HasBlock (p : Program) (b : BlockId) : Prop := b.index < p.blocks.size

def HasFunction (p : Program) (f : FuncId) : Prop := f.index < p.functions.size

instance (v : ValueId) : Decidable (p.HasValue v) := inferInstanceAs (Decidable (_ < _))

instance (b : BlockId) : Decidable (p.HasBlock b) := inferInstanceAs (Decidable (_ < _))

instance (f : FuncId) : Decidable (p.HasFunction f) := inferInstanceAs (Decidable (_ < _))

theorem fetch_gives {α : Type} {table : Array α} {i : Nat} (h : i < table.size) :
    Gives (fun entry => entry ∈ table) (fetch table i) :=
  ⟨table[i], fetch_eq_ok_iff.mpr (Array.getElem?_eq_getElem h), Array.getElem_mem h⟩

theorem HasValue.value {v : ValueId} (h : p.HasValue v) :
    Gives (fun value => value ∈ p.values) (p.value v) := fetch_gives h

theorem HasBlock.block {b : BlockId} (h : p.HasBlock b) :
    Gives (fun block => block ∈ p.blocks) (p.block b) := fetch_gives h

theorem HasFunction.function {f : FuncId} (h : p.HasFunction f) :
    Gives (fun fn => fn ∈ p.functions) (p.function f) := fetch_gives h

theorem lt_of_fetch {α : Type} {table : Array α} {i : Nat} {entry : α}
    (h : fetch table i = .ok entry) : i < table.size :=
  (Array.getElem?_eq_some_iff.mp (fetch_eq_ok_iff.mp h)).1

theorem mem_of_fetch {α : Type} {table : Array α} {i : Nat} {entry : α}
    (h : fetch table i = .ok entry) : entry ∈ table :=
  Array.mem_of_getElem? (fetch_eq_ok_iff.mp h)

/-! ## Links between the tables -/

/-- Everything that a value refers to besides its operands exists. -/
def LinksKind (p : Program) : ValueKind → Prop
  | .function f => p.HasFunction f
  | .argument f _ => p.HasFunction f
  | .inst inst => p.HasBlock inst.block
  | _ => True

structure LinksBlock (p : Program) (block : Block) : Prop where
  func : p.HasFunction block.func
  insts : ∀ v ∈ block.insts, p.HasValue v

structure LinksFunction (p : Program) (fn : Function) : Prop where
  value : p.HasValue fn.value
  params : ∀ v ∈ fn.params, p.HasValue v
  blocks : ∀ b ∈ fn.blocks, p.HasBlock b

/-- The tables of a program refer only to entries that exist. -/
structure Linked (p : Program) : Prop where
  values : ∀ v ∈ p.values, p.LinksKind v.kind
  blocks : ∀ b ∈ p.blocks, p.LinksBlock b
  functions : ∀ f ∈ p.functions, p.LinksFunction f

/-- No table of the second program is shorter than that of the first. -/
structure SizesLe (p p' : Program) : Prop where
  values : p.values.size ≤ p'.values.size
  blocks : p.blocks.size ≤ p'.blocks.size
  functions : p.functions.size ≤ p'.functions.size

namespace SizesLe

theorem hasValue (h : SizesLe p p') {v : ValueId} (hv : p.HasValue v) : p'.HasValue v :=
  Nat.lt_of_lt_of_le hv h.values

theorem hasBlock (h : SizesLe p p') {b : BlockId} (hb : p.HasBlock b) : p'.HasBlock b :=
  Nat.lt_of_lt_of_le hb h.blocks

theorem hasFunction (h : SizesLe p p') {f : FuncId} (hf : p.HasFunction f) : p'.HasFunction f :=
  Nat.lt_of_lt_of_le hf h.functions

theorem linksKind (h : SizesLe p p') {k : ValueKind} (hk : p.LinksKind k) : p'.LinksKind k := by
  cases k with
  | function f => exact h.hasFunction hk
  | argument f position => exact h.hasFunction hk
  | inst inst => exact h.hasBlock hk
  | global | int | null | undef => trivial

theorem linksBlock (h : SizesLe p p') {block : Block} (hb : p.LinksBlock block) :
    p'.LinksBlock block :=
  ⟨h.hasFunction hb.func, fun v hv => h.hasValue (hb.insts v hv)⟩

theorem linksFunction (h : SizesLe p p') {fn : Function} (hf : p.LinksFunction fn) :
    p'.LinksFunction fn :=
  ⟨h.hasValue hf.value, fun v hv => h.hasValue (hf.params v hv),
    fun b hb => h.hasBlock (hf.blocks b hb)⟩

end SizesLe

/-- Only entries that are new or changed have to be looked at after a change. -/
theorem Linked.of_changes (h : p.Linked) (hsizes : SizesLe p p')
    (hvalues : ∀ v ∈ p'.values, v ∈ p.values ∨ p'.LinksKind v.kind)
    (hblocks : ∀ b ∈ p'.blocks, b ∈ p.blocks ∨ p'.LinksBlock b)
    (hfunctions : ∀ f ∈ p'.functions, f ∈ p.functions ∨ p'.LinksFunction f) : p'.Linked where
  values v hv := (hvalues v hv).elim (fun hold => hsizes.linksKind (h.values v hold)) id
  blocks b hb := (hblocks b hb).elim (fun hold => hsizes.linksBlock (h.blocks b hold)) id
  functions f hf :=
    (hfunctions f hf).elim (fun hold => hsizes.linksFunction (h.functions f hold)) id

theorem size_declared (table : Array Value) (v : Value) (more : List Value) :
    (table.push v ++ more).size = table.size + 1 + more.length := by
  rw [← Array.length_toList, Array.toList_appendList, List.length_append, Array.length_toList,
    Array.size_push]

theorem Edit.sizesLe (h : Edit p p') : SizesLe p p' := by
  cases h with
  | constant hkind => exact ⟨by simp, Nat.le_refl _, Nat.le_refl _⟩
  | declare name params ret =>
      refine ⟨?_, Nat.le_refl _, by simp⟩
      rw [size_declared]
      omega
  | block name hfn => exact ⟨Nat.le_refl _, by simp, by simp⟩
  | rename name hvalue => exact ⟨by simp, Nat.le_refl _, Nat.le_refl _⟩
  | inst name ty inst hblock => exact ⟨by simp, by simp, Nat.le_refl _⟩
  | incoming edge hvalue hkind => exact ⟨by simp, Nat.le_refl _, Nat.le_refl _⟩

/-- An identifier that is given out names a new entry or, when it has wrapped around, an old
one. -/
theorem index_ofNat_lt {e : Entity} {n size : Nat} (h : n < size) :
    (Ident.ofNat n : Ident e).index < size :=
  Nat.lt_of_le_of_lt (Nat.mod_le n _) h

theorem linksKind_of_isConstant {k : ValueKind} (h : k.IsConstant) : p.LinksKind k := by
  cases k with
  | function | argument | inst => exact h.elim
  | global | int | null | undef => trivial

theorem Linked.edit (h : p.Linked) (hedit : Edit p p') : p'.Linked := by
  have hsizes := hedit.sizesLe
  apply h.of_changes hsizes
  · intro v hv
    cases hedit with
    | constant hkind =>
        rcases Array.mem_push.mp hv with hv | rfl
        · exact Or.inl hv
        · exact Or.inr (linksKind_of_isConstant hkind)
    | declare name params ret =>
        have hnew : (Ident.ofNat p.functions.size : FuncId).index < p.functions.size + 1 :=
          index_ofNat_lt (Nat.lt_succ_self _)
        simp only [← Array.mem_toList_iff, Array.toList_appendList, Array.toList_push,
          List.mem_append, List.mem_singleton, List.mem_mapIdx] at hv
        rcases hv with (hv | rfl) | ⟨i, hi, rfl⟩
        · exact Or.inl (Array.mem_toList_iff.mp hv)
        · right
          simpa [LinksKind, HasFunction] using hnew
        · right
          simpa [LinksKind, HasFunction] using hnew
    | block name hfn => exact Or.inl hv
    | rename name hvalue =>
        rcases Array.mem_or_eq_of_mem_setIfInBounds hv with hv | rfl
        · exact Or.inl hv
        · have hlinks := h.values _ (mem_of_fetch hvalue)
          exact Or.inr (hsizes.linksKind hlinks)
    | inst name ty inst hblock =>
        rcases Array.mem_push.mp hv with hv | rfl
        · exact Or.inl hv
        · exact Or.inr (hsizes.hasBlock (lt_of_fetch hblock))
    | incoming edge hvalue hkind =>
        rcases Array.mem_or_eq_of_mem_setIfInBounds hv with hv | rfl
        · exact Or.inl hv
        · have hlinks := h.values _ (mem_of_fetch hvalue)
          rw [hkind] at hlinks
          exact Or.inr (hsizes.hasBlock hlinks)
  · intro b hb
    cases hedit with
    | constant | declare | rename | incoming => exact Or.inl hb
    | block name hfn =>
        rcases Array.mem_push.mp hb with hb | rfl
        · exact Or.inl hb
        · exact Or.inr ⟨hsizes.hasFunction (lt_of_fetch hfn), by simp⟩
    | inst name ty inst hblock =>
        rcases Array.mem_or_eq_of_mem_setIfInBounds hb with hb | rfl
        · exact Or.inl hb
        · right
          have hlinks := hsizes.linksBlock (h.blocks _ (mem_of_fetch hblock))
          refine ⟨hlinks.func, fun v hv => ?_⟩
          rcases Array.mem_push.mp hv with hv | rfl
          · exact hlinks.insts v hv
          · exact index_ofNat_lt (by simp)
  · intro f hf
    cases hedit with
    | constant | rename | inst | incoming => exact Or.inl hf
    | declare name params ret =>
        rcases Array.mem_push.mp hf with hf | rfl
        · exact Or.inl hf
        · refine Or.inr ⟨?_, fun v hv => ?_, by simp⟩
          · apply index_ofNat_lt
            rw [size_declared]
            omega
          · obtain ⟨i, hi, rfl⟩ := List.mem_mapIdx.mp hv
            apply index_ofNat_lt
            rw [size_declared, List.length_mapIdx]
            omega
    | block name hfn =>
        rcases Array.mem_or_eq_of_mem_setIfInBounds hf with hf | rfl
        · exact Or.inl hf
        · right
          have hlinks := hsizes.linksFunction (h.functions _ (mem_of_fetch hfn))
          refine ⟨hlinks.value, hlinks.params, fun b hb => ?_⟩
          rcases List.mem_append.mp hb with hb | hb
          · exact hlinks.blocks b hb
          · rw [List.mem_singleton.mp hb]
            exact index_ofNat_lt (by simp)

theorem Linked.empty : Program.empty.Linked :=
  ⟨by simp [Program.empty], by simp [Program.empty], by simp [Program.empty]⟩

theorem linked_of_build {steps : List Step} {built : Built} (h : build steps = .ok built) :
    built.program.Linked :=
  build_induction h Linked .empty (fun _ _ hp hedit => hp.edit hedit)

/-! ## Questions that have answers -/

namespace HasValue

variable {v : ValueId} (h : p.HasValue v)

include h

theorem isPtr : Gives (fun _ => True) (p.isPtr v) :=
  Gives.bind h.value (fun _ _ _ => Gives.pure trivial)

theorem asInt? : Gives (fun _ => True) (p.asInt? v) := by
  refine Gives.bind h.value (fun value _ _ => ?_)
  split <;> exact Gives.pure trivial

theorem isObject : Gives (fun _ => True) (p.isObject v) := by
  refine Gives.bind h.value (fun value _ _ => ?_)
  split <;> exact Gives.pure trivial

theorem displayName : Gives (fun _ => True) (p.displayName v) := by
  refine Gives.bind h.value (fun value _ _ => ?_)
  split <;> exact Gives.pure trivial

theorem inst? : Gives (fun _ => True) (p.inst? v) := by
  refine Gives.bind h.value (fun value _ _ => ?_)
  split <;> exact Gives.pure trivial

theorem line? : Gives (fun _ => True) (p.line? v) :=
  Gives.bind h.inst? (fun _ _ _ => Gives.pure trivial)

end HasValue

theorem HasFunction.isIntrinsic (c : Config) {f : FuncId} (h : p.HasFunction f) :
    Gives (fun _ => True) (p.isIntrinsic c f) :=
  Gives.bind h.function (fun _ _ _ => Gives.pure trivial)

namespace Linked

variable (h : p.Linked)

include h

theorem value {v : ValueId} (hv : p.HasValue v) :
    Gives (fun value => p.LinksKind value.kind) (p.value v) := hv.value.imp h.values

theorem block {b : BlockId} (hb : p.HasBlock b) : Gives p.LinksBlock (p.block b) :=
  hb.block.imp h.blocks

theorem function {f : FuncId} (hf : p.HasFunction f) : Gives p.LinksFunction (p.function f) :=
  hf.function.imp h.functions

theorem asFunction? {v : ValueId} (hv : p.HasValue v) :
    Gives (fun f? => ∀ f ∈ f?, p.HasFunction f) (p.asFunction? v) := by
  refine Gives.bind (h.value hv) (fun value _ hkind => ?_)
  split
  · next f hfunction =>
      rw [hfunction] at hkind
      exact Gives.pure (by simpa [LinksKind] using hkind)
  · exact Gives.pure (by simp)

theorem owner? {v : ValueId} (hv : p.HasValue v) :
    Gives (fun f? => ∀ f ∈ f?, p.HasFunction f) (p.owner? v) := by
  refine Gives.bind (h.value hv) (fun value _ hkind => ?_)
  split
  · next f position hargument =>
      rw [hargument] at hkind
      exact Gives.pure (by simpa [LinksKind] using hkind)
  · next inst hinst =>
      rw [hinst] at hkind
      refine Gives.bind (h.block hkind) (fun block _ hblock => Gives.pure ?_)
      simpa using hblock.func
  · exact Gives.pure (by simp)

/-- An instruction exists and belongs to a function. -/
theorem exists_owner {v : ValueId} {inst : Inst} (hinst : p.inst? v = .ok (some inst)) :
    p.HasValue v ∧ ∃ f fn, p.owner? v = .ok (some f) ∧ p.function f = .ok fn := by
  obtain ⟨value, hvalue, hinst⟩ := bind_eq_ok_iff.mp hinst
  split at hinst
  · next kind hkind =>
      cases hinst
      have hlinks := h.values value (mem_of_fetch hvalue)
      rw [hkind] at hlinks
      obtain ⟨block, hblock, hfunc⟩ := h.block hlinks
      obtain ⟨fn, hfn, -⟩ := h.function hfunc.func
      refine ⟨lt_of_fetch hvalue, block.func, fn, ?_, hfn⟩
      simp [Program.owner?, hvalue, hkind, hblock, bind, Except.bind, pure, Except.pure]
  · cases hinst

end Linked

/-- Every value and every block that an instruction uses exists. -/
structure Closed (p : Program) : Prop where
  values : ∀ v inst, p.inst? v = .ok (some inst) → ∀ u ∈ inst.op.values, p.HasValue u
  blocks : ∀ v inst, p.inst? v = .ok (some inst) → ∀ b ∈ inst.op.blocks, p.HasBlock b

/-- The operations of all instructions. -/
def ops (p : Program) : List Op :=
  p.values.toList.filterMap fun value =>
    match value.kind with
    | .inst inst => some inst.op
    | _ => none

theorem mem_ops {v : ValueId} {inst : Inst} (h : p.inst? v = .ok (some inst)) :
    inst.op ∈ p.ops := by
  obtain ⟨value, hvalue, hinst⟩ := bind_eq_ok_iff.mp h
  split at hinst
  · next kind hkind =>
      cases hinst
      have hmem := Array.mem_toList_iff.mpr (mem_of_fetch hvalue)
      exact List.mem_filterMap.mpr ⟨value, hmem, by rw [hkind]⟩
  · cases hinst

theorem Closed.of_ops
    (h : ∀ op ∈ p.ops, (∀ u ∈ op.values, p.HasValue u) ∧ ∀ b ∈ op.blocks, p.HasBlock b) :
    p.Closed :=
  ⟨fun _ inst hinst => (h inst.op (mem_ops hinst)).1,
    fun _ inst hinst => (h inst.op (mem_ops hinst)).2⟩

/-! ## Flow graphs -/

theorem Linked.successors_gives (h : p.Linked) {P : BlockId → Prop}
    (htargets : ∀ v inst, p.inst? v = .ok (some inst) → ∀ b ∈ inst.op.targets, P b) {b : BlockId}
    (hb : p.HasBlock b) : Gives (fun succs => ∀ succ ∈ succs, P succ) (p.successors b) := by
  have hterminator : Gives (fun op? => ∀ op ∈ op?, ∀ succ ∈ op.targets, P succ)
      (p.terminator? b) := by
    refine Gives.bind (h.block hb) (fun block _ hblock => ?_)
    split
    · exact Gives.pure (by simp)
    · next last hlast =>
        have hvalue := hblock.insts last (Array.mem_of_back? hlast)
        refine Gives.bind hvalue.inst? (fun inst? hinst _ => Gives.pure ?_)
        intro op hop
        cases inst? with
        | none => cases hop
        | some inst =>
            cases hop
            exact htargets last inst hinst
  refine Gives.bind hterminator (fun op? _ hop => Gives.pure ?_)
  cases op? with
  | none => simp
  | some op => simpa using hop op rfl

section Search

variable (hread : ∀ b, p.HasBlock b →
  Gives (fun succs => ∀ succ ∈ succs, p.HasBlock succ) (p.successors b))

include hread

theorem visit_gives (depth : Nat) (search : Search) {b : BlockId} (hb : p.HasBlock b) :
    Gives (fun _ => True) (Search.visit p depth search b) := by
  induction depth generalizing search b with
  | zero => exact Gives.pure trivial
  | succ depth ih =>
      refine Gives.bind (hread b hb) (fun succs _ hsuccs => ?_)
      refine Gives.bind (P := fun _ => True) (Gives.foldlM (fun found _ succ hsucc => ?_) trivial)
        (fun _ _ _ => Gives.pure trivial)
      split
      · exact Gives.pure trivial
      · exact ih found (hsuccs succ hsucc)

theorem visitingOrder_gives {fn : Function} (hlinks : p.LinksFunction fn) :
    Gives (fun _ => True) (p.visitingOrder fn) := by
  unfold visitingOrder
  split
  · exact Gives.pure trivial
  · next entry hentry =>
      have hblock := hlinks.blocks entry (List.mem_of_head? hentry)
      exact Gives.bind (visit_gives hread _ _ hblock) (fun _ _ _ => Gives.pure trivial)

end Search

section Flow

variable (h : p.Linked) (hclosed : p.Closed)

include h hclosed

theorem successors_closed (b : BlockId) (hb : p.HasBlock b) :
    Gives (fun succs => ∀ succ ∈ succs, p.HasBlock succ) (p.successors b) :=
  h.successors_gives (fun v inst hinst succ hsucc =>
    hclosed.blocks v inst hinst succ (Op.mem_blocks_of_mem_targets hsucc)) hb

theorem predecessors_gives {f : FuncId} (hf : p.HasFunction f) :
    Gives (fun _ => True) (p.predecessors f) := by
  refine Gives.bind (h.function hf) (fun fn _ hlinks => ?_)
  refine Gives.foldlM (fun preds _ b hb => ?_) trivial
  have hsuccs := successors_closed h hclosed b (hlinks.blocks b hb)
  exact Gives.bind hsuccs (fun _ _ _ => Gives.pure trivial)

theorem ofFunction_gives {f : FuncId} (hf : p.HasFunction f) :
    Gives (fun _ => True) (FlowGraph.ofFunction p f) := by
  refine Gives.bind (h.function hf) (fun fn _ hlinks => ?_)
  split
  · exact Gives.pure trivial
  · have horder := visitingOrder_gives (successors_closed h hclosed) hlinks
    refine Gives.bind horder (fun order _ _ => ?_)
    exact Gives.bind (predecessors_gives h hclosed hf) (fun _ _ _ => Gives.pure trivial)

end Flow

end Program

end CallTargets
