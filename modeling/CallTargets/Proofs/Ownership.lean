import CallTargets.Proofs.BuiltProgram
import CallTargets.Proofs.ClosedProgram
import Mathlib.Data.List.Nodup

/-!
# What belongs to a function

A function lists its parameters and its blocks, and a block lists its instructions.  The
values and blocks in these lists say themselves where they belong.  As long as the tables of a
program are short enough for the identifiers, both agree.
-/

namespace CallTargets

namespace Program

variable {p p' : Program}

/-- No identifier of a value or of a block has wrapped around. -/
structure Addressable (p : Program) : Prop where
  values : p.values.size ≤ UInt32.size
  blocks : p.blocks.size ≤ UInt32.size

theorem Addressable.of_edit (h : p'.Addressable) (hedit : Edit p p') : p.Addressable :=
  ⟨Nat.le_trans hedit.sizesLe.values h.values, Nat.le_trans hedit.sizesLe.blocks h.blocks⟩

/-- The values at the positions in the lists of functions and blocks are arguments and
instructions of just these, and the blocks in the lists are blocks of these functions. -/
structure Owned (p : Program) : Prop where
  param : ∀ (i j : Nat) (fn : Function) (v : ValueId), p.functions[i]? = some fn →
    fn.params[j]? = some v →
    ∃ value, p.values[v.index]? = some value ∧ value.kind = .argument (.ofNat i) j
  block : ∀ (i : Nat) (fn : Function), p.functions[i]? = some fn → ∀ b ∈ fn.blocks,
    ∃ block, p.blocks[b.index]? = some block ∧ block.func = .ofNat i
  inst : ∀ (i : Nat) (block : Block), p.blocks[i]? = some block → ∀ v ∈ block.insts,
    ∃ value inst, p.values[v.index]? = some value ∧ value.kind = .inst inst ∧
      inst.block = .ofNat i

/-! ## What a change keeps -/

/-- The second kind is the first, up to incoming edges that a phi has got. -/
inductive KeptKind : ValueKind → ValueKind → Prop where
  | refl (k : ValueKind) : KeptKind k k
  | phi (home : BlockId) (incoming : List (ValueId × BlockId)) (edge : ValueId × BlockId)
      (line : Option UInt32) :
      KeptKind (.inst ⟨home, .phi incoming, line⟩) (.inst ⟨home, .phi (incoming ++ [edge]), line⟩)

theorem getElem?_push_of_some {α : Type} {table : Array α} {n : Nat} {a b : α}
    (h : table[n]? = some a) : (table.push b)[n]? = some a := by
  have hbound := (Array.getElem?_eq_some_iff.mp h).1
  rw [Array.getElem?_push, if_neg (by omega), h]

theorem getElem?_appendList (table : Array Value) (more : List Value) (n : Nat) :
    (table ++ more)[n]? = if n < table.size then table[n]? else more[n - table.size]? := by
  have hlist : table ++ more = table ++ more.toArray := Array.ext' (by simp)
  rw [hlist, Array.getElem?_append]
  simp

theorem Edit.kept_value (h : Edit p p') {n : Nat} {value : Value}
    (hvalue : p.values[n]? = some value) :
    ∃ value', p'.values[n]? = some value' ∧ KeptKind value.kind value'.kind := by
  cases h with
  | constant | inst => exact ⟨value, getElem?_push_of_some hvalue, .refl _⟩
  | declare name params ret =>
      have hpushed := getElem?_push_of_some hvalue
        (b := ⟨nameOf name, .ptr, .function (.ofNat p.functions.size)⟩)
      refine ⟨value, ?_, .refl _⟩
      rw [getElem?_appendList, if_pos (Array.getElem?_eq_some_iff.mp hpushed).1, hpushed]
  | block => exact ⟨value, hvalue, .refl _⟩
  | rename name hold =>
      exact exists_replaced (R := fun a b : Value => KeptKind a.kind b.kind)
        (fetch_eq_ok_iff.mp hold) (fun a => .refl a.kind) (.refl _) hvalue
  | incoming edge hold hkind =>
      refine exists_replaced (R := fun a b : Value => KeptKind a.kind b.kind)
        (fetch_eq_ok_iff.mp hold) (fun a => .refl a.kind) ?_ hvalue
      rw [hkind]
      exact .phi _ _ _ _

theorem Edit.kept_block (h : Edit p p') {n : Nat} {block : Block}
    (hblock : p.blocks[n]? = some block) :
    ∃ block', p'.blocks[n]? = some block' ∧ block'.func = block.func := by
  cases h with
  | constant | declare | rename | incoming => exact ⟨block, hblock, rfl⟩
  | block => exact ⟨block, getElem?_push_of_some hblock, rfl⟩
  | inst name ty inst hold =>
      exact exists_replaced (R := fun a b : Block => b.func = a.func)
        (fetch_eq_ok_iff.mp hold) (fun _ => rfl) rfl hblock

/-! ## Where the entries of the lists come from -/

theorem Edit.param_origin (h : Edit p p') {i j : Nat} {fn' : Function} {v : ValueId}
    (hfn : p'.functions[i]? = some fn') (hv : fn'.params[j]? = some v) :
    (∃ fn, p.functions[i]? = some fn ∧ fn.params[j]? = some v) ∨
      ∃ n value, v = .ofNat n ∧ p'.values[n]? = some value ∧
        value.kind = .argument (.ofNat i) j := by
  cases h with
  | constant | rename | inst | incoming => exact Or.inl ⟨fn', hfn, hv⟩
  | @block func fn name hold =>
      have hparams : ({ fn with blocks := fn.blocks ++ [.ofNat p.blocks.size] } : Function).params =
          fn.params := rfl
      obtain ⟨fn, hfn, hparams⟩ := exists_of_replaced
        (R := fun a b : Function => b.params = a.params) (fetch_eq_ok_iff.mp hold)
        (fun _ => rfl) hparams hfn
      exact Or.inl ⟨fn, hfn, hparams ▸ hv⟩
  | declare name params ret =>
      rw [Array.getElem?_push] at hfn
      split at hfn
      · next hi =>
          cases hfn
          subst hi
          rw [List.getElem?_mapIdx, Option.map_eq_some_iff] at hv
          obtain ⟨ty, hty, rfl⟩ := hv
          refine Or.inr ⟨_, ⟨none, ty, .argument (.ofNat p.functions.size) j⟩, rfl, ?_, rfl⟩
          rw [getElem?_appendList, Array.size_push, if_neg (by omega), List.getElem?_mapIdx,
            Nat.add_sub_cancel_left, hty]
          rfl
      · exact Or.inl ⟨fn', hfn, hv⟩

theorem Edit.block_origin (h : Edit p p') {i : Nat} {fn' : Function} {b : BlockId}
    (hfn : p'.functions[i]? = some fn') (hb : b ∈ fn'.blocks) :
    (∃ fn, p.functions[i]? = some fn ∧ b ∈ fn.blocks) ∨
      ∃ n block, b = .ofNat n ∧ p'.blocks[n]? = some block ∧ block.func = .ofNat i := by
  cases h with
  | constant | rename | inst | incoming => exact Or.inl ⟨fn', hfn, hb⟩
  | declare name params ret =>
      rw [Array.getElem?_push] at hfn
      split at hfn
      · cases hfn
        cases hb
      · exact Or.inl ⟨fn', hfn, hb⟩
  | @block func fn name hold =>
      rw [getElem?_replaced (fetch_eq_ok_iff.mp hold)] at hfn
      split at hfn
      · next hi =>
          cases hfn
          subst hi
          rcases List.mem_append.mp hb with hb | hb
          · exact Or.inl ⟨fn, fetch_eq_ok_iff.mp hold, hb⟩
          · refine Or.inr ⟨_, ⟨func, nameOf name, #[]⟩, List.mem_singleton.mp hb, ?_,
              func.ofNat_index.symm⟩
            rw [Array.getElem?_push, if_pos rfl]
      · exact Or.inl ⟨fn', hfn, hb⟩

theorem Edit.inst_origin (h : Edit p p') {i : Nat} {block' : Block} {v : ValueId}
    (hblock : p'.blocks[i]? = some block') (hv : v ∈ block'.insts) :
    (∃ block, p.blocks[i]? = some block ∧ v ∈ block.insts) ∨
      ∃ n value inst, v = .ofNat n ∧ p'.values[n]? = some value ∧ value.kind = .inst inst ∧
        inst.block = .ofNat i := by
  cases h with
  | constant | declare | rename | incoming => exact Or.inl ⟨block', hblock, hv⟩
  | block name hold =>
      rw [Array.getElem?_push] at hblock
      split at hblock
      · cases hblock
        simp at hv
      · exact Or.inl ⟨block', hblock, hv⟩
  | @inst block name ty inst hold =>
      rw [getElem?_replaced (fetch_eq_ok_iff.mp hold)] at hblock
      split at hblock
      · next hi =>
          cases hblock
          subst hi
          rcases Array.mem_push.mp hv with hv | rfl
          · exact Or.inl ⟨block, fetch_eq_ok_iff.mp hold, hv⟩
          · refine Or.inr ⟨_, ⟨nameOf name, ty, .inst inst⟩, inst, rfl, ?_, rfl,
              inst.block.ofNat_index.symm⟩
            rw [Array.getElem?_push, if_pos rfl]
      · exact Or.inl ⟨block', hblock, hv⟩

/-! ## Built programs -/

theorem Owned.edit (h : p.Owned) (hedit : Edit p p') (haddr : p'.Addressable) : p'.Owned := by
  constructor
  · intro i j fn v hfn hv
    rcases hedit.param_origin hfn hv with ⟨fn, hfn, hv⟩ | ⟨n, value, rfl, hvalue, hkind⟩
    · obtain ⟨value, hvalue, hkind⟩ := h.param i j fn v hfn hv
      obtain ⟨value', hvalue', hkept⟩ := hedit.kept_value hvalue
      rw [hkind] at hkept
      generalize hkind' : value'.kind = kind' at hkept
      cases hkept
      exact ⟨value', hvalue', hkind'⟩
    · have hbound := (Array.getElem?_eq_some_iff.mp hvalue).1
      refine ⟨value, ?_, hkind⟩
      rwa [Ident.index_ofNat_of_lt (Nat.lt_of_lt_of_le hbound haddr.values)]
  · intro i fn hfn b hb
    rcases hedit.block_origin hfn hb with ⟨fn, hfn, hb⟩ | ⟨n, block, rfl, hblock, hfunc⟩
    · obtain ⟨block, hblock, hfunc⟩ := h.block i fn hfn b hb
      obtain ⟨block', hblock', hsame⟩ := hedit.kept_block hblock
      exact ⟨block', hblock', hsame.trans hfunc⟩
    · have hbound := (Array.getElem?_eq_some_iff.mp hblock).1
      refine ⟨block, ?_, hfunc⟩
      rwa [Ident.index_ofNat_of_lt (Nat.lt_of_lt_of_le hbound haddr.blocks)]
  · intro i block hblock v hv
    rcases hedit.inst_origin hblock hv with
      ⟨block, hblock, hv⟩ | ⟨n, value, inst, rfl, hvalue, hkind, hhome⟩
    · obtain ⟨value, inst, hvalue, hkind, hhome⟩ := h.inst i block hblock v hv
      obtain ⟨value', hvalue', hkept⟩ := hedit.kept_value hvalue
      rw [hkind] at hkept
      generalize hkind' : value'.kind = kind' at hkept
      cases hkept with
      | refl => exact ⟨value', inst, hvalue', hkind', hhome⟩
      | phi home incoming edge line => exact ⟨value', _, hvalue', hkind', hhome⟩
    · have hbound := (Array.getElem?_eq_some_iff.mp hvalue).1
      refine ⟨value, inst, ?_, hkind, hhome⟩
      rwa [Ident.index_ofNat_of_lt (Nat.lt_of_lt_of_le hbound haddr.values)]

theorem owned_of_build {steps : List Step} {built : Built} (h : build steps = .ok built)
    (haddr : built.program.Addressable) : built.program.Owned := by
  refine build_induction h (fun p => p.Addressable → p.Owned) ?_ ?_ haddr
  · intro _
    constructor <;> simp [empty]
  · intro p p' hp hedit haddr'
    exact (hp (haddr'.of_edit hedit)).edit hedit haddr'

namespace Owned

variable {f : FuncId} {fn : Function}

theorem kind_of_param (h : p.Owned) (hfn : p.function f = .ok fn) {j : Nat} {v : ValueId}
    (hv : fn.params[j]? = some v) :
    ∃ value, p.value v = .ok value ∧ value.kind = .argument f j := by
  obtain ⟨value, hvalue, hkind⟩ := h.param f.index j fn v (fetch_eq_ok_iff.mp hfn) hv
  rw [f.ofNat_index] at hkind
  exact ⟨value, fetch_eq_ok_iff.mpr hvalue, hkind⟩

theorem params_nodup (h : p.Owned) (hfn : p.function f = .ok fn) : fn.params.Nodup := by
  rw [List.nodup_iff_getElem?_ne_getElem?]
  intro i j hij hj heq
  obtain ⟨v, hv⟩ : ∃ v, fn.params[j]? = some v := ⟨_, List.getElem?_eq_getElem hj⟩
  obtain ⟨value, hvalue, hkind⟩ := h.kind_of_param hfn hv
  obtain ⟨value', hvalue', hkind'⟩ := h.kind_of_param hfn (heq.trans hv)
  rw [hvalue] at hvalue'
  cases hvalue'
  rw [hkind] at hkind'
  cases hkind'
  exact Nat.lt_irrefl i hij

/-- The instructions in the blocks of a function belong to the function. -/
theorem owner?_of_mem_bodyOf (h : p.Owned) {v : ValueId} (hv : v ∈ p.bodyOf f) :
    p.owner? v = .ok (some f) := by
  obtain ⟨fn, hfn, b, hb, block, hblock, hmem⟩ := mem_bodyOf.mp hv
  obtain ⟨block', hblock', hfunc⟩ := h.block f.index fn (fetch_eq_ok_iff.mp hfn) b hb
  rw [fetch_eq_ok_iff.mp hblock] at hblock'
  cases hblock'
  rw [f.ofNat_index] at hfunc
  obtain ⟨value, inst, hvalue, hkind, hhome⟩ :=
    h.inst b.index block (fetch_eq_ok_iff.mp hblock) v hmem
  rw [b.ofNat_index] at hhome
  have hread : p.value v = .ok value := fetch_eq_ok_iff.mpr hvalue
  have howner : p.owner? v = .ok (some block.func) := by
    simp [owner?, hread, hkind, hhome, hblock, bind, Except.bind, pure, Except.pure]
  rw [howner, hfunc]

end Owned

end Program

end CallTargets
