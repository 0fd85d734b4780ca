import CallTargets.Proofs.Ownership

/-!
# Everything is listed once

Each block of a program under construction stands once in the list of its function, each
instruction once in the list of its block, and each function has a value that stands for it.
A new entry gets an identifier that no list holds yet, because everything that is listed exists
already; this is where the identifiers must not have wrapped around.
-/

namespace CallTargets

namespace Program

variable {p p' : Program}

/-- The value of a function is the function itself, and the lists of blocks and instructions have
each block and each instruction once. -/
structure Listed (p : Program) : Prop where
  value : ∀ (i : Nat) (fn : Function), p.functions[i]? = some fn →
    ∃ value, p.values[fn.value.index]? = some value ∧ value.kind = .function (.ofNat i)
  block : ∀ (n : Nat) (block : Block), p.blocks[n]? = some block →
    ∃ fn, p.functions[block.func.index]? = some fn ∧ fn.blocks.count (.ofNat n) = 1
  inst : ∀ (n : Nat) (value : Value) (inst : Inst), p.values[n]? = some value →
    value.kind = .inst inst →
    ∃ block, p.blocks[inst.block.index]? = some block ∧ block.insts.count (.ofNat n) = 1

/-! ## New identifiers -/

theorem lt_of_size_push_le {α : Type} {table : Array α} {a : α} {n : Nat}
    (h : (table.push a).size ≤ n) : table.size < n := by
  rwa [Array.size_push] at h

theorem ofNat_ne_ofNat {e : Entity} {m n : Nat} (hm : m < n) (hn : n < UInt32.size) :
    (Ident.ofNat m : Ident e) ≠ .ofNat n := by
  intro heq
  have hindex := congrArg Ident.index heq
  rw [Ident.index_ofNat_of_lt (by omega), Ident.index_ofNat_of_lt hn] at hindex
  omega

theorem fresh_block {fn : Function} (hblocks : ∀ b ∈ fn.blocks, p.HasBlock b)
    (hroom : p.blocks.size < UInt32.size) : .ofNat p.blocks.size ∉ fn.blocks := by
  intro hmem
  have hbound := hblocks _ hmem
  rw [HasBlock, Ident.index_ofNat_of_lt hroom] at hbound
  exact Nat.lt_irrefl _ hbound

theorem Owned.fresh_block (h : p.Owned) (hroom : p.blocks.size < UInt32.size) {i : Nat}
    {fn : Function} (hfn : p.functions[i]? = some fn) : .ofNat p.blocks.size ∉ fn.blocks := by
  refine Program.fresh_block (fun b hb => ?_) hroom
  obtain ⟨block, hblock, -⟩ := h.block i fn hfn b hb
  exact (Array.getElem?_eq_some_iff.mp hblock).1

theorem Owned.fresh_inst (h : p.Owned) (hroom : p.values.size < UInt32.size) {i : Nat}
    {block : Block} (hblock : p.blocks[i]? = some block) :
    .ofNat p.values.size ∉ block.insts := by
  intro hmem
  obtain ⟨value, inst, hvalue, -, -⟩ := h.inst i block hblock _ hmem
  have hbound := (Array.getElem?_eq_some_iff.mp hvalue).1
  rw [Ident.index_ofNat_of_lt hroom] at hbound
  exact Nat.lt_irrefl _ hbound

/-! ## What a change does to the lists -/

theorem Edit.value_origin (h : Edit p p') {i : Nat} {fn' : Function}
    (hfn : p'.functions[i]? = some fn') :
    (∃ fn, p.functions[i]? = some fn ∧ fn.value = fn'.value) ∨
      ∃ n value, fn'.value = .ofNat n ∧ p'.values[n]? = some value ∧
        value.kind = .function (.ofNat i) := by
  cases h with
  | constant | rename | inst | incoming => exact Or.inl ⟨fn', hfn, rfl⟩
  | @block func fn name hold =>
      have hvalue : ({ fn with blocks := fn.blocks ++ [.ofNat p.blocks.size] } : Function).value =
          fn.value := rfl
      obtain ⟨fn, hfn, hsame⟩ := exists_of_replaced
        (R := fun a b : Function => b.value = a.value) (fetch_eq_ok_iff.mp hold)
        (fun _ => rfl) hvalue hfn
      exact Or.inl ⟨fn, hfn, hsame.symm⟩
  | declare name params ret =>
      rw [Array.getElem?_push] at hfn
      split at hfn
      · next hi =>
          cases hfn
          subst hi
          refine Or.inr ⟨_, ⟨nameOf name, .ptr, .function (.ofNat p.functions.size)⟩, rfl, ?_, rfl⟩
          rw [getElem?_appendList, Array.size_push, if_pos (Nat.lt_succ_self _),
            Array.getElem?_push, if_pos rfl]
      · exact Or.inl ⟨fn', hfn, rfl⟩

/-- A function keeps its blocks, and gets at most a new one. -/
theorem Edit.kept_blocks (h : Edit p p') (haddr : p'.Addressable) {i n : Nat} {fn : Function}
    (hfn : p.functions[i]? = some fn) (hn : n < p.blocks.size) :
    ∃ fn', p'.functions[i]? = some fn' ∧
      fn'.blocks.count (.ofNat n) = fn.blocks.count (.ofNat n) := by
  cases h with
  | constant | rename | inst | incoming => exact ⟨fn, hfn, rfl⟩
  | declare => exact ⟨fn, getElem?_push_of_some hfn, rfl⟩
  | @block func old name hold =>
      have hroom := lt_of_size_push_le haddr.blocks
      refine exists_replaced (R := fun a b : Function =>
        b.blocks.count (.ofNat n) = a.blocks.count (.ofNat n)) (fetch_eq_ok_iff.mp hold)
        (fun _ => rfl) ?_ hfn
      have hne := (ofNat_ne_ofNat (e := .block) hn hroom).symm
      simp [List.count_append, hne]

/-- A block keeps its instructions, and gets at most a new one. -/
theorem Edit.kept_insts (h : Edit p p') (haddr : p'.Addressable) {i n : Nat} {block : Block}
    (hblock : p.blocks[i]? = some block) (hn : n < p.values.size) :
    ∃ block', p'.blocks[i]? = some block' ∧
      block'.insts.count (.ofNat n) = block.insts.count (.ofNat n) := by
  cases h with
  | constant | declare | rename | incoming => exact ⟨block, hblock, rfl⟩
  | block => exact ⟨block, getElem?_push_of_some hblock, rfl⟩
  | @inst old name ty inst hold =>
      have hroom := lt_of_size_push_le haddr.values
      refine exists_replaced (R := fun a b : Block =>
        b.insts.count (.ofNat n) = a.insts.count (.ofNat n)) (fetch_eq_ok_iff.mp hold)
        (fun _ => rfl) ?_ hblock
      have hne := (ofNat_ne_ofNat (e := .value) hn hroom).symm
      simp [hne]

theorem Edit.block_cases (h : Edit p p') (howned : p.Owned) (haddr : p'.Addressable) {n : Nat}
    {block' : Block} (hblock : p'.blocks[n]? = some block') :
    (∃ block, p.blocks[n]? = some block ∧ block'.func = block.func) ∨
      ∃ fn, p'.functions[block'.func.index]? = some fn ∧ fn.blocks.count (.ofNat n) = 1 := by
  cases h with
  | constant | declare | rename | incoming => exact Or.inl ⟨block', hblock, rfl⟩
  | @inst block name ty inst hold =>
      have hfunc : ({ block with insts := block.insts.push (.ofNat p.values.size) } : Block).func =
          block.func := rfl
      exact Or.inl (exists_of_replaced (R := fun a b : Block => b.func = a.func)
        (fetch_eq_ok_iff.mp hold) (fun _ => rfl) hfunc hblock)
  | @block func fn name hold =>
      rw [Array.getElem?_push] at hblock
      split at hblock
      · next hn =>
          cases hblock
          subst hn
          have hroom := lt_of_size_push_le haddr.blocks
          have hlookup := fetch_eq_ok_iff.mp hold
          have hfresh := howned.fresh_block hroom hlookup
          right
          refine ⟨_, (getElem?_replaced hlookup).trans (if_pos rfl), ?_⟩
          simp [List.count_append, List.count_eq_zero_of_not_mem hfresh]
      · exact Or.inl ⟨block', hblock, rfl⟩

theorem Edit.inst_cases (h : Edit p p') (howned : p.Owned) (haddr : p'.Addressable) {n : Nat}
    {value' : Value} {inst' : Inst} (hvalue : p'.values[n]? = some value')
    (hkind : value'.kind = .inst inst') :
    (∃ value inst, p.values[n]? = some value ∧ value.kind = .inst inst ∧
      inst'.block = inst.block) ∨
      ∃ block, p'.blocks[inst'.block.index]? = some block ∧ block.insts.count (.ofNat n) = 1 := by
  cases h with
  | @constant v hconst =>
      rw [Array.getElem?_push] at hvalue
      split at hvalue
      · cases hvalue
        exact absurd hkind (hconst.isPlain.ne_inst inst')
      · exact Or.inl ⟨value', inst', hvalue, hkind, rfl⟩
  | declare name params ret =>
      rw [getElem?_appendList] at hvalue
      split at hvalue
      · rw [Array.getElem?_push] at hvalue
        split at hvalue
        · cases hvalue
          cases hkind
        · exact Or.inl ⟨value', inst', hvalue, hkind, rfl⟩
      · rw [List.getElem?_mapIdx, Option.map_eq_some_iff] at hvalue
        obtain ⟨ty, -, rfl⟩ := hvalue
        cases hkind
  | block => exact Or.inl ⟨value', inst', hvalue, hkind, rfl⟩
  | @rename v value name hold =>
      have hsame : ({ value with name := nameOf name } : Value).kind = value.kind := rfl
      obtain ⟨value, hvalue, hsame⟩ := exists_of_replaced
        (R := fun a b : Value => b.kind = a.kind) (fetch_eq_ok_iff.mp hold) (fun _ => rfl)
        hsame hvalue
      exact Or.inl ⟨value, inst', hvalue, hsame ▸ hkind, rfl⟩
  | @inst block name ty inst hold =>
      rw [Array.getElem?_push] at hvalue
      split at hvalue
      · next hn =>
          cases hvalue
          cases hkind
          subst hn
          have hroom := lt_of_size_push_le haddr.values
          have hlookup := fetch_eq_ok_iff.mp hold
          have hfresh := howned.fresh_inst hroom hlookup
          right
          refine ⟨_, (getElem?_replaced hlookup).trans (if_pos rfl), ?_⟩
          simp [Array.count_eq_zero_of_not_mem hfresh]
      · exact Or.inl ⟨value', inst', hvalue, hkind, rfl⟩
  | @incoming phi value home line incoming edge hold hphi =>
      rw [getElem?_replaced (fetch_eq_ok_iff.mp hold)] at hvalue
      split at hvalue
      · next hn =>
          cases hvalue
          cases hkind
          exact Or.inl ⟨value, _, hn ▸ fetch_eq_ok_iff.mp hold, hphi, rfl⟩
      · exact Or.inl ⟨value', inst', hvalue, hkind, rfl⟩

/-! ## Built programs -/

theorem Listed.edit (h : p.Listed) (howned : p.Owned) (hedit : Edit p p')
    (haddr : p'.Addressable) : p'.Listed := by
  constructor
  · intro i fn' hfn'
    rcases hedit.value_origin hfn' with ⟨fn, hfn, hsame⟩ | ⟨n, value, heq, hvalue, hkind⟩
    · obtain ⟨value, hvalue, hkind⟩ := h.value i fn hfn
      obtain ⟨value', hvalue', hkept⟩ := hedit.kept_value hvalue
      rw [hkind] at hkept
      generalize hkind' : value'.kind = kind' at hkept
      cases hkept
      exact ⟨value', hsame ▸ hvalue', hkind'⟩
    · have hbound := (Array.getElem?_eq_some_iff.mp hvalue).1
      refine ⟨value, ?_, hkind⟩
      rwa [heq, Ident.index_ofNat_of_lt (Nat.lt_of_lt_of_le hbound haddr.values)]
  · intro n block' hblock'
    rcases hedit.block_cases howned haddr hblock' with ⟨block, hblock, hfunc⟩ | hnew
    · obtain ⟨fn, hfn, hcount⟩ := h.block n block hblock
      have hbound := (Array.getElem?_eq_some_iff.mp hblock).1
      obtain ⟨fn', hfn', hsame⟩ := hedit.kept_blocks haddr hfn hbound
      exact ⟨fn', hfunc ▸ hfn', hsame.trans hcount⟩
    · exact hnew
  · intro n value' inst' hvalue' hkind'
    rcases hedit.inst_cases howned haddr hvalue' hkind' with
      ⟨value, inst, hvalue, hkind, hhome⟩ | hnew
    · obtain ⟨block, hblock, hcount⟩ := h.inst n value inst hvalue hkind
      have hbound := (Array.getElem?_eq_some_iff.mp hvalue).1
      obtain ⟨block', hblock', hsame⟩ := hedit.kept_insts haddr hblock hbound
      exact ⟨block', hhome ▸ hblock', hsame.trans hcount⟩
    · exact hnew

theorem listed_of_build {steps : List Step} {built : Built} (h : build steps = .ok built)
    (haddr : built.program.Addressable) : built.program.Listed := by
  refine (build_induction h (fun p => p.Addressable → p.Owned ∧ p.Listed) ?_ ?_ haddr).2
  · intro _
    constructor <;> constructor <;> simp [empty]
  · intro p p' hp hedit haddr'
    obtain ⟨howned, hlisted⟩ := hp (haddr'.of_edit hedit)
    exact ⟨howned.edit hedit haddr', hlisted.edit howned hedit haddr'⟩

/-- For the lists of blocks it is enough that the identifiers of blocks have not wrapped around. -/
theorem Edit.nodup_blocks (h : Edit p p') (hlinked : p.Linked)
    (hroom : p'.blocks.size ≤ UInt32.size) (hnodup : ∀ fn ∈ p.functions, fn.blocks.Nodup) :
    ∀ fn ∈ p'.functions, fn.blocks.Nodup := by
  intro fn hfn
  cases h with
  | constant | rename | inst | incoming => exact hnodup fn hfn
  | declare name params ret =>
      rcases Array.mem_push.mp hfn with hfn | rfl
      · exact hnodup fn hfn
      · exact .nil
  | @block func old name hold =>
      rcases Array.mem_or_eq_of_mem_setIfInBounds hfn with hfn | rfl
      · exact hnodup fn hfn
      · have hmem := mem_of_fetch hold
        have hfresh := fresh_block (hlinked.functions old hmem).blocks (lt_of_size_push_le hroom)
        rw [← List.concat_eq_append]
        exact (hnodup old hmem).concat hfresh

theorem nodup_blocks_of_build {steps : List Step} {built : Built} (h : build steps = .ok built)
    (hroom : built.program.blocks.size ≤ UInt32.size) :
    ∀ fn ∈ built.program.functions, fn.blocks.Nodup := by
  refine (build_induction h (fun p => p.Linked ∧ (p.blocks.size ≤ UInt32.size →
    ∀ fn ∈ p.functions, fn.blocks.Nodup)) ?_ ?_).2 hroom
  · exact ⟨.empty, by simp [empty]⟩
  · rintro p p' ⟨hlinked, hnodup⟩ hedit
    refine ⟨hlinked.edit hedit, fun hroom => hedit.nodup_blocks hlinked hroom (hnodup ?_)⟩
    exact Nat.le_trans hedit.sizesLe.blocks hroom

/-! ## What is listed where -/

variable {f : FuncId} {fn : Function}

theorem Listed.asFunction? (h : p.Listed) (hfn : p.function f = .ok fn) :
    p.asFunction? fn.value = .ok (some f) := by
  obtain ⟨value, hvalue, hkind⟩ := h.value f.index fn (fetch_eq_ok_iff.mp hfn)
  rw [f.ofNat_index] at hkind
  exact asFunction?_of_value_kind hvalue hkind

theorem Owned.func_of_block (h : p.Owned) (hfn : p.function f = .ok fn) {b : BlockId}
    (hb : b ∈ fn.blocks) {block : Block} (hblock : p.block b = .ok block) : block.func = f := by
  obtain ⟨block', hblock', hfunc⟩ := h.block f.index fn (fetch_eq_ok_iff.mp hfn) b hb
  rw [fetch_eq_ok_iff.mp hblock] at hblock'
  cases hblock'
  rwa [f.ofNat_index] at hfunc

end Program

end CallTargets
