import CallTargets.Proofs.ProgramEdits

/-!
# The tables of a built program

A builder keeps its tables linked: a function value leads to a function and back again,
and an instruction lies in a block of a function that has a value.  Identifiers are
32-bit words that wrap around in a table that is too long for them, so only values that
an identifier can name are spoken of.  Those were made while every identifier was still
right.
-/

namespace CallTargets

namespace Program

/-- The value of a function is the value of some function. -/
def IsNamed (p : Program) (fn : Function) : Prop :=
  ∃ (value : Value) (g : FuncId),
    p.values[fn.value.index]? = some value ∧ value.kind = .function g

/-- What holds of the tables of a program between two steps of its construction. -/
structure Tables (p : Program) : Prop where
  functions_le : p.functions.size ≤ p.values.size
  block_func : ∀ (i : Nat) (block : Block), p.blocks[i]? = some block →
    ∃ fn, p.functions[block.func.index]? = some fn
  function_value : ∀ (i : Nat) (value : Value) (g : FuncId), i < UInt32.size →
    p.values[i]? = some value → value.kind = .function g →
    ∃ fn : Function, p.functions[g.index]? = some fn ∧ fn.value.index = i
  inst_owner : ∀ (i : Nat) (value : Value) (inst : Inst), i < UInt32.size →
    p.values[i]? = some value → value.kind = .inst inst →
    ∃ (block : Block) (fn : Function), p.blocks[inst.block.index]? = some block ∧
      p.functions[block.func.index]? = some fn ∧ p.IsNamed fn
  /-- As long as no identifier of a value has wrapped around, all functions are named. -/
  named : p.values.size ≤ UInt32.size →
    ∀ (i : Nat) (fn : Function), p.functions[i]? = some fn → p.IsNamed fn

end Program

/-! ## Tables with one entry replaced -/

section Replaced

variable {α : Type} {table : Array α} {i j : Nat} {old new a : α}

theorem getElem?_replaced (hold : table[i]? = some old) :
    (table.setIfInBounds i new)[j]? = if i = j then some new else table[j]? := by
  have hbound := (Array.getElem?_eq_some_iff.mp hold).1
  rw [Array.getElem?_setIfInBounds]
  split <;> rfl

variable {R : α → α → Prop}

theorem exists_of_replaced (hold : table[i]? = some old) (hrefl : ∀ a, R a a) (hR : R old new)
    (h : (table.setIfInBounds i new)[j]? = some a) : ∃ b, table[j]? = some b ∧ R b a := by
  rw [getElem?_replaced hold] at h
  split at h
  · next heq =>
      cases h
      exact ⟨old, heq ▸ hold, hR⟩
  · exact ⟨a, h, hrefl a⟩

theorem exists_replaced (hold : table[i]? = some old) (hrefl : ∀ a, R a a) (hR : R old new)
    (h : table[j]? = some a) : ∃ b, (table.setIfInBounds i new)[j]? = some b ∧ R a b := by
  rw [getElem?_replaced hold]
  split
  · next heq =>
      subst heq
      rw [hold] at h
      cases h
      exact ⟨new, rfl, hR⟩
  · exact ⟨a, h, hrefl a⟩

end Replaced

/-- Two kinds of values that the tables cannot tell apart: a function stays the same
function, and an instruction stays in its block. -/
structure ValueKind.Alike (k k' : ValueKind) : Prop where
  function_iff : ∀ g, k = .function g ↔ k' = .function g
  inst_block : ∀ inst', k' = .inst inst' → ∃ inst, k = .inst inst ∧ inst.block = inst'.block

theorem ValueKind.Alike.refl (k : ValueKind) : k.Alike k :=
  ⟨fun _ => Iff.rfl, fun inst h => ⟨inst, h, rfl⟩⟩

/-- A kind of value that needs no entry in another table. -/
structure ValueKind.IsPlain (k : ValueKind) : Prop where
  ne_function : ∀ g, k ≠ .function g
  ne_inst : ∀ inst, k ≠ .inst inst

theorem ValueKind.IsConstant.isPlain {k : ValueKind} (h : k.IsConstant) : k.IsPlain := by
  cases k with
  | function | argument | inst => exact h.elim
  | global | int | null | undef => exact ⟨nofun, nofun⟩

namespace Program.Tables

variable {p : Program}

theorem empty : Program.empty.Tables := by
  constructor <;> simp [Program.empty]

/-! ## Changes to one table -/

/-- Values may be changed as long as their kinds stay alike. -/
theorem revalue (h : p.Tables) {i : Nat} {old new : Value} (hold : p.values[i]? = some old)
    (hkind : old.kind.Alike new.kind) :
    Tables { p with values := p.values.setIfInBounds i new } := by
  let R : Value → Value → Prop := fun a b => a.kind.Alike b.kind
  have hrefl : ∀ a, R a a := fun a => .refl a.kind
  have hnamed : ∀ fn, p.IsNamed fn →
      IsNamed { p with values := p.values.setIfInBounds i new } fn := by
    rintro fn ⟨value, g, hvalue, hg⟩
    obtain ⟨value', hvalue', halike⟩ := exists_replaced hold hrefl hkind hvalue
    exact ⟨value', g, hvalue', (halike.function_iff g).mp hg⟩
  refine ⟨by simpa using h.functions_le, h.block_func, ?_, ?_, ?_⟩
  · intro j value' g hj hvalue' hg
    obtain ⟨value, hvalue, halike⟩ := exists_of_replaced hold hrefl hkind hvalue'
    exact h.function_value j value g hj hvalue ((halike.function_iff g).mpr hg)
  · intro j value' inst' hj hvalue' hinst'
    obtain ⟨value, hvalue, halike⟩ := exists_of_replaced hold hrefl hkind hvalue'
    obtain ⟨inst, hinst, hblock⟩ := halike.inst_block inst' hinst'
    obtain ⟨block, fn, hb, hfn, hname⟩ := h.inst_owner j value inst hj hvalue hinst
    exact ⟨block, fn, hblock ▸ hb, hfn, hnamed fn hname⟩
  · intro hsize j fn hfn
    exact hnamed fn (h.named (by simpa using hsize) j fn hfn)

theorem reblock (h : p.Tables) {i : Nat} {old new : Block} (hold : p.blocks[i]? = some old)
    (hfunc : new.func = old.func) :
    Tables { p with blocks := p.blocks.setIfInBounds i new } := by
  let R : Block → Block → Prop := fun a b => b.func = a.func
  have hrefl : ∀ a, R a a := fun _ => rfl
  refine ⟨h.functions_le, ?_, h.function_value, ?_, h.named⟩
  · intro j block' hblock'
    obtain ⟨block, hblock, hsame⟩ := exists_of_replaced hold hrefl hfunc hblock'
    exact hsame ▸ h.block_func j block hblock
  · intro j value inst hj hvalue hinst
    obtain ⟨block, fn, hblock, hfn, hname⟩ := h.inst_owner j value inst hj hvalue hinst
    obtain ⟨block', hblock', hsame⟩ := exists_replaced hold hrefl hfunc hblock
    exact ⟨block', fn, hblock', hsame ▸ hfn, hname⟩

theorem refunction (h : p.Tables) {i : Nat} {old new : Function}
    (hold : p.functions[i]? = some old) (hvalue : new.value = old.value) :
    Tables { p with functions := p.functions.setIfInBounds i new } := by
  let R : Function → Function → Prop := fun a b => b.value = a.value
  have hrefl : ∀ a, R a a := fun _ => rfl
  have hnamed : ∀ {fn fn' : Function}, R fn fn' → p.IsNamed fn → p.IsNamed fn' := by
    rintro fn fn' heq ⟨value, g, hv, hg⟩
    exact ⟨value, g, heq ▸ hv, hg⟩
  refine ⟨by simpa using h.functions_le, ?_, ?_, ?_, ?_⟩
  · intro j block hblock
    obtain ⟨fn, hfn⟩ := h.block_func j block hblock
    obtain ⟨fn', hfn', -⟩ := exists_replaced hold hrefl hvalue hfn
    exact ⟨fn', hfn'⟩
  · intro j value g hj hv hg
    obtain ⟨fn, hfn, hindex⟩ := h.function_value j value g hj hv hg
    obtain ⟨fn', hfn', hsame⟩ := exists_replaced hold hrefl hvalue hfn
    exact ⟨fn', hfn', hsame ▸ hindex⟩
  · intro j value inst hj hv hinst
    obtain ⟨block, fn, hb, hfn, hname⟩ := h.inst_owner j value inst hj hv hinst
    obtain ⟨fn', hfn', hsame⟩ := exists_replaced hold hrefl hvalue hfn
    exact ⟨block, fn', hb, hfn', hnamed hsame hname⟩
  · intro hsize j fn' hfn'
    obtain ⟨fn, hfn, hsame⟩ := exists_of_replaced hold hrefl hvalue hfn'
    exact hnamed hsame (h.named hsize j fn hfn)

theorem isNamed_append {more : Array Value} {fn : Function} (h : p.IsNamed fn) :
    IsNamed { p with values := p.values ++ more } fn := by
  obtain ⟨value, g, hvalue, hg⟩ := h
  refine ⟨value, g, ?_, hg⟩
  have hbound := (Array.getElem?_eq_some_iff.mp hvalue).1
  rw [Array.getElem?_append, if_pos hbound, hvalue]

theorem append (h : p.Tables) {more : Array Value} (hmore : ∀ v ∈ more, v.kind.IsPlain) :
    Tables { p with values := p.values ++ more } := by
  have hlookup : ∀ (j : Nat) (value : Value), (p.values ++ more)[j]? = some value →
      p.values[j]? = some value ∨ value.kind.IsPlain := by
    intro j value hj
    rw [Array.getElem?_append] at hj
    split at hj
    · exact Or.inl hj
    · exact Or.inr (hmore value (Array.mem_of_getElem? hj))
  refine ⟨?_, h.block_func, ?_, ?_, ?_⟩
  · have := h.functions_le
    simp only [Array.size_append]
    omega
  · intro j value g hj hvalue hg
    rcases hlookup j value hvalue with hvalue | hplain
    · exact h.function_value j value g hj hvalue hg
    · exact absurd hg (hplain.ne_function g)
  · intro j value inst hj hvalue hinst
    rcases hlookup j value hvalue with hvalue | hplain
    · obtain ⟨block, fn, hb, hfn, hname⟩ := h.inst_owner j value inst hj hvalue hinst
      exact ⟨block, fn, hb, hfn, isNamed_append hname⟩
    · exact absurd hinst (hplain.ne_inst inst)
  · intro hsize j fn hfn
    simp only [Array.size_append] at hsize
    exact isNamed_append (h.named (by omega) j fn hfn)

/-! ## New functions, blocks and instructions -/

theorem isNamed_push {v : Value} {fn : Function} (h : p.IsNamed fn) :
    IsNamed { p with values := p.values.push v } fn := by
  rw [Array.push_eq_append]
  exact isNamed_append h

theorem pushFunction (h : p.Tables) {v : Value} {fn : Function}
    (hkind : v.kind = .function (.ofNat p.functions.size))
    (hvalue : fn.value = .ofNat p.values.size) :
    Tables { p with values := p.values.push v, functions := p.functions.push fn } := by
  have hfunctions := h.functions_le
  have hold : ∀ (j : Nat) (f : Function), p.functions[j]? = some f →
      (p.functions.push fn)[j]? = some f := by
    intro j f hf
    have hbound := (Array.getElem?_eq_some_iff.mp hf).1
    rw [Array.getElem?_push, if_neg (by omega), hf]
  refine ⟨by simpa using hfunctions, ?_, ?_, ?_, ?_⟩
  · intro j block hj
    obtain ⟨f, hf⟩ := h.block_func j block hj
    exact ⟨f, hold _ f hf⟩
  · intro j value g hj hval hg
    rw [Array.getElem?_push] at hval
    split at hval
    · -- The new value can be named only while no identifier has wrapped around.
      next heq =>
        cases hval
        rw [hkind] at hg
        cases hg
        refine ⟨fn, ?_, ?_⟩
        · rw [Ident.index_ofNat_of_lt (by omega), Array.getElem?_push, if_pos rfl]
        · rw [hvalue, Ident.index_ofNat, ← heq, Nat.mod_eq_of_lt hj]
    · obtain ⟨f, hf, hindex⟩ := h.function_value j value g hj hval hg
      exact ⟨f, hold _ f hf, hindex⟩
  · intro j value inst hj hval hinst
    rw [Array.getElem?_push] at hval
    split at hval
    · cases hval
      rw [hkind] at hinst
      cases hinst
    · obtain ⟨block, f, hb, hf, hname⟩ := h.inst_owner j value inst hj hval hinst
      exact ⟨block, f, hb, hold _ f hf, isNamed_push hname⟩
  · intro hsize j f hf
    simp only [Array.size_push] at hsize
    rw [Array.getElem?_push] at hf
    split at hf
    · cases hf
      refine ⟨v, _, ?_, hkind⟩
      rw [hvalue, Ident.index_ofNat_of_lt (by omega), Array.getElem?_push, if_pos rfl]
    · exact isNamed_push (h.named (by omega) j f hf)

theorem pushBlock (h : p.Tables) {block : Block} {fn : Function}
    (hfn : p.functions[block.func.index]? = some fn) :
    Tables { p with blocks := p.blocks.push block } := by
  refine ⟨h.functions_le, ?_, h.function_value, ?_, h.named⟩
  · intro j b hj
    rw [Array.getElem?_push] at hj
    split at hj
    · cases hj
      exact ⟨fn, hfn⟩
    · exact h.block_func j b hj
  · intro j value inst hj hvalue hinst
    obtain ⟨b, f, hb, hf, hname⟩ := h.inst_owner j value inst hj hvalue hinst
    have hbound := (Array.getElem?_eq_some_iff.mp hb).1
    refine ⟨b, f, ?_, hf, hname⟩
    rw [Array.getElem?_push, if_neg (by omega), hb]

theorem pushInst (h : p.Tables) {v : Value} {inst : Inst} {block : Block}
    (hkind : v.kind = .inst inst) (hblock : p.blocks[inst.block.index]? = some block) :
    Tables { p with values := p.values.push v } := by
  have hfunctions := h.functions_le
  refine ⟨by simpa using Nat.le_succ_of_le hfunctions, h.block_func, ?_, ?_, ?_⟩
  · intro j value g hj hvalue hg
    rw [Array.getElem?_push] at hvalue
    split at hvalue
    · cases hvalue
      rw [hkind] at hg
      cases hg
    · exact h.function_value j value g hj hvalue hg
  · intro j value inst' hj hvalue hinst
    rw [Array.getElem?_push] at hvalue
    split at hvalue
    · next heq =>
        cases hvalue
        rw [hkind] at hinst
        cases hinst
        -- An instruction that can be named was made before any identifier wrapped around.
        obtain ⟨fn, hfn⟩ := h.block_func _ block hblock
        exact ⟨block, fn, hblock, hfn, isNamed_push (h.named (by omega) _ fn hfn)⟩
    · obtain ⟨b, f, hb, hf, hname⟩ := h.inst_owner j value inst' hj hvalue hinst
      exact ⟨b, f, hb, hf, isNamed_push hname⟩
  · intro hsize j f hf
    simp only [Array.size_push] at hsize
    exact isNamed_push (h.named (by omega) j f hf)

/-- Every change to a program under construction keeps its tables linked. -/
theorem edit (h : p.Tables) {p' : Program} (hedit : Edit p p') : p'.Tables := by
  cases hedit with
  | @constant v hkind =>
      rw [Array.push_eq_append]
      exact h.append (by simpa using hkind.isPlain)
  | declare name params ret =>
      have hargs : ∀ v ∈ (params.mapIdx fun i ty =>
          Value.mk none ty (.argument (.ofNat p.functions.size) i)).toArray, v.kind.IsPlain := by
        intro v hv
        obtain ⟨i, hi, rfl⟩ := List.mem_mapIdx.mp (List.mem_toArray.mp hv)
        exact ⟨nofun, nofun⟩
      have hlist : ∀ (table : Array Value) (more : List Value),
          table ++ more = table ++ more.toArray :=
        fun table more => Array.ext' (by simp)
      rw [hlist]
      have hfunction : Tables
          { p with
            values := p.values.push ⟨nameOf name, .ptr, .function (.ofNat p.functions.size)⟩
            functions := p.functions.push ⟨name, .ofNat p.values.size,
              params.mapIdx fun i _ => .ofNat (p.values.size + 1 + i), ret, []⟩ } :=
        h.pushFunction rfl rfl
      exact hfunction.append hargs
  | @block func fn name hfn =>
      have hlookup := fetch_eq_ok_iff.mp hfn
      have hpush : Tables { p with blocks := p.blocks.push ⟨func, nameOf name, #[]⟩ } :=
        h.pushBlock hlookup
      exact hpush.refunction hlookup rfl
  | @rename v value name hvalue =>
      exact h.revalue (fetch_eq_ok_iff.mp hvalue) (.refl value.kind)
  | inst name ty inst hblock =>
      have hlookup := fetch_eq_ok_iff.mp hblock
      exact (h.pushInst rfl hlookup).reblock hlookup rfl
  | incoming edge hvalue hkind =>
      refine h.revalue (fetch_eq_ok_iff.mp hvalue) ?_
      rw [hkind]
      exact ⟨fun g => ⟨nofun, nofun⟩, fun inst hinst => by cases hinst; exact ⟨_, rfl, rfl⟩⟩

end Program.Tables

theorem tables_of_build {steps : List Step} {built : Built} (h : build steps = .ok built) :
    built.program.Tables :=
  build_induction h Program.Tables .empty (fun _ _ hp hedit => hp.edit hedit)

/-! ## What identifiers lead to -/

namespace Program

variable {p : Program}

theorem value_kind_of_asFunction? {v : ValueId} {g : FuncId}
    (h : p.asFunction? v = .ok (some g)) :
    ∃ value, p.values[v.index]? = some value ∧ value.kind = .function g := by
  obtain ⟨value, hvalue, h⟩ := bind_eq_ok_iff.mp h
  refine ⟨value, fetch_eq_ok_iff.mp hvalue, ?_⟩
  split at h
  · next hkind =>
      cases h
      exact hkind
  · cases h

theorem asFunction?_of_value_kind {v : ValueId} {value : Value} {g : FuncId}
    (hvalue : p.values[v.index]? = some value) (hkind : value.kind = .function g) :
    p.asFunction? v = .ok (some g) := by
  refine bind_eq_ok_iff.mpr ⟨value, fetch_eq_ok_iff.mpr hvalue, ?_⟩
  rw [hkind]
  rfl

theorem inst?_eq_some_iff {v : ValueId} {inst : Inst} :
    p.inst? v = .ok (some inst) ↔
      ∃ value, p.values[v.index]? = some value ∧ value.kind = .inst inst := by
  constructor
  · intro h
    obtain ⟨value, hvalue, h⟩ := bind_eq_ok_iff.mp h
    refine ⟨value, fetch_eq_ok_iff.mp hvalue, ?_⟩
    split at h
    · next hkind =>
        cases h
        exact hkind
    · cases h
  · rintro ⟨value, hvalue, hkind⟩
    refine bind_eq_ok_iff.mpr ⟨value, fetch_eq_ok_iff.mpr hvalue, ?_⟩
    rw [hkind]
    rfl

/-- A value that stands for a function is the value of that function. -/
theorem Tables.function_of_asFunction? (h : p.Tables) {v : ValueId} {g : FuncId}
    (hv : p.asFunction? v = .ok (some g)) : ∃ fn, p.function g = .ok fn ∧ fn.value = v := by
  obtain ⟨value, hvalue, hkind⟩ := value_kind_of_asFunction? hv
  obtain ⟨fn, hfn, hindex⟩ := h.function_value v.index value g v.index_lt hvalue hkind
  exact ⟨fn, fetch_eq_ok_iff.mpr hfn, Ident.ext_index hindex⟩

/-- The function that owns an instruction has a function value. -/
theorem Tables.asFunction?_of_owner? (h : p.Tables) {v : ValueId} {inst : Inst} {f : FuncId}
    {fn : Function} (hinst : p.inst? v = .ok (some inst)) (howner : p.owner? v = .ok (some f))
    (hfn : p.function f = .ok fn) : ∃ g, p.asFunction? fn.value = .ok (some g) := by
  obtain ⟨value, hvalue, hkind⟩ := inst?_eq_some_iff.mp hinst
  obtain ⟨value', hvalue', howner⟩ := bind_eq_ok_iff.mp howner
  cases hvalue.symm.trans (fetch_eq_ok_iff.mp hvalue')
  rw [hkind] at howner
  obtain ⟨block, hblock, howner⟩ := bind_eq_ok_iff.mp howner
  cases howner
  obtain ⟨block', fn', hblock', hfn', named, g, hnamed, hg⟩ :=
    h.inst_owner v.index value inst v.index_lt hvalue hkind
  rw [fetch_eq_ok_iff.mp hblock] at hblock'
  cases hblock'
  rw [fetch_eq_ok_iff.mp hfn] at hfn'
  cases hfn'
  exact ⟨g, asFunction?_of_value_kind hnamed hg⟩

end Program

end CallTargets
