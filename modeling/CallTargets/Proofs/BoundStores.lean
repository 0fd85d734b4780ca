import CallTargets.Proofs.Coverage
import CallTargets.Proofs.OperandFlow
import CallTargets.Proofs.Ownership
import CallTargets.Proofs.PointeeLaws

/-!
# Stores with bound parameters

While a function is on the path, its pointer parameters have entries, and they have none before
and after.  The default pointee of such a parameter, which is the parameter itself, is then
never read, so that no store points to it.  The root is the exception: nothing binds its
parameters, and nothing enters it again.
-/

namespace CallTargets

namespace Program

variable {p : Program} {root f g : FuncId} {v : ValueId}

/-- A parameter of the function that is a pointer. -/
def PtrParam (p : Program) (f : FuncId) (v : ValueId) : Prop :=
  ∃ fn, p.function f = .ok fn ∧ v ∈ fn.params ∧ p.isPtr v = .ok true

/-- A pointer parameter of a function other than the root. -/
def InnerParam (p : Program) (root : FuncId) (v : ValueId) : Prop :=
  ∃ f, f ≠ root ∧ p.PtrParam f v

namespace Owned

variable (h : p.Owned)

include h

theorem kind_of_ptrParam (hv : p.PtrParam f v) :
    ∃ value j, p.value v = .ok value ∧ value.kind = .argument f j := by
  obtain ⟨fn, hfn, hmem, -⟩ := hv
  obtain ⟨j, hj⟩ := List.getElem?_of_mem hmem
  obtain ⟨value, hvalue, hkind⟩ := h.kind_of_param hfn hj
  exact ⟨value, j, hvalue, hkind⟩

theorem owner?_of_ptrParam (hv : p.PtrParam f v) : p.owner? v = .ok (some f) := by
  obtain ⟨value, j, hvalue, hkind⟩ := h.kind_of_ptrParam hv
  simp [owner?, hvalue, hkind, bind, Except.bind, pure, Except.pure]

theorem ptrParam_unique (hf : p.PtrParam f v) (hg : p.PtrParam g v) : f = g := by
  have howner := (h.owner?_of_ptrParam hf).symm.trans (h.owner?_of_ptrParam hg)
  cases howner
  rfl

theorem not_innerParam_of_inst {inst : Inst} (hinst : p.inst? v = .ok (some inst)) :
    ¬ p.InnerParam root v := by
  rintro ⟨f, -, hv⟩
  obtain ⟨value, j, hvalue, hkind⟩ := h.kind_of_ptrParam hv
  simp [inst?, hvalue, hkind, bind, Except.bind, pure, Except.pure] at hinst

theorem not_innerParam_of_function (hv : p.asFunction? v = .ok (some f)) :
    ¬ p.InnerParam root v := by
  rintro ⟨f, -, hparam⟩
  obtain ⟨value, j, hvalue, hkind⟩ := h.kind_of_ptrParam hparam
  simp [asFunction?, hvalue, hkind, bind, Except.bind, pure, Except.pure] at hv

theorem not_innerParam_of_object (hv : p.isObject v = .ok true) : ¬ p.InnerParam root v := by
  rintro ⟨f, -, hparam⟩
  obtain ⟨value, j, hvalue, hkind⟩ := h.kind_of_ptrParam hparam
  simp [isObject, hvalue, hkind, bind, Except.bind, pure, Except.pure] at hv

end Owned

/-- Arguments and instructions are operands only of instructions of their own function. -/
def OperandsLocal (p : Program) : Prop :=
  ∀ user inst, p.inst? user = .ok (some inst) → ∀ v ∈ inst.op.values, ∀ f,
    p.owner? v = .ok (some f) → p.owner? user = .ok (some f)

/-- Whether the operands of one value, if it is an instruction, are local. -/
def operandsLocalAt (p : Program) (user : ValueId) : Bool :=
  (p.inst? user).toOption.join.all fun inst => inst.op.values.all fun v =>
    (p.owner? v).toOption.join.all fun f => p.owner? user = .ok (some f)

theorem operandsLocal_of_values
    (h : ∀ i < p.values.size, p.operandsLocalAt (.ofNat i) = true) : p.OperandsLocal := by
  intro user inst hinst v hv f hf
  obtain ⟨value, hvalue, -⟩ := inst?_eq_some_iff.mp hinst
  have hall := h user.index (Array.getElem?_eq_some_iff.mp hvalue).1
  simp only [operandsLocalAt, user.ofNat_index, hinst, Except.toOption, Option.join_some,
    Option.all_some, List.all_eq_true] at hall
  simpa [hf] using hall v hv

end Program

theorem Op.mem_values_of_mem_pointers {op : Op} {v : ValueId} (h : v ∈ op.pointers) :
    v ∈ op.values := by
  cases op with
  | gep base elem indices => exact List.mem_cons.mpr (Or.inl (List.mem_singleton.mp h))
  | load | store | cast | phi | call | ret => exact h
  | alloca | br | condBr | binOp | icmp | unreachable => cases h

/-! ## Locations and stores -/

/-- A location that is not based at a pointer parameter of a function other than the root. -/
def Loc.Outer (p : Program) (root : FuncId) (x : Loc) : Prop := ¬ p.InnerParam root x.base

/-- A location that may have an entry while the functions on the path are analysed: of a pointer
parameter only the parameter itself, and only while its function is on the path. -/
def Loc.Allowed (p : Program) (root : FuncId) (path : List FuncId) (l : Loc) : Prop :=
  ∀ x, l.default? = some x → p.InnerParam root l.base →
    l.role = .self ∧ ∃ f ∈ path, p.PtrParam f l.base

variable {p : Program} {c : Config} {root f : FuncId} {path : List FuncId}

namespace Loc

theorem Outer.allowed {l : Loc} (h : l.Outer p root) : l.Allowed p root path :=
  fun _ _ hinner => absurd hinner h

theorem Allowed.of_default?_eq_none {l : Loc} (h : l.default? = none) :
    l.Allowed p root path := by
  intro x hx
  rw [h] at hx
  cases hx

theorem Allowed.self {v : ValueId} (h : ∀ f, f ≠ root → p.PtrParam f v → f ∈ path) :
    (Loc.self v).Allowed p root path := by
  rintro x - ⟨f, hf, hv⟩
  exact ⟨rfl, f, h f hf hv, hv⟩

end Loc

namespace Store

/-- No pointee is based at a pointer parameter of an inner function, and all locations with an
entry are allowed on the path. -/
structure Tidy (p : Program) (root : FuncId) (path : List FuncId) (s : Store) : Prop where
  pointees : s.Obeys fun _ x => x.Outer p root
  keys : ∀ l, s.contains l = true → l.Allowed p root path

/-- In addition, the pointer parameters of all functions on the path but the root have
entries. -/
structure Bound (p : Program) (root : FuncId) (path : List FuncId) (s : Store) : Prop extends
    Tidy p root path s where
  params : ∀ f ∈ path, f ≠ root → ∀ v, p.PtrParam f v → s.contains (.self v) = true

variable {s t : Store} {l : Loc} {e : LocSet}

theorem contains_set (s : Store) (l k : Loc) (e : LocSet) :
    (s.set l e).contains k = true ↔ l = k ∨ s.contains k = true := by
  rw [contains_iff, contains_iff, explicit?_set]
  split <;> simp_all

namespace Tidy

theorem empty : Tidy p root path ∅ :=
  ⟨.empty, fun l h => by simp [contains_iff] at h⟩

theorem set (h : Tidy p root path s) (hl : l.Allowed p root path)
    (he : ∀ x ∈ e, x.Outer p root) : Tidy p root path (s.set l e) := by
  refine ⟨h.pointees.set he, fun k hk => ?_⟩
  rcases (contains_set s l k e).mp hk with rfl | hk
  · exact hl
  · exact h.keys k hk

theorem returned_outer (h : Tidy p root path s) (func : ValueId) :
    ∀ x ∈ s.values (.returned func), x.Outer p root := by
  intro x hx
  cases hs : s.explicit? (.returned func) with
  | some e =>
      rw [values_of_explicit hs, ← stored_of_explicit hs] at hx
      exact h.pointees _ x hx
  | none =>
      rw [values_of_absent hs, mem_defaults] at hx
      cases hx

end Tidy

namespace Bound

theorem empty (p : Program) (root : FuncId) : Bound p root [root] ∅ := by
  refine ⟨.empty, fun f hf hne => ?_⟩
  exact absurd (List.mem_singleton.mp hf) hne

theorem set (h : Bound p root path s) (hl : l.Allowed p root path)
    (he : ∀ x ∈ e, x.Outer p root) : Bound p root path (s.set l e) := by
  refine ⟨h.toTidy.set hl he, fun f hf hne v hv => ?_⟩
  exact (contains_set s l _ e).mpr (Or.inr (h.params f hf hne v hv))

theorem extend (h : Bound p root path s) (hl : l.Allowed p root path)
    (he : ∀ x ∈ e, x.Outer p root) : Bound p root path (s.extend l e) := by
  apply h.set hl
  intro x hx
  rcases Std.ExtTreeSet.mem_union_iff.mp hx with hx | hx
  · exact h.pointees l x hx
  · exact he x hx

variable (howned : p.Owned)

include howned

/-- Where an entry is allowed, the default pointee of an inner parameter is not read: it is on the
path, and so it has an entry. -/
theorem values_outer (h : Bound p root path s) (hl : l.Allowed p root path) {x : Loc}
    (hx : x ∈ s.values l) : x.Outer p root := by
  cases hs : s.explicit? l with
  | some e =>
      rw [values_of_explicit hs, ← stored_of_explicit hs] at hx
      exact h.pointees l x hx
  | none =>
      rw [values_of_absent hs, mem_defaults] at hx
      unfold Loc.Outer
      rw [Loc.base_of_default? hx]
      rintro ⟨f, hf, hv⟩
      obtain ⟨hrole, g, hg, hgv⟩ := hl x hx ⟨f, hf, hv⟩
      have hfg := howned.ptrParam_unique hgv hv
      have hself : l = .self l.base := congrArg (Loc.mk l.base) hrole
      have hcontains := h.params g hg (hfg ▸ hf) l.base hgv
      rw [← hself, contains_iff, hs] at hcontains
      simp at hcontains

theorem operand_outer (h : Bound p root path s) {v : ValueId}
    (hv : ∀ f, f ≠ root → p.PtrParam f v → f ∈ path) (he : s.operand p v = .ok e) :
    ∀ x ∈ e, x.Outer p root := by
  obtain ⟨isObject, hobject, he⟩ := bind_eq_ok_iff.mp he
  cases isObject with
  | true =>
      cases he
      intro x hx
      rw [mem_insert_empty_iff.mp hx]
      exact howned.not_innerParam_of_object hobject
  | false =>
      cases he
      exact fun x hx => h.values_outer howned (.self hv) hx

theorem join (h : Bound p root path s) (ht : Bound p root path t) :
    Bound p root path (s.join t) := by
  have hcontains : ∀ l, (s.join t).contains l = true ↔ s.contains l = true ∨
      t.contains l = true := by
    intro l
    rw [← not_iff_not, not_or]
    simp only [Bool.not_eq_true, not_contains_iff]
    exact explicit?_join_eq_none_iff
  have hkeys : ∀ l, (s.join t).contains l = true → l.Allowed p root path := fun l hl =>
    ((hcontains l).mp hl).elim (h.keys l) (ht.keys l)
  refine ⟨⟨fun l x hx => ?_, hkeys⟩, fun f hf hne v hv => ?_⟩
  · have hl := hkeys l (contains_of_mem_stored hx)
    rw [stored, explicit?_join] at hx
    split at hx
    · simp at hx
    · rcases Std.ExtTreeSet.mem_union_iff.mp hx with hx | hx
      · exact h.values_outer howned hl hx
      · exact ht.values_outer howned hl hx
  · exact (hcontains _).mpr (Or.inl (h.params f hf hne v hv))

end Bound

end Store

open Store (Bound Tidy)

theorem summarize_tidy {states : BlockStates Store}
    (h : StatesHold (Bound p root path) states) : (summarize states).Tidy p root path := by
  refine ⟨summarize_obeys (h.imp fun _ hs => hs.pointees), fun l hl => ?_⟩
  have hcontains := (Store.contains_foldl_absorb
    (fun entry : BlockId × BlockState Store => entry.2.exit) states.toList ∅ l).mp hl
  obtain ⟨⟨b, state⟩, hstate, hl⟩ := hcontains.resolve_left (by simp [Store.contains_iff])
  exact (h b state (Std.ExtTreeMap.mem_toList_iff_getElem?_eq_some.mp hstate)).2.keys l hl

/-! ## Single instructions -/

/-- The instructions of the innermost function on the path keep parameters bound. -/
theorem Transfer.plain_bound (howned : p.Owned) (hlocal : p.OperandsLocal) {v : ValueId}
    {inst : Inst} (hinst : p.inst? v = .ok (some inst)) (hv : p.owner? v = .ok (some f))
    {s s' : Store} (hs : s.Bound p root (f :: path))
    (h : Transfer.plain p c v inst.op s = .ok s') : s'.Bound p root (f :: path) := by
  have hflow : Transfer.Flow p v inst.op (Bound p root (f :: path)) (Loc.Outer p root) :=
    { operand := fun hs hw _ he => by
        apply hs.operand_outer howned ?_ he
        intro g _ hg
        have howner := hlocal v inst hinst _ (Op.mem_values_of_mem_pointers hw) g
          (howned.owner?_of_ptrParam hg)
        rw [hv] at howner
        cases howner
        exact List.mem_cons_self
      values := fun hs hl x hx => hs.values_outer howned hl.allowed hx
      offset := fun k hl => by
        unfold Loc.Outer
        rwa [Loc.base_offset]
      result := fun hs he => hs.extend (Loc.Outer.allowed (howned.not_innerParam_of_inst hinst)) he
      returned := fun func hs he => hs.extend (.of_default?_eq_none rfl) he
      overwrite := fun hs hl he => hs.set hl.allowed he
      add := fun hs hl he => hs.extend hl.allowed he }
  exact hflow.plain hs h

/-! ## Calls -/

namespace Call

variable {before context : Store} {fn : Function} {params args : List ValueId}

/-- In the context each parameter with a pointer argument has what the argument may point to
before, and every other location has the entry that it has before. -/
structure ParamsBound (p : Program) (before context : Store) (params args : List ValueId) :
    Prop where
  param : ∀ param arg, (param, arg) ∈ params.zip args → p.isPtr arg = .ok true →
    ∃ pointees, before.operand p arg = .ok pointees ∧
      context.explicit? (.self param) = some pointees
  other : ∀ l, (∀ param arg, (param, arg) ∈ params.zip args → p.isPtr arg = .ok true →
    l ≠ .self param) → context.explicit? l = before.explicit? l

/-- Binding adds to what parameters have, and leaves other locations alone. -/
theorem explicit?_of_bindAll {pairs : List (ValueId × ValueId)} {start : Store}
    (hnodup : (pairs.map Prod.fst).Nodup)
    (h : pairs.foldlM (fun context (param, arg) => do
      if ← p.isPtr arg then
        return context.extend (.self param) (← before.operand p arg)
      else
        return context) start = .ok context) :
    (∀ param arg, (param, arg) ∈ pairs → p.isPtr arg = .ok true →
      ∃ pointees, before.operand p arg = .ok pointees ∧
        context.explicit? (.self param) =
          some ((start.explicit? (.self param)).getD ∅ ∪ pointees)) ∧
    ∀ l, (∀ param arg, (param, arg) ∈ pairs → p.isPtr arg = .ok true → l ≠ .self param) →
      context.explicit? l = start.explicit? l := by
  induction pairs generalizing start with
  | nil =>
      cases h
      exact ⟨nofun, fun _ _ => rfl⟩
  | cons pair rest ih =>
      obtain ⟨q, a⟩ := pair
      rw [List.map_cons, List.nodup_cons] at hnodup
      rw [List.foldlM_cons] at h
      obtain ⟨next, hnext, h⟩ := bind_eq_ok_iff.mp h
      obtain ⟨hparam, hother⟩ := ih hnodup.2 h
      -- The remaining pairs neither read nor write the entry of the first parameter.
      have hfresh : ∀ param arg, (param, arg) ∈ rest → q ≠ param := by
        rintro param arg hmem rfl
        exact hnodup.1 (List.mem_map.mpr ⟨_, hmem, rfl⟩)
      obtain ⟨isPtr, hptr, hnext⟩ := bind_eq_ok_iff.mp hnext
      cases isPtr with
      | false =>
          cases hnext
          refine ⟨fun param arg hmem harg => ?_, fun l hl => ?_⟩
          · rcases List.mem_cons.mp hmem with heq | hmem
            · cases heq
              rw [hptr] at harg
              cases harg
            · exact hparam param arg hmem harg
          · exact hother l (fun param arg hmem => hl param arg (List.mem_cons_of_mem _ hmem))
      | true =>
          obtain ⟨pointees, hpointees, hnext⟩ := bind_eq_ok_iff.mp hnext
          cases hnext
          refine ⟨fun param arg hmem harg => ?_, fun l hl => ?_⟩
          · rcases List.mem_cons.mp hmem with heq | hmem
            · cases heq
              refine ⟨pointees, hpointees, ?_⟩
              rw [hother (.self q) (fun param arg hmem _ heq => hfresh param arg hmem
                (congrArg Loc.base heq)), Store.explicit?_extend_self]
            · obtain ⟨e, he, hcontext⟩ := hparam param arg hmem harg
              have hne : Loc.self q ≠ .self param := fun heq =>
                hfresh param arg hmem (congrArg Loc.base heq)
              rw [Store.explicit?_extend_of_ne hne] at hcontext
              exact ⟨e, he, hcontext⟩
          · have hne := hl q a List.mem_cons_self hptr
            rw [hother l (fun param arg hmem => hl param arg (List.mem_cons_of_mem _ hmem)),
              Store.explicit?_extend_of_ne hne.symm]

/-- There are enough arguments for the parameters, with pointers exactly where parameters are
pointers. -/
structure ArgsFit (p : Program) (params args : List ValueId) : Prop where
  length_le : params.length ≤ args.length
  isPtr_iff : ∀ param arg, (param, arg) ∈ params.zip args →
    (p.isPtr arg = .ok true ↔ p.isPtr param = .ok true)

theorem ArgsFit.ptrParam (hfit : ArgsFit p fn.params args) (hfn : p.function f = .ok fn)
    {param arg : ValueId} (hmem : (param, arg) ∈ fn.params.zip args)
    (harg : p.isPtr arg = .ok true) : p.PtrParam f param :=
  ⟨fn, hfn, (List.of_mem_zip hmem).1, (hfit.isPtr_iff param arg hmem).mp harg⟩

namespace ParamsBound

theorem cases (h : ParamsBound p before context params args) (l : Loc) :
    (∃ param arg pointees, (param, arg) ∈ params.zip args ∧ p.isPtr arg = .ok true ∧
      l = .self param ∧ before.operand p arg = .ok pointees ∧
      context.explicit? l = some pointees) ∨
    context.explicit? l = before.explicit? l := by
  by_cases hl : ∃ param arg, (param, arg) ∈ params.zip args ∧ p.isPtr arg = .ok true ∧
    l = .self param
  · obtain ⟨param, arg, hmem, harg, rfl⟩ := hl
    obtain ⟨pointees, hpointees, hcontext⟩ := h.param param arg hmem harg
    exact Or.inl ⟨param, arg, pointees, hmem, harg, rfl, hpointees, hcontext⟩
  · apply Or.inr (h.other l _)
    exact fun param arg hmem harg heq => hl ⟨param, arg, hmem, harg, heq⟩

theorem contains (h : ParamsBound p before context params args) {l : Loc}
    (hl : before.contains l = true) : context.contains l = true := by
  rw [Store.contains_iff]
  rcases h.cases l with ⟨-, -, pointees, -, -, -, -, hcontext⟩ | hsame
  · exact ⟨pointees, hcontext⟩
  · rwa [hsame, ← Store.contains_iff]

theorem contains_param (h : ParamsBound p before context params args)
    (hfit : ArgsFit p params args) {v : ValueId} (hv : v ∈ params) (hptr : p.isPtr v = .ok true) :
    context.contains (.self v) = true := by
  obtain ⟨i, hi⟩ := List.getElem?_of_mem hv
  have hlt := (List.getElem?_eq_some_iff.mp hi).1
  obtain ⟨arg, harg⟩ : ∃ arg, args[i]? = some arg :=
    ⟨_, List.getElem?_eq_getElem (hlt.trans_le hfit.length_le)⟩
  have hpair : (v, arg) ∈ params.zip args :=
    List.mem_of_getElem? (List.getElem?_zip_eq_some.mpr ⟨hi, harg⟩)
  obtain ⟨pointees, -, hcontext⟩ := h.param v arg hpair ((hfit.isPtr_iff v arg hpair).mpr hptr)
  exact Store.contains_iff.mpr ⟨pointees, hcontext⟩

end ParamsBound

section Binding

variable (howned : p.Owned) (hbefore : before.Bound p root path) (hfn : p.function f = .ok fn)
  (hroot : f ≠ root) (hfresh : f ∉ path) (hfit : ArgsFit p fn.params args)
  (h : bindParams p before fn.params args = .ok context)

include howned hbefore hfn hroot hfresh hfit h

/-- A function that is neither on the path nor the root finds its parameters without entries, so
that binding gives them what the arguments may point to, and nothing else. -/
theorem bindParams_paramsBound : ParamsBound p before context fn.params args := by
  have hnodup : ((fn.params.zip args).map Prod.fst).Nodup := by
    rw [List.map_fst_zip hfit.length_le]
    exact howned.params_nodup hfn
  obtain ⟨hparam, hother⟩ := explicit?_of_bindAll hnodup h
  refine ⟨fun param arg hmem harg => ?_, hother⟩
  obtain ⟨pointees, hpointees, hcontext⟩ := hparam param arg hmem harg
  have hptr := hfit.ptrParam hfn hmem harg
  have habsent : before.explicit? (.self param) = none := by
    rw [← Store.not_contains_iff, ← Bool.not_eq_true]
    intro hcontains
    obtain ⟨-, g, hg, hgv⟩ := hbefore.keys _ hcontains _ rfl ⟨f, hroot, hptr⟩
    exact hfresh (howned.ptrParam_unique hgv hptr ▸ hg)
  refine ⟨pointees, hpointees, ?_⟩
  rw [hcontext, habsent, Option.getD_none]
  exact congrArg some (Std.ExtTreeSet.ext_mem (by simp))

theorem bindParams_bound (hargs : ∀ arg ∈ args, ∀ g, g ≠ root → p.PtrParam g arg → g ∈ path) :
    context.Bound p root (f :: path) := by
  have hbound := bindParams_paramsBound howned hbefore hfn hroot hfresh hfit h
  refine ⟨⟨fun l x hx => ?_, fun l hl => ?_⟩, fun g hg hne v hv => ?_⟩
  · rcases hbound.cases l with ⟨param, arg, pointees, hmem, -, -, hpointees, hcontext⟩ | hsame
    · rw [Store.stored_of_explicit hcontext] at hx
      exact hbefore.operand_outer howned (hargs arg (List.of_mem_zip hmem).2) hpointees x hx
    · rw [Store.stored, hsame] at hx
      exact hbefore.pointees l x hx
  · rcases hbound.cases l with ⟨param, arg, -, hmem, harg, rfl, -⟩ | hsame
    · apply Loc.Allowed.self
      intro g _ hg
      exact howned.ptrParam_unique (hfit.ptrParam hfn hmem harg) hg ▸ List.mem_cons_self
    · rw [Store.contains_iff, hsame, ← Store.contains_iff] at hl
      intro x hx hinner
      obtain ⟨hrole, g, hg, hgv⟩ := hbefore.keys l hl x hx hinner
      exact ⟨hrole, g, List.mem_cons_of_mem f hg, hgv⟩
  · rcases List.mem_cons.mp hg with rfl | hg
    · obtain ⟨fn', hfn', hmem, hptr⟩ := hv
      rw [hfn] at hfn'
      cases hfn'
      exact hbound.contains_param hfit hmem hptr
    · exact hbound.contains (hbefore.params g hg hne v hv)

end Binding

theorem recordTargets_bound (htables : p.Tables) (howned : p.Owned) {s : Store}
    (hs : s.Bound p root path) {call callee : ValueId} {funcs : FuncSet}
    (hfuncs : candidates p c s callee = .ok funcs)
    (h : recordTargets p call s funcs.toList = .ok before) : before.Bound p root path := by
  obtain ⟨pointees, -, hmem⟩ := mem_candidates hfuncs
  apply foldlM_ok_induction h (Bound p root path) hs
  intro t g t' hg ht hstep
  obtain ⟨fn, hfn, hstep⟩ := bind_eq_ok_iff.mp hstep
  cases hstep
  obtain ⟨x, -, hxg, -⟩ := (hmem g).mp (by simpa using hg)
  obtain ⟨fn', hfn', hvalue⟩ := htables.function_of_asFunction? hxg
  rw [hfn] at hfn'
  cases hfn'
  rw [Store.insert_eq_extend]
  apply ht.extend (.of_default?_eq_none rfl)
  intro y hy
  rw [mem_insert_empty_iff.mp hy]
  exact howned.not_innerParam_of_function (hvalue ▸ hxg)

/-- The parameters of a function do not escape from it. -/
theorem allowed_of_escapes (howned : p.Owned) {l : Loc} (hl : l.Allowed p root (f :: path))
    (h : escapes p f l = .ok true) : l.Allowed p root path := by
  intro x hx hinner
  obtain ⟨hrole, g, hg, hgv⟩ := hl x hx hinner
  refine ⟨hrole, g, (List.mem_cons.mp hg).resolve_left ?_, hgv⟩
  rintro rfl
  simp [escapes, hrole, howned.owner?_of_ptrParam hgv, bind, Except.bind, pure,
    Except.pure] at h

theorem visible_tidy (howned : p.Owned) {summary writes : Store}
    (hs : summary.Tidy p root (f :: path)) (h : visible p f summary = .ok writes) :
    writes.Tidy p root path := by
  apply foldlM_ok_induction h (Tidy p root path) .empty
  intro kept entry kept' hentry hkept hstep
  obtain ⟨seen, hseen, hstep⟩ := bind_eq_ok_iff.mp hstep
  cases seen with
  | false =>
      cases hstep
      exact hkept
  | true =>
      cases hstep
      have hexplicit := Store.mem_toList_iff.mp hentry
      apply hkept.set
      · exact allowed_of_escapes howned (hs.keys _ (Store.contains_iff.mpr ⟨_, hexplicit⟩)) hseen
      · intro x hx
        rw [← Store.stored_of_explicit hexplicit] at hx
        exact hs.pointees entry.1 x hx

/-- What an entered callee returns and writes leaves parameters alone. -/
structure Effect.Tidy (p : Program) (root : FuncId) (path : List FuncId) (effect : Effect) :
    Prop where
  returns : ∀ x ∈ effect.returns, x.Outer p root
  writes : effect.writes.Tidy p root path

theorem allWrites_tidy {effects : List Effect}
    (h : ∀ effect ∈ effects, effect.Tidy p root path) :
    (allWrites effects).Tidy p root path := by
  refine ⟨fun l x hx => ?_, fun l hl => ?_⟩
  · obtain ⟨effect, heffect, hx⟩ := ((Store.mem_stored_foldl_absorb Effect.writes effects ∅ l
      x).mp hx).resolve_left (by simp)
    exact (h effect heffect).writes.pointees l x hx
  · obtain ⟨effect, heffect, hl⟩ := ((Store.contains_foldl_absorb Effect.writes effects ∅
      l).mp hl).resolve_left (by simp [Store.contains_iff])
    exact (h effect heffect).writes.keys l hl

theorem allReturns_outer {effects : List Effect}
    (h : ∀ effect ∈ effects, effect.Tidy p root path) :
    ∀ x ∈ allReturns effects, x.Outer p root := by
  refine List.foldlRecOn (motive := fun all : LocSet => ∀ x ∈ all, x.Outer p root) effects _
    (by simp) (fun all hall effect heffect x hx => ?_)
  rcases Std.ExtTreeSet.mem_union_iff.mp hx with hx | hx
  · exact hall x hx
  · exact (h effect heffect).returns x hx

theorem splice_bound (howned : p.Owned) {call : ValueId} {inst : Inst} {isPtr : Bool}
    {effects : List Effect} (hinst : p.inst? call = .ok (some inst))
    (hbefore : before.Bound p root path) (h : ∀ effect ∈ effects, effect.Tidy p root path) :
    (splice call isPtr before effects).Bound p root path := by
  have hwrites := allWrites_tidy h
  have hcall : (Loc.self call).Allowed p root path :=
    Loc.Outer.allowed (howned.not_innerParam_of_inst hinst)
  refine List.foldlRecOn (allWrites effects).toList _ ?_ (fun t ht entry hentry => ?_)
  · cases isPtr with
    | false => simpa using hbefore
    | true =>
        simp only [if_true]
        split
        · exact hbefore
        · exact hbefore.extend hcall (allReturns_outer h)
  · have hexplicit := Store.mem_toList_iff.mp hentry
    have hl := hwrites.keys entry.1 (Store.contains_iff.mpr ⟨_, hexplicit⟩)
    have he : ∀ x ∈ entry.2, x.Outer p root := by
      intro x hx
      rw [← Store.stored_of_explicit hexplicit] at hx
      exact hwrites.pointees entry.1 x hx
    dsimp only
    split
    · exact ht.set hl he
    · apply ht.set hl
      intro x hx
      rcases Std.ExtTreeSet.mem_union_iff.mp hx with hx | hx
      · exact he x hx
      · exact hbefore.values_outer howned hl hx

end Call

end CallTargets
