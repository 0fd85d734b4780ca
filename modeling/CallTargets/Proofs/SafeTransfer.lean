import CallTargets.Analysis.Run
import CallTargets.Proofs.Safety
import CallTargets.Proofs.StoreJoin
import CallTargets.Proofs.TypeLayout

/-!
# Transfers without faults

A store is grounded when the bases of its locations and pointees are values of the program.
In linked, closed programs every question that a transfer asks about such a store has an
answer, and the store stays grounded.  Address computations may be refused; the refusal then
names the owner, the name and the line of the instruction.
-/

namespace CallTargets

/-- The base of a location is a value of the program. -/
def Loc.Grounded (p : Program) (l : Loc) : Prop := p.HasValue l.base

namespace Store

/-- Every location with an entry is grounded, and so are its pointees. -/
def Grounded (p : Program) (s : Store) : Prop :=
  ∀ l e, s.explicit? l = some e → l.Grounded p ∧ ∀ x ∈ e, x.Grounded p

namespace Grounded

variable {p : Program} {s t : Store} {l : Loc} {e : LocSet}

theorem empty : Grounded p ∅ := by
  intro l e h
  simp at h

theorem stored (h : Grounded p s) {x : Loc} (hx : x ∈ (s.explicit? l).getD ∅) :
    x.Grounded p := by
  cases hs : s.explicit? l with
  | none => simp [hs] at hx
  | some e =>
      rw [hs] at hx
      exact (h l e hs).2 x hx

theorem values (h : Grounded p s) (hl : l.Grounded p) {x : Loc} (hx : x ∈ s.values l) :
    x.Grounded p := by
  cases hs : s.explicit? l with
  | none =>
      rw [values_of_absent hs, mem_defaults] at hx
      unfold Loc.Grounded
      rwa [Loc.base_of_default? hx]
  | some e =>
      rw [values_of_explicit hs] at hx
      exact (h l e hs).2 x hx

theorem set (h : Grounded p s) (hl : l.Grounded p) (he : ∀ x ∈ e, x.Grounded p) :
    Grounded p (s.set l e) := by
  intro k e' hk
  rw [explicit?_set] at hk
  split at hk
  · next heq =>
      cases hk
      exact ⟨heq ▸ hl, he⟩
  · exact h k e' hk

theorem extend (h : Grounded p s) (hl : l.Grounded p) (he : ∀ x ∈ e, x.Grounded p) :
    Grounded p (s.extend l e) := by
  apply h.set hl
  intro x hx
  rcases Std.ExtTreeSet.mem_union_iff.mp hx with hx | hx
  · exact h.stored hx
  · exact he x hx

theorem insert (h : Grounded p s) (hl : l.Grounded p) {x : Loc} (hx : x.Grounded p) :
    Grounded p (s.insert l x) := by
  apply h.set hl
  intro y hy
  rw [Std.ExtTreeSet.mem_insert, Std.LawfulEqOrd.compare_eq_iff_eq] at hy
  rcases hy with rfl | hy
  · exact hx
  · exact h.stored hy

theorem absorb (h : Grounded p s) (ht : Grounded p t) : Grounded p (s.absorb t) := by
  unfold Store.absorb
  refine List.foldlRecOn t.toList _ h (fun acc hacc entry hentry => ?_)
  obtain ⟨hl, he⟩ := ht entry.1 entry.2 (mem_toList_iff.mp hentry)
  exact hacc.extend hl he

theorem join (h : Grounded p s) (ht : Grounded p t) : Grounded p (s.join t) := by
  intro l e he
  rw [explicit?_join] at he
  split at he
  · cases he
  · next hsome =>
      have hl : l.Grounded p := by
        cases hs : s.explicit? l with
        | some e => exact (h l e hs).1
        | none =>
            cases ht' : t.explicit? l with
            | some e => exact (ht l e ht').1
            | none => exact absurd ⟨hs, ht'⟩ hsome
      cases he
      refine ⟨hl, fun x hx => ?_⟩
      rcases Std.ExtTreeSet.mem_union_iff.mp hx with hx | hx
      · exact h.values hl hx
      · exact ht.values hl hx

theorem operand (h : Grounded p s) {v : ValueId} (hv : p.HasValue v) :
    Gives (fun e => ∀ x ∈ e, x.Grounded p) (s.operand p v) := by
  refine Gives.bind hv.isObject (fun isObject _ _ => ?_)
  cases isObject with
  | true =>
      refine Gives.pure (fun x hx => ?_)
      rw [mem_insert_empty_iff.mp hx]
      exact hv
  | false => exact Gives.pure (fun x hx => h.values (l := .self v) hv hx)

end Grounded

end Store

theorem summarize_grounded {p : Program} {states : BlockStates Store}
    (h : StatesHold (Store.Grounded p) states) : (summarize states).Grounded p := by
  unfold summarize
  refine List.foldlRecOn states.toList _ .empty (fun acc hacc entry hentry => ?_)
  have hstate := Std.ExtTreeMap.mem_toList_iff_getElem?_eq_some.mp hentry
  exact hacc.absorb (h entry.1 entry.2 hstate).2

/-! ## Offsets -/

namespace Offset

open Failing (Safe)

variable {p : Program}

theorem index_safe {v : ValueId} (hv : p.HasValue v) :
    Safe (fun _ => True) (fun _ => True) (index p v) := by
  refine Safe.bind (Safe.ofExcept hv.asInt?) (fun n? _ => ?_)
  cases n? with
  | none => exact Safe.failed trivial
  | some n =>
      dsimp only
      split
      · trivial
      · exact Safe.failed trivial

theorem checked_safe (n : Nat) : Safe (fun _ => True) (fun _ => True) (checked n) := by
  unfold checked
  cases word? n with
  | none => exact Safe.failed trivial
  | some m => trivial

theorem select_safe {ty : Ty} (h : ty.Fits) (n : Nat) :
    Safe (fun _ => True) (fun part => part.2.Fits) (select ty n) := by
  unfold select
  split
  · next fields =>
      split
      · exact Safe.failed trivial
      · next field hfield =>
          have hcount := Ty.slotsFrom_take_eq h n
          refine Safe.bind (Safe.ofExcept (.of_eq hcount)) (fun slots _ => ?_)
          exact h.field (List.mem_of_getElem? hfield)
  · have hslots := Ty.slots_eq h.elem
    refine Safe.bind (Safe.ofExcept (.of_eq hslots)) (fun slots _ => ?_)
    exact Safe.bind (checked_safe _) (fun _ _ => h.elem)
  · exact Safe.failed trivial

theorem descend_safe {indices : List ValueId} (hindices : ∀ v ∈ indices, p.HasValue v) {ty : Ty}
    (h : ty.Fits) (offset : Nat) :
    Safe (fun _ => True) (fun _ => True) (descend p ty offset indices) := by
  induction indices generalizing ty offset with
  | nil => trivial
  | cons v rest ih =>
      refine Safe.bind (index_safe (hindices v (by simp))) (fun n _ => ?_)
      refine Safe.bind (select_safe h n) (fun part hpart => ?_)
      refine Safe.bind (checked_safe _) (fun total _ => ?_)
      exact ih (fun u hu => hindices u (by simp [hu])) hpart total

theorem constant_safe {indices : List ValueId} (hindices : ∀ v ∈ indices, p.HasValue v) {ty : Ty}
    (h : ty.Fits) : Safe (fun _ => True) (fun _ => True) (constant p ty indices) := by
  have hcovered : Safe (fun _ => True) (fun _ => True) (covered p ty indices) := by
    cases indices with
    | nil => trivial
    | cons v rest =>
        refine Safe.bind (index_safe (hindices v (by simp))) (fun n _ => ?_)
        refine Safe.bind (Safe.ofExcept (.of_eq (Ty.slots_eq h))) (fun slots _ => ?_)
        refine Safe.bind (checked_safe _) (fun total _ => ?_)
        exact descend_safe (fun u hu => hindices u (by simp [hu])) h total
  refine Safe.bind hcovered (fun n _ => ?_)
  split
  · trivial
  · exact Safe.failed trivial

end Offset

/-! ## Instructions other than calls -/

/-- The error names the owner, the name and the line of an address computation that gives a
pointer. -/
def Unsupported.AtAddress (p : Program) (e : Unsupported) : Prop :=
  ∃ v inst base elem indices owner fn, p.inst? v = .ok (some inst) ∧
    inst.op = .gep base elem indices ∧ p.isPtr v = .ok true ∧ p.owner? v = .ok (some owner) ∧
    p.function owner = .ok fn ∧ e.func = fn.name ∧ p.displayName v = .ok e.inst ∧
    p.line? v = .ok e.line

def Interrupted.AtAddress (p : Program) (i : Interrupted) : Prop := i.cause.AtAddress p

/-- The element types of address computations can be counted. -/
def Program.TypesFit (p : Program) : Prop :=
  ∀ v inst base elem indices, p.inst? v = .ok (some inst) → inst.op = .gep base elem indices →
    elem.Fits

theorem Program.TypesFit.of_ops {p : Program} (h : ∀ op ∈ p.ops, ∀ elem ∈ op.elem?, elem.Fits) :
    p.TypesFit := by
  intro v inst base elem indices hinst hop
  exact h inst.op (mem_ops hinst) elem (by simp [hop, Op.elem?])

namespace Transfer

open Failing (Safe)
open Store (Grounded)

variable {p : Program} {s : Store} {v : ValueId} {inst : Inst}

theorem refuse_safe {α : Type} {P : α → Prop} (h : p.Linked) {base : ValueId} {elem : Ty}
    {indices : List ValueId} (hinst : p.inst? v = .ok (some inst))
    (hop : inst.op = .gep base elem indices) (hptr : p.isPtr v = .ok true) (reason : Reason)
    (s : Store) : Safe (Interrupted.AtAddress p) P (refuse p v reason s) := by
  obtain ⟨hv, owner, fn, howner, hfn⟩ := h.exists_owner hinst
  obtain ⟨name, hname, -⟩ := hv.displayName
  obtain ⟨line, hline, -⟩ := hv.line?
  have hunsupported : unsupported p v reason = .ok ⟨fn.name, name, line, reason⟩ := by
    simp [unsupported, howner, hfn, hname, hline, bind, Except.bind, pure, Except.pure]
  refine Safe.bind (Safe.ofExcept ⟨_, hunsupported, rfl⟩) (fun cause hcause => ?_)
  apply Safe.failed
  subst hcause
  exact ⟨v, inst, base, elem, indices, owner, fn, hinst, hop, hptr, howner, hfn, rfl, hname, hline⟩

theorem phi_gives {incoming : List ValueId} (hv : p.HasValue v)
    (hincoming : ∀ u ∈ incoming, p.HasValue u) (hs : s.Grounded p) :
    Gives (Grounded p) (phi p v incoming s) := by
  refine Gives.foldlM (fun t ht u hu => ?_) hs
  refine Gives.bind (hincoming u hu).isPtr (fun isPtr _ _ => ?_)
  split
  · refine Gives.bind (ht.operand (hincoming u hu)) (fun pointees _ hpointees => ?_)
    exact Gives.pure (ht.extend (l := .self v) hv hpointees)
  · exact Gives.pure ht

theorem load_gives {ptr : ValueId} (hv : p.HasValue v) (hptr : p.HasValue ptr)
    (hs : s.Grounded p) : Gives (Grounded p) (load p v ptr s) := by
  refine Gives.bind (hs.operand hptr) (fun sources _ hsources => Gives.pure ?_)
  refine List.foldlRecOn sources.toList _ hs (fun t ht source hsource => ?_)
  have hgrounded := hsources source (by simpa using hsource)
  exact ht.extend (l := .self v) hv (fun x hx => ht.values hgrounded hx)

theorem store_gives {update : StoreUpdate} {value ptr : ValueId} (hvalue : p.HasValue value)
    (hptr : p.HasValue ptr) (hs : s.Grounded p) :
    Gives (Grounded p) (store p update value ptr s) := by
  refine Gives.bind (hs.operand hptr) (fun targets _ htargets => ?_)
  refine Gives.bind (hs.operand hvalue) (fun pointees _ hpointees => Gives.pure ?_)
  refine List.foldlRecOn targets.toList _ hs (fun t ht target htarget => ?_)
  have hgrounded := htargets target (by simpa using htarget)
  split
  · exact ht.set hgrounded hpointees
  · exact ht.extend hgrounded hpointees

theorem forwardOperand_gives {value : ValueId} (hv : p.HasValue v) (hvalue : p.HasValue value)
    (hs : s.Grounded p) : Gives (Grounded p) (forwardOperand p v value s) := by
  refine Gives.bind (hs.operand hvalue) (fun pointees _ hpointees => Gives.pure ?_)
  exact hs.extend (l := .self v) hv hpointees

theorem ret_gives (h : p.Linked) {value : ValueId} (hv : p.HasValue v)
    (hvalue : p.HasValue value) (hs : s.Grounded p) : Gives (Grounded p) (ret p v value s) := by
  refine Gives.bind (h.owner? hv) (fun owner? _ howner => ?_)
  cases owner? with
  | none => exact Gives.pure hs
  | some owner =>
      refine Gives.bind (hs.operand hvalue) (fun pointees _ hpointees => ?_)
      refine Gives.bind (h.function (howner owner rfl)) (fun fn _ hfn => Gives.pure ?_)
      exact hs.extend (l := .returned fn.value) hfn.value hpointees

variable {base : ValueId} {elem : Ty} {indices : List ValueId}

theorem shift_safe (h : p.Linked) (hinst : p.inst? v = .ok (some inst))
    (hop : inst.op = .gep base elem indices) (hptr : p.isPtr v = .ok true)
    (hbase : p.HasValue base) (offset : Int64) (hs : s.Grounded p) :
    Safe (Interrupted.AtAddress p) (Grounded p) (shift p v base offset s) := by
  have hv := (h.exists_owner hinst).1
  refine Safe.bind (Safe.ofExcept (hs.operand hbase)) (fun pointees hpointees => ?_)
  refine Safe.foldlM (fun t ht pointee hpointee => ?_) hs
  split
  · exact ht
  · split
    · next slot _ =>
        -- The base of a pointee stays the same, only its slot moves.
        apply ht.insert (l := .self v) hv
        unfold Loc.Grounded
        rw [Loc.base_offset]
        exact hpointees pointee (by simpa using hpointee)
    · exact refuse_safe h hinst hop hptr _ t

theorem gep_safe (h : p.Linked) (hinst : p.inst? v = .ok (some inst))
    (hop : inst.op = .gep base elem indices) (hptr : p.isPtr v = .ok true)
    (hbase : p.HasValue base) (hindices : ∀ u ∈ indices, p.HasValue u) (hfits : elem.Fits)
    (hs : s.Grounded p) :
    Safe (Interrupted.AtAddress p) (Grounded p) (gep p v base elem indices s) := by
  have hv := (h.exists_owner hinst).1
  unfold gep
  split
  · exact Safe.ofExcept (forwardOperand_gives hv hbase hs)
  · have hconstant := Offset.constant_safe hindices hfits
    split
    · exact shift_safe h hinst hop hptr hbase _ hs
    · exact refuse_safe h hinst hop hptr _ s
    · next heq =>
        rw [heq] at hconstant
        exact hconstant.elim
    · trivial

/-- A transfer that leaves the store alone unless a value is a pointer. -/
theorem guarded_safe {u : ValueId} {x : Failing Interrupted Store} (hu : p.HasValue u)
    (hs : s.Grounded p)
    (hx : p.isPtr u = .ok true → Safe (Interrupted.AtAddress p) (Grounded p) x) :
    Safe (Interrupted.AtAddress p) (Grounded p)
      (do if ← (p.isPtr u : Except Fault Bool) then x else return s) := by
  obtain ⟨isPtr, hread, -⟩ := hu.isPtr
  have hanswer : Gives (fun answer => p.isPtr u = .ok answer) (p.isPtr u) := ⟨isPtr, hread, hread⟩
  refine Safe.bind (Safe.ofExcept hanswer) (fun answer hanswer => ?_)
  cases answer with
  | true => exact hx hanswer
  | false => exact hs

theorem plain_safe (h : p.Linked) (hclosed : p.Closed) (hfits : p.TypesFit) (c : Config)
    (hinst : p.inst? v = .ok (some inst)) (hs : s.Grounded p) :
    Safe (Interrupted.AtAddress p) (Grounded p) (plain p c v inst.op s) := by
  have hv := (h.exists_owner hinst).1
  have hvalues := hclosed.values v inst hinst
  unfold plain
  split
  · next incoming hop =>
      have hincoming : ∀ u ∈ incoming.map Prod.fst, p.HasValue u := fun u hu =>
        hvalues u (by simpa [hop, Op.values] using hu)
      exact guarded_safe hv hs (fun _ => Safe.ofExcept (phi_gives hv hincoming hs))
  · next ptr hop =>
      have hptr := hvalues ptr (by simp [hop, Op.values])
      exact guarded_safe hv hs (fun _ => Safe.ofExcept (load_gives hv hptr hs))
  · next value ptr hop =>
      have hvalue := hvalues value (by simp [hop, Op.values])
      have hptr := hvalues ptr (by simp [hop, Op.values])
      exact guarded_safe hvalue hs (fun _ => Safe.ofExcept (store_gives hvalue hptr hs))
  · next base elem indices hop =>
      have hbase := hvalues base (by simp [hop, Op.values])
      have hindices : ∀ u ∈ indices, p.HasValue u := fun u hu =>
        hvalues u (by simp [hop, Op.values, hu])
      have helem := hfits v inst base elem indices hinst hop
      exact guarded_safe hv hs (fun hptr => gep_safe h hinst hop hptr hbase hindices helem hs)
  · next kind value hop =>
      have hvalue := hvalues value (by simp [hop, Op.values])
      exact guarded_safe hv hs (fun _ => Safe.ofExcept (forwardOperand_gives hv hvalue hs))
  · next value hop =>
      have hvalue := hvalues value (by simp [hop, Op.values])
      exact guarded_safe hvalue hs (fun _ => Safe.ofExcept (ret_gives h hv hvalue hs))
  · exact hs

end Transfer

/-! ## Calls -/

namespace Call

open Store (Grounded)

variable {p : Program} {s before : Store} {call : ValueId}

theorem addCandidate_gives (h : p.Linked) (c : Config) {found : FuncSet}
    (hfound : ∀ f ∈ found, p.HasFunction f) {pointee : Loc} (hpointee : pointee.Grounded p) :
    Gives (fun found => ∀ f ∈ found, p.HasFunction f) (addCandidate p c found pointee) := by
  refine Gives.bind (h.asFunction? hpointee) (fun f? _ hf => ?_)
  cases f? with
  | none => exact Gives.pure hfound
  | some f =>
      refine Gives.bind ((hf f rfl).isIntrinsic c) (fun intrinsic _ _ => ?_)
      split
      · exact Gives.pure hfound
      · refine Gives.pure (fun g hg => ?_)
        rw [Std.ExtTreeSet.mem_insert, Std.LawfulEqOrd.compare_eq_iff_eq] at hg
        rcases hg with rfl | hg
        · exact hf f rfl
        · exact hfound g hg

theorem candidates_gives (h : p.Linked) (c : Config) (hs : s.Grounded p) {callee : ValueId}
    (hcallee : p.HasValue callee) :
    Gives (fun found => ∀ f ∈ found, p.HasFunction f) (candidates p c s callee) := by
  refine Gives.bind (hs.operand hcallee) (fun pointees _ hpointees => ?_)
  refine Gives.foldlM (fun found hfound pointee hpointee => ?_) (by simp)
  exact addCandidate_gives h c hfound (hpointees pointee (by simpa using hpointee))

theorem recordTargets_gives (h : p.Linked) (hcall : p.HasValue call) (hs : s.Grounded p)
    {funcs : List FuncId} (hfuncs : ∀ f ∈ funcs, p.HasFunction f) :
    Gives (Grounded p) (recordTargets p call s funcs) := by
  refine Gives.foldlM (fun t ht f hf => ?_) hs
  refine Gives.bind (h.function (hfuncs f hf)) (fun fn _ hfn => Gives.pure ?_)
  exact ht.insert (l := .callees call) (x := .self fn.value) hcall hfn.value

theorem bindParams_gives (hbefore : before.Grounded p) {params args : List ValueId}
    (hparams : ∀ v ∈ params, p.HasValue v) (hargs : ∀ v ∈ args, p.HasValue v) :
    Gives (Grounded p) (bindParams p before params args) := by
  refine Gives.foldlM (fun context hcontext ⟨param, arg⟩ hpair => ?_) hbefore
  obtain ⟨hparam, harg⟩ := List.of_mem_zip hpair
  refine Gives.bind (hargs arg harg).isPtr (fun isPtr _ _ => ?_)
  split
  · refine Gives.bind (hbefore.operand (hargs arg harg)) (fun pointees _ hpointees => ?_)
    exact Gives.pure (hcontext.extend (l := .self param) (hparams param hparam) hpointees)
  · exact Gives.pure hcontext

theorem escapes_gives (h : p.Linked) (f : FuncId) {l : Loc} (hl : l.Grounded p) :
    Gives (fun _ => True) (escapes p f l) := by
  unfold escapes
  split
  · exact Gives.pure trivial
  · exact Gives.pure trivial
  · exact Gives.bind (h.owner? hl) (fun _ _ _ => Gives.pure trivial)
  · exact Gives.pure trivial

theorem visible_gives (h : p.Linked) (f : FuncId) (hs : s.Grounded p) :
    Gives (Grounded p) (visible p f s) := by
  refine Gives.foldlM (fun kept hkept ⟨l, pointees⟩ hentry => ?_) .empty
  obtain ⟨hl, hpointees⟩ := hs l pointees (Store.mem_toList_iff.mp hentry)
  refine Gives.bind (escapes_gives h f hl) (fun isVisible _ _ => ?_)
  split
  · exact Gives.pure (hkept.set hl hpointees)
  · exact Gives.pure hkept

structure Effect.Grounded (p : Program) (effect : Effect) : Prop where
  returns : ∀ x ∈ effect.returns, x.Grounded p
  writes : effect.writes.Grounded p

theorem splice_grounded (hcall : p.HasValue call) (isPtr : Bool) (hbefore : before.Grounded p)
    {effects : List Effect} (heffects : ∀ effect ∈ effects, effect.Grounded p) :
    (splice call isPtr before effects).Grounded p := by
  have hreturns : ∀ x ∈ allReturns effects, x.Grounded p := by
    unfold allReturns
    refine List.foldlRecOn effects _ (motive := fun all : LocSet => ∀ x ∈ all, x.Grounded p)
      (by simp) ?_
    intro all hall effect heffect x hx
    rcases Std.ExtTreeSet.mem_union_iff.mp hx with hx | hx
    · exact hall x hx
    · exact (heffects effect heffect).returns x hx
  have hwrites : (allWrites effects).Grounded p := by
    unfold allWrites
    refine List.foldlRecOn effects _ .empty (fun all hall effect heffect => ?_)
    exact hall.absorb (heffects effect heffect).writes
  unfold splice
  dsimp only
  refine List.foldlRecOn (allWrites effects).toList _ ?_ ?_
  · have hadded : ∀ x ∈ if isPtr then allReturns effects else ∅, x.Grounded p := by
      cases isPtr with
      | true => exact hreturns
      | false => simp
    generalize (if isPtr then allReturns effects else ∅) = returns at hadded
    split
    · exact hbefore
    · exact hbefore.extend (l := .self call) hcall hadded
  · intro t ht ⟨l, pointees⟩ hentry
    obtain ⟨hl, hpointees⟩ := hwrites l pointees (Store.mem_toList_iff.mp hentry)
    dsimp only
    split
    · exact ht.set hl hpointees
    · apply ht.set hl
      intro x hx
      rcases Std.ExtTreeSet.mem_union_iff.mp hx with hx | hx
      · exact hpointees x hx
      · exact hbefore.values hl hx

end Call

/-! ## What is read off a store -/

namespace Store.Grounded

variable {p : Program} {s : Store}

theorem text (h : s.Grounded p) : Gives (fun _ => True) (s.text p) := by
  have hpointee : ∀ x : Loc, x.Grounded p → Gives (fun _ => True) (pointeeText p x) := by
    intro x hx
    refine Gives.bind (Program.HasValue.displayName hx) (fun name _ _ => ?_)
    split <;> exact Gives.pure trivial
  refine Gives.bind (Gives.mapM (fun entry hentry => ?_)) (fun _ _ _ => Gives.pure trivial)
  obtain ⟨hl, hpointees⟩ := h entry.1 entry.2 (mem_toList_iff.mp hentry)
  refine Gives.bind (Program.HasValue.displayName hl) (fun name _ _ => ?_)
  have htargets : Gives (fun _ => True) (entry.2.toList.mapM (pointeeText p)) :=
    Gives.mapM (fun x hx => hpointee x (hpointees x (by simpa using hx)))
  exact Gives.bind htargets (fun _ _ _ => Gives.pure trivial)

theorem ofSummary (h : s.Grounded p) (hlinked : p.Linked) :
    Gives (fun _ => True) (Edges.ofSummary p s) := by
  refine Gives.foldlM (fun edges _ ⟨l, pointees⟩ hentry => ?_) trivial
  obtain ⟨hl, hpointees⟩ := h l pointees (mem_toList_iff.mp hentry)
  have hcallees : Gives (fun _ => True) (Edges.calleesOf p pointees) := by
    refine Gives.foldlM (fun found _ x hx => ?_) trivial
    refine Gives.bind (hlinked.asFunction? (hpointees x (by simpa using hx))) (fun f? _ _ => ?_)
    cases f? <;> exact Gives.pure trivial
  have hsite : Gives (fun _ => True) (Edges.siteOf p l.base) := by
    refine Gives.bind (Program.HasValue.line? hl) (fun line? _ _ => ?_)
    cases line? <;> exact Gives.pure trivial
  dsimp only
  unfold Edges.addEntry
  split
  · refine Gives.bind hcallees (fun callees _ _ => ?_)
    split
    · exact Gives.pure trivial
    · exact Gives.bind hsite (fun _ _ _ => Gives.pure trivial)
  · exact Gives.pure trivial

end Store.Grounded

end CallTargets
