import CallTargets.Analysis.Transfer
import CallTargets.Proofs.Outcome
import CallTargets.Proofs.StoreJoin

/-!
# What flows through single instructions

An instruction that is not a call reads its operands, follows some of the pointees that it
finds, and writes what it has found to its own result, to a return value or to the targets of a
store.  An invariant of stores is kept by this if operands bring in nothing but allowed pointees
and if allowed pointees may be written.
-/

namespace CallTargets

/-- The operands through which a pointer can get into an instruction. -/
def Op.pointers : Op → List ValueId
  | load ptr => [ptr]
  | store value ptr => [value, ptr]
  | gep base _ _ => [base]
  | cast _ value => [value]
  | phi incoming => incoming.map Prod.fst
  | call callee args => callee :: args
  | ret value => value.toList
  | _ => []

theorem Store.insert_eq_extend (s : Store) (l x : Loc) :
    s.insert l x = s.extend l ((∅ : LocSet).insert x) := by
  apply congrArg (s.set l)
  apply Std.ExtTreeSet.ext_mem
  intro y
  rw [Std.ExtTreeSet.mem_union_iff, mem_insert_empty_iff, Std.ExtTreeSet.mem_insert,
    Std.LawfulEqOrd.compare_eq_iff_eq, eq_comm, or_comm]

namespace Transfer

variable {p : Program} {c : Config} {s s' : Store}

/-- The instruction `v` brings nothing but pointees with the property `V` to its result or to a
return value, and there they do no harm to the property `P` of stores.  At a phi only pointers are
read. -/
structure ResultFlow (p : Program) (v : ValueId) (op : Op) (P : Store → Prop) (V : Loc → Prop) :
    Prop where
  operand : ∀ {s w e}, P s → w ∈ op.pointers →
    (∀ incoming, op = .phi incoming → p.isPtr v = .ok true ∧ p.isPtr w = .ok true) →
    s.operand p w = .ok e → ∀ x ∈ e, V x
  values : ∀ {s l}, P s → V l → ∀ x ∈ s.values l, V x
  offset : ∀ {l} k, V l → V (.offset l.base k)
  result : ∀ {s e}, P s → (∀ x ∈ e, V x) → P (s.extend (.self v) e)
  returned : ∀ {s e} func, P s → (∀ x ∈ e, V x) → P (s.extend (.returned func) e)

/-- The same with what a store writes to its targets. -/
structure Flow (p : Program) (v : ValueId) (op : Op) (P : Store → Prop) (V : Loc → Prop) : Prop
    extends ResultFlow p v op P V where
  overwrite : ∀ {s l e}, P s → V l → (∀ x ∈ e, V x) → P (s.set l e)
  add : ∀ {s l e}, P s → V l → (∀ x ∈ e, V x) → P (s.extend l e)

theorem eq_or_of_guard {w : ValueId} {x : Failing Interrupted Store}
    (h : (do if ← (p.isPtr w : Except Fault Bool) then x else return s :
      Failing Interrupted Store) = .ok s') :
    s' = s ∨ p.isPtr w = .ok true ∧ x = .ok s' := by
  obtain ⟨isPtr, hptr, h⟩ := bind_eq_ok_iff.mp h
  cases isPtr with
  | false =>
      cases h
      exact Or.inl rfl
  | true => exact Or.inr ⟨Failing.ofExcept_eq_ok_iff.mp hptr, h⟩

section

variable {v : ValueId} {P : Store → Prop} {V : Loc → Prop}

namespace ResultFlow

theorem phi {incoming : List (ValueId × BlockId)} (h : ResultFlow p v (.phi incoming) P V)
    (hptr : p.isPtr v = .ok true) (hs : P s)
    (hphi : Transfer.phi p v (incoming.map Prod.fst) s = .ok s') : P s' := by
  apply foldlM_ok_induction hphi P hs
  intro t w t' hw ht hstep
  obtain ⟨isPtr, hwptr, hstep⟩ := bind_eq_ok_iff.mp hstep
  cases isPtr with
  | false =>
      cases hstep
      exact ht
  | true =>
      obtain ⟨pointees, hpointees, hstep⟩ := bind_eq_ok_iff.mp hstep
      cases hstep
      apply h.result ht
      exact h.operand ht hw (fun _ _ => ⟨hptr, hwptr⟩) hpointees

theorem load {ptr : ValueId} (h : ResultFlow p v (.load ptr) P V) (hs : P s)
    (hload : Transfer.load p v ptr s = .ok s') : P s' := by
  obtain ⟨sources, hsources, hload⟩ := bind_eq_ok_iff.mp hload
  cases hload
  have hallowed := h.operand hs (by simp [Op.pointers]) nofun hsources
  refine List.foldlRecOn sources.toList _ hs (fun t ht source hsource => ?_)
  apply h.result ht
  exact h.values ht (hallowed source (Std.ExtTreeSet.mem_toList.mp hsource))

theorem forwardOperand {op : Op} {value : ValueId} (h : ResultFlow p v op P V)
    (hvalue : value ∈ op.pointers) (hphi : ∀ incoming, op ≠ .phi incoming) (hs : P s)
    (hforward : Transfer.forwardOperand p v value s = .ok s') : P s' := by
  obtain ⟨pointees, hpointees, hforward⟩ := bind_eq_ok_iff.mp hforward
  cases hforward
  apply h.result hs
  exact h.operand hs hvalue (fun incoming hop => absurd hop (hphi incoming)) hpointees

theorem shift {base : ValueId} {elem : Ty} {indices : List ValueId} {offset : Int64}
    (h : ResultFlow p v (.gep base elem indices) P V) (hs : P s)
    (hshift : Transfer.shift p v base offset s = .ok s') : P s' := by
  obtain ⟨pointees, hpointees, hshift⟩ := bind_eq_ok_iff.mp hshift
  have hallowed := h.operand hs (by simp [Op.pointers]) nofun
    (Failing.ofExcept_eq_ok_iff.mp hpointees)
  apply foldlM_ok_induction hshift P hs
  intro t pointee t' hpointee ht hstep
  split at hstep
  · cases hstep
    exact ht
  · split at hstep
    · cases hstep
      rw [Store.insert_eq_extend]
      apply h.result ht
      intro x hx
      rw [mem_insert_empty_iff.mp hx]
      exact h.offset _ (hallowed pointee (Std.ExtTreeSet.mem_toList.mp hpointee))
    · obtain ⟨cause, -, hstep⟩ := bind_eq_ok_iff.mp hstep
      cases hstep

theorem gep {base : ValueId} {elem : Ty} {indices : List ValueId}
    (h : ResultFlow p v (.gep base elem indices) P V) (hs : P s)
    (hgep : Transfer.gep p v base elem indices s = .ok s') : P s' := by
  unfold Transfer.gep at hgep
  split at hgep
  · exact h.forwardOperand (by simp [Op.pointers]) nofun hs (Failing.ofExcept_eq_ok_iff.mp hgep)
  · split at hgep
    · exact h.shift hs hgep
    · obtain ⟨cause, -, hgep⟩ := bind_eq_ok_iff.mp hgep
      cases hgep
    · cases hgep
    · cases hgep

theorem ret {value : ValueId} (h : ResultFlow p v (.ret (some value)) P V) (hs : P s)
    (hret : Transfer.ret p v value s = .ok s') : P s' := by
  obtain ⟨owner?, -, hret⟩ := bind_eq_ok_iff.mp hret
  cases owner? with
  | none =>
      cases hret
      exact hs
  | some func =>
      obtain ⟨pointees, hpointees, hret⟩ := bind_eq_ok_iff.mp hret
      obtain ⟨fn, -, hret⟩ := bind_eq_ok_iff.mp hret
      cases hret
      apply h.returned _ hs
      exact h.operand hs (by simp [Op.pointers]) nofun hpointees

/-- An instruction that neither is a call nor stores a pointer keeps the invariant. -/
theorem plain {op : Op} (h : ResultFlow p v op P V)
    (hstore : ∀ value ptr, op = .store value ptr → p.isPtr value ≠ .ok true) (hs : P s)
    (hplain : Transfer.plain p c v op s = .ok s') : P s' := by
  cases op with
  | phi incoming =>
      rcases eq_or_of_guard hplain with rfl | ⟨hptr, hplain⟩
      · exact hs
      · exact h.phi hptr hs (Failing.ofExcept_eq_ok_iff.mp hplain)
  | load ptr =>
      rcases eq_or_of_guard hplain with rfl | ⟨-, hplain⟩
      · exact hs
      · exact h.load hs (Failing.ofExcept_eq_ok_iff.mp hplain)
  | store value ptr =>
      rcases eq_or_of_guard hplain with rfl | ⟨hptr, -⟩
      · exact hs
      · exact absurd hptr (hstore value ptr rfl)
  | gep base elem indices =>
      rcases eq_or_of_guard hplain with rfl | ⟨-, hplain⟩
      · exact hs
      · exact h.gep hs hplain
  | cast kind value =>
      rcases eq_or_of_guard hplain with rfl | ⟨-, hplain⟩
      · exact hs
      · exact h.forwardOperand (by simp [Op.pointers]) nofun hs
          (Failing.ofExcept_eq_ok_iff.mp hplain)
  | ret value =>
      cases value with
      | none =>
          cases hplain
          exact hs
      | some value =>
          rcases eq_or_of_guard hplain with rfl | ⟨-, hplain⟩
          · exact hs
          · exact h.ret hs (Failing.ofExcept_eq_ok_iff.mp hplain)
  | alloca | call | br | condBr | binOp | icmp | unreachable =>
      cases hplain
      exact hs

end ResultFlow

namespace Flow

theorem store {update : StoreUpdate} {value ptr : ValueId} (h : Flow p v (.store value ptr) P V)
    (hs : P s) (hstore : Transfer.store p update value ptr s = .ok s') : P s' := by
  obtain ⟨targets, htargets, hstore⟩ := bind_eq_ok_iff.mp hstore
  obtain ⟨pointees, hpointees, hstore⟩ := bind_eq_ok_iff.mp hstore
  cases hstore
  have hallowed := h.operand hs (by simp [Op.pointers]) nofun hpointees
  refine List.foldlRecOn targets.toList _ hs (fun t ht target htarget => ?_)
  have htarget : V target := by
    apply h.operand hs (by simp [Op.pointers]) nofun htargets
    exact Std.ExtTreeSet.mem_toList.mp htarget
  split
  · exact h.overwrite ht htarget hallowed
  · exact h.add ht htarget hallowed

/-- An instruction that is not a call keeps the invariant. -/
theorem plain {op : Op} (h : Flow p v op P V) (hs : P s)
    (hplain : Transfer.plain p c v op s = .ok s') : P s' := by
  by_cases hstore : ∃ value ptr, op = .store value ptr
  · obtain ⟨value, ptr, rfl⟩ := hstore
    rcases eq_or_of_guard hplain with rfl | ⟨-, hplain⟩
    · exact hs
    · exact h.store hs (Failing.ofExcept_eq_ok_iff.mp hplain)
  · refine h.toResultFlow.plain (fun value ptr hop => ?_) hs hplain
    exact absurd ⟨value, ptr, hop⟩ hstore

end Flow

end

end Transfer

end CallTargets
