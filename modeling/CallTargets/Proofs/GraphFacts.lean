import CallTargets.Flow.Graph
import CallTargets.Proofs.Outcome

/-!
# Flow graphs against the program

What the tables of a flow graph say about the program that it was made from: a block of
the function is a predecessor of exactly the blocks that it branches to, every block of
the visiting order can be read, and no block has more than two successors.
-/

namespace CallTargets

namespace Op

theorem length_targets_le (op : Op) : op.targets.length ≤ 2 := by
  cases op with
  | condBr cond thenDest elseDest =>
      by_cases h : thenDest = elseDest <;> simp [targets, h]
  | _ => simp [targets]

end Op

namespace Program

variable {p : Program}

theorem length_successors_le {b : BlockId} {succs : List BlockId}
    (h : p.successors b = .ok succs) : succs.length ≤ 2 := by
  obtain ⟨op?, -, h⟩ := bind_eq_ok_iff.mp h
  cases h
  cases op? with
  | none => simp
  | some op => exact op.length_targets_le

theorem exists_block_of_successors {b : BlockId} {succs : List BlockId}
    (h : p.successors b = .ok succs) : ∃ block, p.block b = .ok block := by
  obtain ⟨op?, hop, -⟩ := bind_eq_ok_iff.mp h
  obtain ⟨block, hblock, -⟩ := bind_eq_ok_iff.mp hop
  exact ⟨block, hblock⟩

/-- The instructions in the blocks of a function. -/
def bodyOf (p : Program) (f : FuncId) : List ValueId :=
  (p.function f).toOption.toList.flatMap fun fn =>
    fn.blocks.flatMap fun b => (p.block b).toOption.toList.flatMap fun block => block.insts.toList

theorem mem_bodyOf {p : Program} {f : FuncId} {v : ValueId} :
    v ∈ p.bodyOf f ↔ ∃ fn, p.function f = .ok fn ∧ ∃ b ∈ fn.blocks, ∃ block,
      p.block b = .ok block ∧ v ∈ block.insts := by
  simp [bodyOf, mem_toOption_iff]

/-- A block that control can get to from the entry block through blocks of the function. -/
inductive Reaches (p : Program) (fn : Function) : BlockId → Prop where
  | entry {b : BlockId} (h : fn.entryBlock? = some b) : Reaches p fn b
  | branch {a b : BlockId} {succs : List BlockId} (h : Reaches p fn a) (ha : a ∈ fn.blocks)
      (hsuccs : p.successors a = .ok succs) (hb : b ∈ succs) : Reaches p fn b

/-! ## Predecessors -/

theorem mem_notePredecessor {pred a b : BlockId} {preds : Std.ExtTreeMap BlockId (List BlockId)}
    {succs : List BlockId} :
    a ∈ (notePredecessor pred preds succs).getD b [] ↔
      a ∈ preds.getD b [] ∨ (a = pred ∧ b ∈ succs) := by
  induction succs generalizing preds with
  | nil => simp [notePredecessor]
  | cons succ succs ih =>
      have hfold : notePredecessor pred preds (succ :: succs) =
          notePredecessor pred (preds.insert succ (preds.getD succ [] ++ [pred])) succs := rfl
      rw [hfold, ih, Std.ExtTreeMap.getD_insert]
      by_cases h : succ = b
      · subst h
        rw [if_pos Std.ReflOrd.compare_self, List.mem_append, List.mem_singleton]
        simp only [List.mem_cons, true_or, and_true]
        constructor
        · rintro ((hold | rfl) | ⟨rfl, -⟩)
          · exact Or.inl hold
          · exact Or.inr rfl
          · exact Or.inr rfl
        · exact Or.inl
      · have hne : b ≠ succ := Ne.symm h
        rw [if_neg (fun heq => h (Std.LawfulEqOrd.eq_of_compare heq))]
        simp [hne]

/-- The predecessors gathered from some blocks, on top of those that were known. -/
theorem mem_gathered_preds {blocks : List BlockId}
    {start preds : Std.ExtTreeMap BlockId (List BlockId)}
    (h : blocks.foldlM
      (fun preds b => return notePredecessor b preds (← p.successors b)) start = .ok preds) :
    (∀ a ∈ blocks, ∃ succs, p.successors a = .ok succs) ∧
      ∀ a b, a ∈ preds.getD b [] ↔
        a ∈ start.getD b [] ∨ (a ∈ blocks ∧ ∃ succs, p.successors a = .ok succs ∧ b ∈ succs) := by
  induction blocks generalizing start with
  | nil =>
      cases h
      simp
  | cons first blocks ih =>
      rw [List.foldlM_cons] at h
      obtain ⟨noted, hnoted, h⟩ := bind_eq_ok_iff.mp h
      obtain ⟨succs, hsuccs, hnoted⟩ := bind_eq_ok_iff.mp hnoted
      cases hnoted
      obtain ⟨hread, hmem⟩ := ih h
      refine ⟨?_, fun a b => ?_⟩
      · intro a ha
        rcases List.mem_cons.mp ha with rfl | ha
        · exact ⟨succs, hsuccs⟩
        · exact hread a ha
      · rw [hmem a b, mem_notePredecessor]
        constructor
        · rintro ((hold | ⟨rfl, hb⟩) | ⟨ha, hb⟩)
          · exact Or.inl hold
          · exact Or.inr ⟨by simp, succs, hsuccs, hb⟩
          · exact Or.inr ⟨by simp [ha], hb⟩
        · rintro (hold | ⟨ha, succs', hsuccs', hb⟩)
          · exact Or.inl (Or.inl hold)
          · rcases List.mem_cons.mp ha with rfl | ha
            · rw [hsuccs] at hsuccs'
              cases hsuccs'
              exact Or.inl (Or.inr ⟨rfl, hb⟩)
            · exact Or.inr ⟨ha, succs', hsuccs', hb⟩

theorem getD_foldl_insert_nil (blocks : List BlockId) (b : BlockId)
    (start : Std.ExtTreeMap BlockId (List BlockId)) (hstart : start.getD b [] = []) :
    (blocks.foldl (fun preds b => preds.insert b []) start).getD b [] = [] := by
  induction blocks generalizing start with
  | nil => exact hstart
  | cons first blocks ih =>
      rw [List.foldl_cons]
      refine ih _ ?_
      rw [Std.ExtTreeMap.getD_insert]
      split
      · rfl
      · exact hstart

theorem mem_predecessors {f : FuncId} {fn : Function}
    {preds : Std.ExtTreeMap BlockId (List BlockId)} (hfn : p.function f = .ok fn)
    (h : p.predecessors f = .ok preds) :
    (∀ a ∈ fn.blocks, ∃ succs, p.successors a = .ok succs) ∧
      ∀ a b, a ∈ preds.getD b [] ↔
        a ∈ fn.blocks ∧ ∃ succs, p.successors a = .ok succs ∧ b ∈ succs := by
  obtain ⟨fn', hfn', h⟩ := bind_eq_ok_iff.mp h
  rw [hfn] at hfn'
  cases hfn'
  obtain ⟨hread, hmem⟩ := mem_gathered_preds h
  refine ⟨hread, fun a b => ?_⟩
  rw [hmem, getD_foldl_insert_nil fn.blocks b ∅ (by simp)]
  simp

end Program

/-! ## The visiting order -/

namespace Search

variable {p : Program}

/-- A search finishes only blocks whose successors can be read. -/
theorem successors_of_mem_finished {depth : Nat} {search search' : Search} {b : BlockId}
    (h : visit p depth search b = .ok search')
    (hsearch : ∀ x ∈ search.finished, ∃ succs, p.successors x = .ok succs) :
    ∀ x ∈ search'.finished, ∃ succs, p.successors x = .ok succs := by
  induction depth generalizing search search' b with
  | zero =>
      cases h
      exact hsearch
  | succ depth ih =>
      obtain ⟨succs, hsuccs, h⟩ := bind_eq_ok_iff.mp h
      obtain ⟨explored, hexplored, h⟩ := bind_eq_ok_iff.mp h
      cases h
      have hread : ∀ x ∈ explored.finished, ∃ succs, p.successors x = .ok succs := by
        refine foldlM_ok_induction hexplored
          (fun found => ∀ x ∈ found.finished, ∃ succs, p.successors x = .ok succs)
          hsearch (fun found succ found' _ hfound hstep => ?_)
        split at hstep
        · cases hstep
          exact hfound
        · exact ih hstep hfound
      intro x hx
      rcases List.mem_cons.mp hx with rfl | hx
      · exact ⟨succs, hsuccs⟩
      · exact hread x hx

end Search

namespace FlowGraph

/-- The graph `g` is the flow graph of the function `func`, whose entry in the table of
functions is `fn`. -/
structure Of (p : Program) (func : FuncId) (fn : Function) (g : FlowGraph) : Prop where
  function_eq : p.function func = .ok fn
  entry_eq : fn.entryBlock? = some g.entry
  layout_eq : g.layout = fn.blocks
  order_eq : p.visitingOrder fn = .ok g.order
  successors_eq : ∀ b ∈ g.order, p.successors b = .ok (g.succs b)
  insts_eq : ∀ b ∈ g.order, ∃ block, p.block b = .ok block ∧ g.insts b = block.insts.toList
  mem_preds_iff : ∀ a b, a ∈ g.preds b ↔ a ∈ g.layout ∧ b ∈ g.succs a

theorem of_ofFunction {p : Program} {func : FuncId} {g : FlowGraph}
    (h : ofFunction p func = .ok (some g)) : ∃ fn, Of p func fn g := by
  obtain ⟨fn, hfn, h⟩ := bind_eq_ok_iff.mp h
  refine ⟨fn, ?_⟩
  cases hentry : fn.entryBlock? with
  | none =>
      rw [hentry] at h
      cases h
  | some entry =>
      simp only [hentry] at h
      obtain ⟨order, horder, h⟩ := bind_eq_ok_iff.mp h
      obtain ⟨preds, hpreds, h⟩ := bind_eq_ok_iff.mp h
      cases h
      obtain ⟨hlayout, hmem⟩ := Program.mem_predecessors hfn hpreds
      have hread : ∀ b ∈ order, ∃ succs, p.successors b = .ok succs := by
        rw [Program.visitingOrder, hentry] at horder
        obtain ⟨search, hsearch, horder⟩ := bind_eq_ok_iff.mp horder
        cases horder
        intro b hb
        rcases List.mem_append.mp hb with hb | hb
        · exact Search.successors_of_mem_finished hsearch (by simp) b hb
        · exact hlayout b (List.mem_filter.mp hb).1
      refine ⟨hfn, hentry, rfl, horder, fun b hb => ?_, fun b hb => ?_, fun a b => ?_⟩
      · obtain ⟨succs, hsuccs⟩ := hread b hb
        simp [hsuccs, Except.toOption]
      · obtain ⟨succs, hsuccs⟩ := hread b hb
        obtain ⟨block, hblock⟩ := Program.exists_block_of_successors hsuccs
        exact ⟨block, hblock, by simp [hblock, Except.toOption]⟩
      · rw [hmem]
        refine and_congr_right (fun ha => ?_)
        obtain ⟨succs, hsuccs⟩ := hlayout a ha
        simp [hsuccs, Except.toOption]

theorem entryBlock?_of_ofFunction_eq_none {p : Program} {func : FuncId}
    (h : ofFunction p func = .ok none) :
    ∃ fn, p.function func = .ok fn ∧ fn.entryBlock? = none := by
  obtain ⟨fn, hfn, h⟩ := bind_eq_ok_iff.mp h
  refine ⟨fn, hfn, ?_⟩
  cases hentry : fn.entryBlock? with
  | none => rfl
  | some entry =>
      simp only [hentry] at h
      obtain ⟨order, -, h⟩ := bind_eq_ok_iff.mp h
      obtain ⟨preds, -, h⟩ := bind_eq_ok_iff.mp h
      cases h

namespace Of

variable {p : Program} {func : FuncId} {fn : Function} {g : FlowGraph}

theorem entry_mem_layout (h : Of p func fn g) : g.entry ∈ g.layout := by
  rw [h.layout_eq]
  exact List.mem_of_mem_head? h.entry_eq

theorem length_succs_le (h : Of p func fn g) {b : BlockId} (hb : b ∈ g.order) :
    (g.succs b).length ≤ 2 :=
  Program.length_successors_le (h.successors_eq b hb)

end Of

end FlowGraph

end CallTargets
