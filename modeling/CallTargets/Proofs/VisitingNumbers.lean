import CallTargets.Proofs.ListedOnce
import CallTargets.Proofs.SearchStack
import CallTargets.Proofs.SinglePass
import Mathlib.Data.Set.Function

/-!
# The numbers of the blocks

The number of a block is its place in the visiting order.  The blocks that control can get to
from the entry block have the first numbers, in a reverse post-order of the search, and the other
blocks of the function follow as they are laid out.  No two blocks share a number and none is left
out.  So a queue that is sorted by numbers loses no block, and the solver takes from it what comes
first in the visiting order.
-/

namespace CallTargets

open Relation (ReflTransGen)

/-! ## Places in a list -/

section Places

variable {order : List BlockId} {a b : BlockId} {i : Nat}

/-- In a part of a list the entries stand as they do in the whole list. -/
theorem idxOf_lt_iff_of_sublist {l part : List BlockId} (hpart : part.Sublist l) (hl : l.Nodup)
    (ha : a ∈ part) (hb : b ∈ part) : part.idxOf a < part.idxOf b ↔ l.idxOf a < l.idxOf b := by
  induction hpart with
  | slnil => cases ha
  | @cons part l first hpart ih =>
      obtain ⟨hfirst, hl⟩ := List.nodup_cons.mp hl
      have hne : ∀ x ∈ part, first ≠ x := by
        rintro x hx rfl
        exact hfirst (hpart.subset hx)
      rw [List.idxOf_cons_ne l (hne a ha), List.idxOf_cons_ne l (hne b hb), ih hl ha hb]
      omega
  | @cons_cons part l first hpart ih =>
      obtain ⟨hfirst, hl⟩ := List.nodup_cons.mp hl
      by_cases hb' : first = b
      · subst hb'
        simp
      by_cases ha' : first = a
      · subst ha'
        simp [List.idxOf_cons_ne _ hb']
      · have hrest := ih hl ((List.mem_cons.mp ha).resolve_left (Ne.symm ha'))
          ((List.mem_cons.mp hb).resolve_left (Ne.symm hb'))
        simp only [List.idxOf_cons_ne _ ha', List.idxOf_cons_ne _ hb']
        omega

/-- The place of every block in a list, the last one if there are several. -/
def numbering (order : List BlockId) : Std.ExtTreeMap BlockId Nat := .ofList order.zipIdx

theorem pairwise_zipIdx (h : order.Nodup) :
    order.zipIdx.Pairwise fun x y => ¬ compare x.1 y.1 = .eq := by
  have hfst : (order.zipIdx.map Prod.fst).Nodup := by rwa [List.zipIdx_map_fst]
  exact (List.pairwise_map.mp hfst).imp fun hne heq => hne (Std.LawfulEqOrd.eq_of_compare heq)

theorem mem_numbering : b ∈ numbering order ↔ b ∈ order := by
  rw [numbering, Std.ExtTreeMap.mem_ofList, List.zipIdx_map_fst, List.contains_iff_mem]

theorem size_numbering (h : order.Nodup) : (numbering order).size = order.length := by
  rw [numbering, Std.ExtTreeMap.size_ofList (pairwise_zipIdx h), List.length_zipIdx]

theorem getElem?_numbering_of_mem (h : order.Nodup) (hb : b ∈ order) :
    (numbering order)[b]? = some (order.idxOf b) := by
  refine Std.ExtTreeMap.getElem?_ofList_of_mem Std.ReflOrd.compare_self (pairwise_zipIdx h) ?_
  exact List.mk_mem_zipIdx_iff_getElem?.mpr (List.getElem?_idxOf hb)

theorem getElem?_numbering (h : order.Nodup) :
    (numbering order)[b]? = some i ↔ b ∈ order ∧ order.idxOf b = i := by
  constructor
  · intro hi
    have hb : b ∈ order :=
      mem_numbering.mp (Std.ExtTreeMap.mem_iff_isSome_getElem?.mpr (by rw [hi]; rfl))
    rw [getElem?_numbering_of_mem h hb] at hi
    exact ⟨hb, Option.some.inj hi⟩
  · rintro ⟨hb, rfl⟩
    exact getElem?_numbering_of_mem h hb

theorem bijOn_numbering (h : order.Nodup) :
    Set.BijOn (fun b => (numbering order).getD b 0) {b | b ∈ order} (Set.Iio order.length) := by
  have hplace : ∀ b ∈ order, (numbering order).getD b 0 = order.idxOf b := by
    intro b hb
    rw [Std.ExtTreeMap.getD_eq_getD_getElem?, getElem?_numbering_of_mem h hb, Option.getD_some]
  refine ⟨fun b hb => ?_, fun a ha b hb heq => ?_, fun i hi => ?_⟩
  · exact (hplace b hb).trans_lt (List.idxOf_lt_length_of_mem hb)
  · simp only [hplace a ha, hplace b hb] at heq
    exact (List.idxOf_inj ha).mp heq
  · have hmem : order[i] ∈ order := List.getElem_mem hi
    exact ⟨order[i], hmem, (hplace _ hmem).trans (h.idxOf_getElem i hi)⟩

end Places

/-! ## Numbers -/

namespace Program

/-- Numbers that make up a reverse post-order: they are given to the blocks of the function and to
those that control can get to, and count these from the entry block on.  An edge between blocks
that control can get to leads to a higher number unless it closes a loop.  The other blocks come
after them, as they are laid out. -/
structure Numbers (p : Program) (fn : Function) (number : Std.ExtTreeMap BlockId Nat) : Prop where
  mem_iff : ∀ b, b ∈ number ↔ b ∈ fn.blocks ∨ p.Reachable fn b
  bijOn : Set.BijOn (fun b => number.getD b 0) {b | b ∈ number} (Set.Iio number.size)
  entry : ∀ b, fn.entryBlock? = some b → number[b]? = some 0
  reachable_lt : ∀ a b i j, number[a]? = some i → number[b]? = some j →
    p.Reachable fn a → ¬ p.Reachable fn b → i < j
  layout_iff : ∀ a b i j, number[a]? = some i → number[b]? = some j →
    ¬ p.Reachable fn a → ¬ p.Reachable fn b →
    (i < j ↔ fn.blocks.idxOf a < fn.blocks.idxOf b)
  branch_lt : ∀ a b i j, number[a]? = some i → number[b]? = some j →
    p.Reachable fn a → p.Reachable fn b → p.Branches a b → ¬ ReflTransGen p.Branches b a → i < j

variable {p : Program} {fn : Function} {reached rest : List BlockId}

theorem OrderParts.numbers (h : p.OrderParts fn reached rest) (hnodup : fn.blocks.Nodup) :
    p.Numbers fn (numbering (reached ++ rest)) := by
  have horder := h.nodup_append hnodup
  have hrest : ∀ b, b ∈ reached ++ rest → ¬ p.Reachable fn b → b ∈ rest :=
    fun b hb hnot => h.mem_rest_iff.mpr ⟨(h.mem_iff.mp hb).resolve_right hnot, hnot⟩
  have hat : ∀ b i, (numbering (reached ++ rest))[b]? = some i →
      b ∈ reached ++ rest ∧ (reached ++ rest).idxOf b = i :=
    fun b i hb => (getElem?_numbering horder).mp hb
  constructor
  case mem_iff => exact fun b => mem_numbering.trans h.mem_iff
  case bijOn =>
    simp only [mem_numbering, size_numbering horder]
    exact bijOn_numbering horder
  case entry =>
    intro b hb
    have hhead : reached.head? = some b := h.head.trans hb
    obtain ⟨others, rfl⟩ := List.head?_eq_some_iff.mp hhead
    exact (getElem?_numbering horder).mpr ⟨by simp, by simp⟩
  case reachable_lt =>
    intro a b i j hi hj ha hb
    obtain ⟨-, rfl⟩ := hat a i hi
    obtain ⟨-, rfl⟩ := hat b j hj
    rw [(h.idxOf_of_reachable ha).1, h.idxOf_of_not_reachable hb]
    exact Nat.lt_add_right _ (h.idxOf_of_reachable ha).2
  case layout_iff =>
    intro a b i j hi hj ha hb
    obtain ⟨hamem, rfl⟩ := hat a i hi
    obtain ⟨hbmem, rfl⟩ := hat b j hj
    have hpart : rest.Sublist fn.blocks := by
      rw [h.rest_eq]
      exact List.filter_sublist
    rw [h.idxOf_of_not_reachable ha, h.idxOf_of_not_reachable hb, Nat.add_lt_add_iff_left]
    exact idxOf_lt_iff_of_sublist hpart hnodup (hrest a hamem ha) (hrest b hbmem hb)
  case branch_lt =>
    intro a b i j hi hj ha _ hab hback
    obtain ⟨-, rfl⟩ := hat a i hi
    obtain ⟨-, rfl⟩ := hat b j hj
    exact h.idxOf_lt_of_branch ha hab hback

end Program

/-- The solver goes by these numbers: it always visits the pending block with the lowest one. -/
theorem Solver.next?_eq_some_iff {g : FlowGraph} {pending : Std.ExtTreeSet BlockId} {b : BlockId}
    (hnodup : g.order.Nodup) (hpending : ∀ a ∈ pending, a ∈ g.order) :
    next? g pending = some b ↔ b ∈ pending ∧ ∀ a ∈ pending, ∀ i j,
      (numbering g.order)[b]? = some i → (numbering g.order)[a]? = some j → i ≤ j := by
  have hfirst : ∀ {c}, next? g pending = some c → ∀ a ∈ pending,
      g.order.idxOf c ≤ g.order.idxOf a := by
    intro c hc a ha
    by_cases hac : a = c
    · rw [hac]
    · exact (idxOf_lt_of_next? hc ha hac).le
  simp only [getElem?_numbering hnodup]
  constructor
  · intro hb
    refine ⟨(mem_of_next? hb).2, ?_⟩
    rintro a ha i j ⟨-, rfl⟩ ⟨-, rfl⟩
    exact hfirst hb a ha
  · rintro ⟨hb, hleast⟩
    obtain ⟨c, hc⟩ : ∃ c, next? g pending = some c := by
      rw [← Option.isSome_iff_exists, next?, List.find?_isSome]
      exact ⟨b, hpending b hb, by simpa using hb⟩
    obtain ⟨hcorder, hcmem⟩ := mem_of_next? hc
    have hle := hleast c hcmem _ _ ⟨hpending b hb, rfl⟩ ⟨hcorder, rfl⟩
    rw [hc, (List.idxOf_inj hcorder).mp (Nat.le_antisymm (hfirst hc b hb) hle)]

/-- In a program that was built step by step, whose branches lead to blocks that exist and whose
blocks are not more than there are identifiers, every function has a visiting order.  A search with
a stack finds the same, and the places of the blocks in it make up a reverse post-order. -/
theorem blocks_numbered {steps : List Step} {built : Built} (hbuilt : build steps = .ok built)
    (hroom : built.program.blocks.size ≤ UInt32.size)
    (htargets : ∀ a b, built.program.Branches a b → built.program.HasBlock b)
    {func : FuncId} {fn : Function} (hfn : built.program.function func = .ok fn) :
    ∃ order, built.program.visitingOrder fn = .ok order ∧
      built.program.walkingOrder fn = .ok order ∧ built.program.Numbers fn (numbering order) := by
  have hlinked := Program.linked_of_build hbuilt
  have hmem := Program.mem_of_fetch hfn
  have hread : ∀ b, built.program.HasBlock b →
      Gives (fun succs => ∀ succ ∈ succs, built.program.HasBlock succ)
        (built.program.successors b) := by
    intro b hb
    obtain ⟨succs, hsuccs, -⟩ :=
      hlinked.successors_gives (fun _ _ _ _ _ => trivial) (P := fun _ => True) hb
    exact ⟨succs, hsuccs, fun succ hsucc => htargets b succ ⟨succs, hsuccs, hsucc⟩⟩
  obtain ⟨order, horder, -⟩ := Program.visitingOrder_gives hread (hlinked.functions fn hmem)
  refine ⟨order, horder, (built.program.walkingOrder_eq fn).trans horder, ?_⟩
  obtain ⟨reached, rest, rfl, hparts⟩ := Program.exists_orderParts horder
  exact hparts.numbers (Program.nodup_blocks_of_build hbuilt hroom fn hmem)

/-- A loop whose exit stands before it and goes on to the entry block of another function, with a
block between them that is never reached. -/
def exitFirst : List Step :=
  [.define "f" [.int 1] .void, .block (.ofNat 0) "exit", .block (.ofNat 0) "dead",
    .block (.ofNat 0) "head", .block (.ofNat 0) "body", .define "g" [] .void, .ret none,
    .positionAtEnd (.ofNat 0), .br (.ofNat 3), .positionAtEnd (.ofNat 3),
    .condBr (.ofNat 1) (.ofNat 4) (.ofNat 1), .positionAtEnd (.ofNat 4), .br (.ofNat 3),
    .positionAtEnd (.ofNat 1), .br (.ofNat 5), .positionAtEnd (.ofNat 2), .br (.ofNat 1)]

/-- The exit of the loop comes after its head, and the block that is never reached after both. -/
theorem blocks_numbered_exitFirst : ∃ built fn order, build exitFirst = .ok built ∧
    built.program.blocks.size ≤ UInt32.size ∧
    (∀ a b, built.program.Branches a b → built.program.HasBlock b) ∧
    built.program.function (.ofNat 0) = .ok fn ∧
    built.program.visitingOrder fn = .ok order ∧ built.program.walkingOrder fn = .ok order ∧
    order = [.ofNat 0, .ofNat 3, .ofNat 1, .ofNat 5, .ofNat 4, .ofNat 2] ∧
    built.program.Numbers fn (numbering order) ∧
    ∃ head exit dead, (numbering order)[(.ofNat 3 : BlockId)]? = some head ∧
      (numbering order)[(.ofNat 1 : BlockId)]? = some exit ∧
      (numbering order)[(.ofNat 2 : BlockId)]? = some dead ∧ head < exit ∧ exit < dead := by
  -- No branch leads to the block that is never reached, and none leads back from the exit.
  let checked : Program → BlockId → BlockId → Bool := fun p a b =>
    decide (p.HasBlock b ∧ b ≠ .ofNat 2 ∧ ((a = .ofNat 1 ∨ a = .ofNat 5) → b = .ofNat 5))
  obtain ⟨built, fn, hbuilt, hfn, hsize, hchecked, horder, hblocks, hsuccs, hsuccs'⟩ :
      ∃ built fn, build exitFirst = .ok built ∧ built.program.function (.ofNat 0) = .ok fn ∧
      built.program.blocks.size = 6 ∧
      (∀ i < 6, (built.program.successors (.ofNat i)).toOption.all fun succs =>
        succs.all (checked built.program (.ofNat i))) ∧
      built.program.visitingOrder fn =
        .ok [.ofNat 0, .ofNat 3, .ofNat 1, .ofNat 5, .ofNat 4, .ofNat 2] ∧
      fn.blocks = [.ofNat 0, .ofNat 1, .ofNat 2, .ofNat 3, .ofNat 4] ∧
      built.program.successors (.ofNat 0) = .ok [.ofNat 3] ∧
      built.program.successors (.ofNat 3) = .ok [.ofNat 4, .ofNat 1] :=
    ⟨_, _, rfl, rfl, rfl, by decide +kernel, by decide +kernel, rfl, rfl, rfl⟩
  have hbranch : ∀ a b, built.program.Branches a b → built.program.HasBlock b ∧ b ≠ .ofNat 2 ∧
      ((a = .ofNat 1 ∨ a = .ofNat 5) → b = .ofNat 5) := fun a b hab =>
    of_decide_eq_true (Program.forall_branches (checked built.program) (hsize ▸ hchecked) hab)
  have hroom : built.program.blocks.size ≤ UInt32.size := hsize ▸ by decide
  have htargets : ∀ a b, built.program.Branches a b → built.program.HasBlock b :=
    fun a b hab => (hbranch a b hab).1
  obtain ⟨order, hfound, hwalk, hnumbers⟩ := blocks_numbered hbuilt hroom htargets hfn
  obtain rfl := Except.ok.inj (horder.symm.trans hfound)
  have hin : built.program.Branches (.ofNat 0) (.ofNat 3) := ⟨_, hsuccs, by simp⟩
  have hout : built.program.Branches (.ofNat 3) (.ofNat 1) := ⟨_, hsuccs', by simp⟩
  have hhead : built.program.Reachable fn (.ofNat 3) :=
    ⟨.ofNat 0, by rw [Function.entryBlock?, hblocks]; rfl, .single hin⟩
  have hexit := hhead.branch hout
  have hdead : ¬ built.program.Reachable fn (.ofNat 2) := by
    rintro ⟨entry, hentry, hpath⟩
    rcases hpath.cases_tail with heq | ⟨b, -, hb⟩
    · rw [Function.entryBlock?, hblocks, ← heq] at hentry
      cases hentry
    · exact (hbranch b _ hb).2.1 rfl
  have hstuck : ∀ b, ReflTransGen built.program.Branches (.ofNat 1) b →
      b = .ofNat 1 ∨ b = .ofNat 5 := by
    intro b hpath
    induction hpath with
    | refl => exact Or.inl rfl
    | tail _ hstep ih => exact Or.inr ((hbranch _ _ hstep).2.2 ih)
  have hplace : ∀ b ∈ fn.blocks, ∃ i, (numbering
      [.ofNat 0, .ofNat 3, .ofNat 1, .ofNat 5, .ofNat 4, .ofNat 2])[b]? = some i := fun b hb =>
    Option.isSome_iff_exists.mp
      (Std.ExtTreeMap.mem_iff_isSome_getElem?.mp ((hnumbers.mem_iff b).mpr (Or.inl hb)))
  obtain ⟨head, hheadAt⟩ := hplace (.ofNat 3) (by simp [hblocks])
  obtain ⟨exit, hexitAt⟩ := hplace (.ofNat 1) (by simp [hblocks])
  obtain ⟨dead, hdeadAt⟩ := hplace (.ofNat 2) (by simp [hblocks])
  refine ⟨built, fn, _, hbuilt, hroom, htargets, hfn, horder, hwalk, rfl, hnumbers, head, exit,
    dead, hheadAt, hexitAt, hdeadAt, ?_, ?_⟩
  · refine hnumbers.branch_lt _ _ _ _ hheadAt hexitAt hhead hexit hout fun hback => ?_
    exact absurd (hstuck _ hback) (by decide)
  · exact hnumbers.reachable_lt _ _ _ _ hexitAt hdeadAt hexit hdead

end CallTargets
