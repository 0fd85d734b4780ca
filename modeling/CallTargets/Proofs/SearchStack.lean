import CallTargets.Proofs.SearchDepth

/-!
# A search with a stack

A depth-first search need not be recursive.  It can keep the blocks that are under way on a
stack, each with its successors and the number of them that were tried, and always go on with
the block that was discovered last.  Such a search ends, as each of its turns discovers a block,
tries a successor or finishes a block.  It comes to what the recursive search comes to: the same
blocks in the same order, or the same fault.
-/

namespace CallTargets

namespace Search

variable {p : Program}

/-- A block under way: its successors, and how many of them were tried. -/
structure Frame where
  block : BlockId
  succs : List BlockId
  tried : Nat

/-- The turns that the frames of a stack take when they discover nothing. -/
def turns : List Frame → Nat
  | [] => 0
  | ⟨_, succs, tried⟩ :: below => succs.length - tried + 1 + turns below

theorem turns_try_lt {b : BlockId} {succs : List BlockId} {tried : Nat} {below : List Frame}
    (htried : tried < succs.length) :
    turns (⟨b, succs, tried + 1⟩ :: below) < turns (⟨b, succs, tried⟩ :: below) := by
  simp only [turns]
  omega

theorem turns_finish_lt {frame : Frame} {below : List Frame} :
    turns below < turns (frame :: below) := by
  simp only [turns]
  omega

def enter (search : Search) (b : BlockId) : Search :=
  { search with seen := search.seen.insert b }

def finish (search : Search) (b : BlockId) : Search :=
  { search with finished := b :: search.finished }

theorem unseen_enter_lt {search : Search} {b : BlockId} {succs : List BlockId}
    (hsuccs : p.successors b = .ok succs) (hb : b ∉ search.seen) :
    unseen p (search.enter b).seen < unseen p search.seen := by
  obtain ⟨block, hblock⟩ := Program.exists_block_of_successors hsuccs
  exact unseen_insert_lt hblock hb

/-- Goes on with the block on top of the stack until the stack is empty. -/
def unwind (p : Program) : List Frame → Search → Except Fault Search
  | [], search => .ok search
  | ⟨b, succs, tried⟩ :: below, search =>
    if htried : tried < succs.length then
      if hseen : succs[tried] ∈ search.seen then unwind p (⟨b, succs, tried + 1⟩ :: below) search
      else
        match hmore : p.successors succs[tried] with
        | .error cause => .error cause
        | .ok more =>
          unwind p (⟨succs[tried], more, 0⟩ :: ⟨b, succs, tried + 1⟩ :: below)
            (search.enter succs[tried])
    else unwind p below (search.finish b)
termination_by stack search => (unseen p search.seen, turns stack)
decreasing_by
  · exact Prod.Lex.right _ (turns_try_lt htried)
  · exact Prod.Lex.left _ _ (unseen_enter_lt hmore hseen)
  · exact Prod.Lex.right _ turns_finish_lt

/-- A search from `b` that keeps its blocks under way on a stack. -/
def walk (p : Program) (b : BlockId) : Except Fault Search := do
  let succs ← p.successors b
  unwind p [⟨b, succs, 0⟩] (enter ⟨∅, []⟩ b)

/-! ## Turns -/

section Turns

variable {b succ : BlockId} {succs : List BlockId} {tried : Nat} {below : List Frame}
  {search : Search}

theorem unwind_nil (search : Search) : unwind p [] search = .ok search := by
  rw [unwind]

theorem unwind_finish (h : succs[tried]? = none) :
    unwind p (⟨b, succs, tried⟩ :: below) search = unwind p below (search.finish b) := by
  rw [unwind, dif_neg (not_lt.mpr (List.getElem?_eq_none_iff.mp h))]

theorem unwind_seen (h : succs[tried]? = some succ) (hseen : succ ∈ search.seen) :
    unwind p (⟨b, succs, tried⟩ :: below) search =
      unwind p (⟨b, succs, tried + 1⟩ :: below) search := by
  obtain ⟨hlt, rfl⟩ := List.getElem?_eq_some_iff.mp h
  rw [unwind, dif_pos hlt, dif_pos hseen]

theorem unwind_enter (h : succs[tried]? = some succ) (hseen : succ ∉ search.seen) :
    unwind p (⟨b, succs, tried⟩ :: below) search =
      p.successors succ >>= fun more =>
        unwind p (⟨succ, more, 0⟩ :: ⟨b, succs, tried + 1⟩ :: below) (search.enter succ) := by
  obtain ⟨hlt, rfl⟩ := List.getElem?_eq_some_iff.mp h
  rw [unwind, dif_pos hlt, dif_neg hseen]
  split
  · next hmore => simp only [hmore, bind, Except.bind]
  · next hmore => simp only [hmore, bind, Except.bind]

end Turns

/-! ## The recursive search -/

/-- Whatever waits on the stack, the blocks that a discovery of `b` brings are finished before it
goes on. -/
def Unwinds (p : Program) (depth : Nat) (search : Search) (b : BlockId) : Prop :=
  ∀ below, (p.successors b >>= fun succs => unwind p (⟨b, succs, 0⟩ :: below) (search.enter b)) =
    visit p depth search b >>= unwind p below

/-- The successors that are still to try, in a frame whose other successors were tried. -/
theorem unwind_explore {depth : Nat} (left : Nat) (b : BlockId) (below : List Frame)
    (hvisit : ∀ found succ, succ ∉ found.seen → unseen p found.seen ≤ left →
      Unwinds p depth found succ)
    (tried todo : List BlockId) {search : Search} (hleft : unseen p search.seen ≤ left) :
    unwind p (⟨b, tried ++ todo, tried.length⟩ :: below) search =
      todo.foldlM (fun search succ =>
        if succ ∈ search.seen then .ok search else visit p depth search succ) search >>=
        fun explored => unwind p below (explored.finish b) := by
  induction todo generalizing tried search with
  | nil =>
      rw [unwind_finish (by simp)]
      rfl
  | cons succ todo ih =>
      have htry : (tried ++ succ :: todo)[tried.length]? = some succ := by simp
      have hnext : ∀ {found : Search}, unseen p found.seen ≤ left →
          unwind p (⟨b, tried ++ succ :: todo, tried.length + 1⟩ :: below) found =
            todo.foldlM (fun search succ =>
              if succ ∈ search.seen then .ok search else visit p depth search succ) found >>=
              fun explored => unwind p below (explored.finish b) := by
        intro found hfound
        have hrest := ih (tried ++ [succ]) hfound
        rwa [List.append_assoc, List.singleton_append, List.length_append,
          List.length_singleton] at hrest
      rw [List.foldlM_cons]
      by_cases hseen : succ ∈ search.seen
      · rw [unwind_seen htry hseen, if_pos hseen, hnext hleft]
        rfl
      · rw [unwind_enter htry hseen, if_neg hseen, hvisit search succ hseen hleft]
        cases hfound : visit p depth search succ with
        | error cause => rfl
        | ok found =>
            have hfewer : unseen p found.seen ≤ unseen p search.seen :=
              Finset.card_le_card (unseenSet_anti (seen_subset_of_visit hfound))
            exact hnext (hfewer.trans hleft)

/-- The induction is on the depth of the recursive search, which is no limit. -/
theorem unwinds_visit {depth : Nat} {search : Search} {b : BlockId} (hb : b ∉ search.seen)
    (hdepth : unseen p search.seen < depth) : Unwinds p depth search b := by
  induction depth generalizing search b with
  | zero => omega
  | succ depth ih =>
      intro below
      unfold visit
      cases hsuccs : p.successors b with
      | error cause => rfl
      | ok succs =>
          have hless := unseen_enter_lt hsuccs hb
          have hexplore := unwind_explore (unseen p (search.enter b).seen) b below
            (fun found succ hsucc hleft => ih hsucc (by omega)) [] succs le_rfl
          refine hexplore.trans ?_
          simp only [bind_assoc]
          rfl

theorem walk_eq_reach (b : BlockId) : walk p b = reach p b := by
  have hle := unseen_le (p := p) ∅
  have hvisit : Unwinds p (p.blocks.size + 1) ⟨∅, []⟩ b :=
    unwinds_visit (by simp) (by simp only; omega)
  refine (hvisit []).trans ?_
  rw [funext (unwind_nil (p := p))]
  exact bind_pure (reach p b)

end Search

/-- The visiting order that a search with a stack finds. -/
def Program.walkingOrder (p : Program) (f : Function) : Except Fault (List BlockId) := do
  match f.entryBlock? with
  | none => return f.blocks
  | some entry =>
    let search ← Search.walk p entry
    return search.finished ++ f.blocks.filter (fun b => b ∉ search.seen)

theorem Program.walkingOrder_eq (p : Program) (f : Function) :
    p.walkingOrder f = p.visitingOrder f := by
  unfold walkingOrder visitingOrder
  cases f.entryBlock? with
  | none => rfl
  | some entry => simp only [Search.walk_eq_reach]

end CallTargets
