import CallTargets.Proofs.SearchDepth

/-!
# What the visiting order holds

A search finishes every block that it discovers, and when it finishes a block it has
discovered all of its successors.  So the visiting order of a function holds the function's
own blocks, and in it the blocks that were found from the entry block are closed under
successors.
-/

namespace CallTargets

namespace Search

variable {p : Program} {before after last : Search} {depth : Nat} {b : BlockId}

/-- Between two states of a search the blocks `new` were discovered and finished, the latest
first. -/
structure Adds (p : Program) (new : List BlockId) (before after : Search) : Prop where
  finished_eq : after.finished = new ++ before.finished
  mem_seen_iff : ∀ x, x ∈ after.seen ↔ x ∈ before.seen ∨ x ∈ new
  succs_seen : ∀ x ∈ new, ∀ succs, p.successors x = .ok succs → ∀ y ∈ succs, y ∈ after.seen

namespace Adds

variable {new more : List BlockId}

theorem nil (p : Program) (search : Search) : Adds p [] search search :=
  ⟨rfl, by simp, by simp⟩

theorem subset (h : Adds p new before after) {x : BlockId} (hx : x ∈ before.seen) :
    x ∈ after.seen :=
  (h.mem_seen_iff x).mpr (Or.inl hx)

theorem append (h : Adds p new before after) (hlast : Adds p more after last) :
    Adds p (more ++ new) before last := by
  refine ⟨?_, fun x => ?_, fun x hx succs hsuccs y hy => ?_⟩
  · rw [hlast.finished_eq, h.finished_eq, List.append_assoc]
  · rw [hlast.mem_seen_iff, h.mem_seen_iff, List.mem_append]
    tauto
  · rcases List.mem_append.mp hx with hx | hx
    · exact hlast.succs_seen x hx succs hsuccs y hy
    · exact hlast.subset (h.succs_seen x hx succs hsuccs y hy)

/-- A block is finished after what was discovered on its account. -/
theorem finish {succs : List BlockId}
    (h : Adds p new { before with seen := before.seen.insert b } after)
    (hsuccs : p.successors b = .ok succs) (hseen : ∀ y ∈ succs, y ∈ after.seen) :
    Adds p (b :: new) before { after with finished := b :: after.finished } := by
  refine ⟨congrArg (b :: ·) h.finished_eq, fun x => ?_, fun x hx succs' hsuccs' y hy => ?_⟩
  · have hiff := h.mem_seen_iff x
    dsimp only at hiff ⊢
    rw [hiff, mem_insert_iff, List.mem_cons]
    tauto
  · rcases List.mem_cons.mp hx with rfl | hx
    · rw [hsuccs] at hsuccs'
      cases hsuccs'
      exact hseen y hy
    · exact h.succs_seen x hx succs' hsuccs' y hy

end Adds

theorem unseen_le_of_subset {seen seen' : Std.ExtTreeSet BlockId} (h : ∀ b ∈ seen, b ∈ seen') :
    unseen p seen' ≤ unseen p seen :=
  Finset.card_le_card (unseenSet_anti h)

/-- Exploring one block after the other, where each search adds what it discovers. -/
theorem adds_of_explore (left : Nat) {succs : List BlockId}
    (hvisit : ∀ found succ found', succ ∉ found.seen → unseen p found.seen ≤ left →
      visit p depth found succ = .ok found' → ∃ new, Adds p new found found' ∧ succ ∈ new)
    (hleft : unseen p before.seen ≤ left)
    (h : succs.foldlM (fun search succ =>
      if succ ∈ search.seen then .ok search else visit p depth search succ) before = .ok after) :
    ∃ new, Adds p new before after ∧ ∀ y ∈ succs, y ∈ after.seen := by
  induction succs generalizing before with
  | nil =>
      cases h
      exact ⟨[], .nil p after, by simp⟩
  | cons succ succs ih =>
      rw [List.foldlM_cons] at h
      obtain ⟨found, hfound, h⟩ := bind_eq_ok_iff.mp h
      obtain ⟨new, hnew, hsucc⟩ : ∃ new, Adds p new before found ∧ succ ∈ found.seen := by
        split at hfound
        · next hseen =>
            cases hfound
            exact ⟨[], .nil p before, hseen⟩
        · next hseen =>
            obtain ⟨new, hnew, hmem⟩ := hvisit before succ found hseen hleft hfound
            exact ⟨new, hnew, (hnew.mem_seen_iff succ).mpr (Or.inr hmem)⟩
      have hfewer := unseen_le_of_subset (p := p) (fun x hx => hnew.subset hx)
      obtain ⟨more, hmore, hothers⟩ := ih (hfewer.trans hleft) h
      refine ⟨more ++ new, hnew.append hmore, fun y hy => ?_⟩
      rcases List.mem_cons.mp hy with rfl | hy
      · exact hmore.subset hsucc
      · exact hothers y hy

/-- A search that is not cut short by its depth finishes what it discovers.  The induction is
on the depth, which stays above the number of blocks that are left. -/
theorem adds_of_visit (h : visit p depth before b = .ok after) (hb : b ∉ before.seen)
    (hdepth : unseen p before.seen < depth) :
    ∃ new, Adds p new before after ∧ b ∈ new := by
  induction depth generalizing before after b with
  | zero => omega
  | succ depth ih =>
      obtain ⟨succs, hsuccs, h⟩ := bind_eq_ok_iff.mp h
      obtain ⟨explored, hexplored, h⟩ := bind_eq_ok_iff.mp h
      cases h
      obtain ⟨block, hblock⟩ := Program.exists_block_of_successors hsuccs
      have hless := unseen_insert_lt hblock hb
      obtain ⟨new, hnew, hseen⟩ := adds_of_explore (unseen p (before.seen.insert b))
        (fun found succ found' hsucc hleft hfound => ih hfound hsucc (by omega)) le_rfl hexplored
      exact ⟨b :: new, hnew.finish hsuccs hseen, List.mem_cons_self⟩

theorem adds_of_reach (h : reach p b = .ok after) :
    Adds p after.finished ⟨∅, []⟩ after ∧ b ∈ after.finished := by
  have hle := unseen_le (p := p) ∅
  obtain ⟨new, hnew, hb⟩ := adds_of_visit h (by simp) (by simp only; omega)
  have hfinished : after.finished = new := by simpa using hnew.finished_eq
  exact hfinished ▸ ⟨hnew, hb⟩

theorem mem_seen_iff_of_reach (h : reach p b = .ok after) {x : BlockId} :
    x ∈ after.seen ↔ x ∈ after.finished := by
  simpa using (adds_of_reach h).1.mem_seen_iff x

end Search

namespace FlowGraph

/-- The blocks `reached` hold the entry block and all of their successors, and the visiting
order holds them and the function's own blocks. -/
structure Ordered (g : FlowGraph) (reached : List BlockId) : Prop where
  entry : g.entry ∈ reached
  succs : ∀ b ∈ reached, ∀ b' ∈ g.succs b, b' ∈ reached
  reached_subset : ∀ b ∈ reached, b ∈ g.order
  layout_subset : ∀ b ∈ g.layout, b ∈ g.order

theorem Of.exists_ordered {p : Program} {func : FuncId} {fn : Function} {g : FlowGraph}
    (h : Of p func fn g) : ∃ reached, g.Ordered reached := by
  have horder := h.order_eq
  rw [Program.visitingOrder, h.entry_eq] at horder
  obtain ⟨search, hsearch, horder⟩ := bind_eq_ok_iff.mp horder
  have hsplit : g.order = search.finished ++ fn.blocks.filter (fun b => b ∉ search.seen) :=
    (Except.ok.inj horder).symm
  obtain ⟨hadds, hentry⟩ := Search.adds_of_reach hsearch
  have hreached : ∀ b ∈ search.finished, b ∈ g.order := by
    intro b hb
    rw [hsplit]
    exact List.mem_append_left _ hb
  refine ⟨search.finished, hentry, fun b hb b' hb' => ?_, hreached, fun b hb => ?_⟩
  · rw [← Search.mem_seen_iff_of_reach hsearch]
    exact hadds.succs_seen b hb _ (h.successors_eq b (hreached b hb)) b' hb'
  · by_cases hmem : b ∈ search.seen
    · exact hreached b ((Search.mem_seen_iff_of_reach hsearch).mp hmem)
    · rw [hsplit]
      apply List.mem_append_right
      rw [List.mem_filter, ← h.layout_eq]
      exact ⟨hb, by simpa using hmem⟩

end FlowGraph

end CallTargets
