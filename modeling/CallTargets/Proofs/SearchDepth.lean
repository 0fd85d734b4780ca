import CallTargets.Proofs.GraphFacts
import Mathlib.Data.Finset.Card
import Mathlib.Data.Finset.Range

/-!
# The depth of a search is no limit

A search goes one level deeper only through a block that exists and was not seen
before.  So a depth that exceeds the number of blocks that are left is never used up,
and any two such depths give the same search.
-/

namespace CallTargets

/-- Folds whose steps agree wherever an invariant holds that the first steps keep. -/
theorem foldlM_congr_of_invariant {ε α β : Type} {f g : β → α → Except ε β} (I : β → Prop)
    (hkeep : ∀ b a b', I b → f b a = .ok b' → I b') (hfg : ∀ b a, I b → f b a = g b a)
    (l : List α) {b : β} (hb : I b) : l.foldlM f b = l.foldlM g b := by
  induction l generalizing b with
  | nil => rfl
  | cons a l ih =>
      rw [List.foldlM_cons, List.foldlM_cons, ← hfg b a hb]
      cases hstep : f b a with
      | error e => rfl
      | ok b' => exact ih (hkeep b a b' hb hstep)

namespace Search

variable {p : Program}

theorem mem_insert_iff {seen : Std.ExtTreeSet BlockId} {b x : BlockId} :
    x ∈ seen.insert b ↔ x = b ∨ x ∈ seen := by
  rw [Std.ExtTreeSet.mem_insert, Std.LawfulEqOrd.compare_eq_iff_eq, eq_comm]

/-- The table positions whose block was not seen yet. -/
def unseenSet (p : Program) (seen : Std.ExtTreeSet BlockId) : Finset Nat :=
  (Finset.range p.blocks.size).filter (fun i => (Ident.ofNat i : BlockId) ∉ seen)

def unseen (p : Program) (seen : Std.ExtTreeSet BlockId) : Nat := (unseenSet p seen).card

theorem unseen_le (seen : Std.ExtTreeSet BlockId) : unseen p seen ≤ p.blocks.size := by
  have hcard := Finset.card_filter_le (Finset.range p.blocks.size)
    (fun i => (Ident.ofNat i : BlockId) ∉ seen)
  rwa [Finset.card_range] at hcard

theorem unseenSet_anti {seen seen' : Std.ExtTreeSet BlockId} (h : ∀ b ∈ seen, b ∈ seen') :
    unseenSet p seen' ⊆ unseenSet p seen :=
  Finset.monotone_filter_right _ (fun _ _ hi hmem => hi (h _ hmem))

theorem unseen_insert_lt {seen : Std.ExtTreeSet BlockId} {b : BlockId} {block : Block}
    (hblock : p.block b = .ok block) (hb : b ∉ seen) :
    unseen p (seen.insert b) < unseen p seen := by
  have hindex : b.index < p.blocks.size :=
    (Array.getElem?_eq_some_iff.mp (fetch_eq_ok_iff.mp hblock)).1
  refine Finset.card_lt_card (Finset.ssubset_iff_of_subset
    (unseenSet_anti fun x hx => mem_insert_iff.mpr (Or.inr hx)) |>.mpr ?_)
  refine ⟨b.index, ?_, ?_⟩
  · simpa [unseenSet, b.ofNat_index] using ⟨hindex, hb⟩
  · simp [unseenSet, b.ofNat_index]

theorem seen_subset_of_visit {depth : Nat} {search search' : Search} {b : BlockId}
    (h : visit p depth search b = .ok search') : ∀ x ∈ search.seen, x ∈ search'.seen := by
  induction depth generalizing search search' b with
  | zero =>
      cases h
      exact fun x hx => hx
  | succ depth ih =>
      obtain ⟨succs, hsuccs, h⟩ := bind_eq_ok_iff.mp h
      obtain ⟨explored, hexplored, h⟩ := bind_eq_ok_iff.mp h
      cases h
      refine foldlM_ok_induction hexplored
        (fun found => ∀ x ∈ search.seen, x ∈ found.seen) ?_ ?_
      · intro x hx
        exact mem_insert_iff.mpr (Or.inr hx)
      · intro found succ found' _ hfound hstep x hx
        split at hstep
        · cases hstep
          exact hfound x hx
        · exact ih hstep x (hfound x hx)

/-- Two depths that both exceed the number of unseen blocks give the same search. -/
theorem visit_depth {depth₁ depth₂ : Nat} {search : Search} {b : BlockId}
    (hb : b ∉ search.seen) (h₁ : unseen p search.seen < depth₁)
    (h₂ : unseen p search.seen < depth₂) :
    visit p depth₁ search b = visit p depth₂ search b := by
  induction depth₁ generalizing depth₂ search b with
  | zero => omega
  | succ depth₁ ih =>
      obtain ⟨depth₂, rfl⟩ : ∃ n, depth₂ = n + 1 := ⟨depth₂ - 1, by omega⟩
      unfold visit
      cases hsuccs : p.successors b with
      | error cause => rfl
      | ok succs =>
          obtain ⟨block, hblock⟩ := Program.exists_block_of_successors hsuccs
          have hless := unseen_insert_lt hblock hb
          -- From here on at least the block itself is seen.
          have hfold := foldlM_congr_of_invariant
            (f := fun search succ =>
              if succ ∈ search.seen then .ok search else visit p depth₁ search succ)
            (g := fun search succ =>
              if succ ∈ search.seen then .ok search else visit p depth₂ search succ)
            (fun found => unseen p found.seen ≤ unseen p (search.seen.insert b))
            (fun found succ found' hfound hstep => by
              split at hstep
              · cases hstep
                exact hfound
              · exact (Finset.card_le_card
                  (unseenSet_anti (seen_subset_of_visit hstep))).trans hfound)
            (fun found succ hfound => by
              split
              · rfl
              · next hsucc => exact ih hsucc (by omega) (by omega))
            succs (b := { search with seen := search.seen.insert b }) le_rfl
          exact congrArg (· >>= fun explored : Search =>
            (.ok { explored with finished := b :: explored.finished } : Except Fault Search)) hfold

/-- No search goes deeper than the table of blocks is long. -/
theorem visit_eq_reach {depth : Nat} (hdepth : p.blocks.size < depth) (b : BlockId) :
    visit p depth ⟨∅, []⟩ b = reach p b := by
  have hle := unseen_le (p := p) ∅
  exact visit_depth (by simp) (by simp only; omega) (by simp only; omega)

end Search

end CallTargets
