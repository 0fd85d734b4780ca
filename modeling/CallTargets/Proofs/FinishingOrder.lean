import CallTargets.Proofs.Coverage
import CallTargets.Proofs.VisitingOrder

/-!
# The order of finished blocks

When a search finishes a block, every successor of the block has been finished before it or is
still under way, and then the successor leads back to the block.  So the edges of the visiting
order lead forward, apart from those that close a loop.  The search from the entry block finishes
the blocks that control can get to, and the other blocks of the function follow as they are laid
out.
-/

namespace CallTargets

open Relation (ReflTransGen)

namespace Search

variable {p : Program} {before after : Search} {depth : Nat} {b y : BlockId}

/-- Every edge leads to a block that is listed later, or closes a loop. -/
def Descends (p : Program) : List BlockId → Prop
  | [] => True
  | b :: rest =>
      (∀ y, p.Branches b y → y ∈ rest ∨ ReflTransGen p.Branches y b) ∧ Descends p rest

/-- What holds of a search between two discoveries. -/
structure Sound (p : Program) (search : Search) : Prop where
  nodup : search.finished.Nodup
  seen : ∀ x ∈ search.finished, x ∈ search.seen
  descends : Descends p search.finished

/-- Blocks that are under way lead to the block `b`, where the search is. -/
def UnderWay (p : Program) (search : Search) (b : BlockId) : Prop :=
  ∀ x ∈ search.seen, x ∈ search.finished ∨ ReflTransGen p.Branches x b

theorem Sound.enter (h : Sound p before) (b : BlockId) :
    Sound p { before with seen := before.seen.insert b } where
  nodup := h.nodup
  seen x hx := mem_insert_iff.mpr (Or.inr (h.seen x hx))
  descends := h.descends

theorem UnderWay.enter (h : UnderWay p before b) :
    UnderWay p { before with seen := before.seen.insert b } b := by
  intro x hx
  rcases mem_insert_iff.mp hx with rfl | hx
  · exact Or.inr .refl
  · exact h x hx

theorem UnderWay.branch (h : UnderWay p before b) (hy : p.Branches b y) : UnderWay p before y :=
  fun x hx => (h x hx).imp_right (·.tail hy)

theorem UnderWay.adds {new : List BlockId} (h : UnderWay p before b)
    (hadds : Adds p new before after) : UnderWay p after b := by
  intro x hx
  rw [hadds.finished_eq]
  rcases (hadds.mem_seen_iff x).mp hx with hx | hx
  · exact (h x hx).imp_left (List.mem_append_right new)
  · exact Or.inl (List.mem_append_left _ hx)

/-- The search stays sound, and what was under way is not finished. -/
def Continues (p : Program) (before after : Search) : Prop :=
  Sound p after ∧ ∀ x ∈ before.seen, x ∈ after.finished → x ∈ before.finished

theorem continues_of_explore {succs : List BlockId}
    (hvisit : ∀ found succ found', succ ∉ found.seen → unseen p found.seen < depth →
      Sound p found → UnderWay p found succ → visit p depth found succ = .ok found' →
      Continues p found found')
    (hsound : Sound p before) (hway : UnderWay p before b) (hdepth : unseen p before.seen < depth)
    (hsuccs : ∀ y ∈ succs, p.Branches b y)
    (h : succs.foldlM (fun search succ =>
      if succ ∈ search.seen then .ok search else visit p depth search succ) before = .ok after) :
    Continues p before after := by
  induction succs generalizing before with
  | nil =>
      cases h
      exact ⟨hsound, fun x _ hx => hx⟩
  | cons succ succs ih =>
      rw [List.foldlM_cons] at h
      obtain ⟨found, hfound, h⟩ := bind_eq_ok_iff.mp h
      have hrest : ∀ y ∈ succs, p.Branches b y := fun y hy => hsuccs y (List.mem_cons_of_mem _ hy)
      split at hfound
      · cases hfound
        exact ih hsound hway hdepth hrest h
      · next hseen =>
          have hsucc := hway.branch (hsuccs succ List.mem_cons_self)
          obtain ⟨hfirst, hkept⟩ := hvisit before succ found hseen hdepth hsound hsucc hfound
          obtain ⟨new, hnew, -⟩ := adds_of_visit hfound hseen hdepth
          have hfewer := unseen_le_of_subset (p := p) fun x hx => hnew.subset hx
          obtain ⟨hlast, hothers⟩ :=
            ih hfirst (hway.adds hnew) (lt_of_le_of_lt hfewer hdepth) hrest h
          exact ⟨hlast, fun x hx hxlast => hkept x hx (hothers x (hnew.subset hx) hxlast)⟩

/-- The induction is on the depth, as for what a search adds. -/
theorem continues_of_visit (h : visit p depth before b = .ok after) (hb : b ∉ before.seen)
    (hdepth : unseen p before.seen < depth) (hsound : Sound p before)
    (hway : UnderWay p before b) : Continues p before after := by
  induction depth generalizing before after b with
  | zero => omega
  | succ depth ih =>
      obtain ⟨succs, hsuccs, h⟩ := bind_eq_ok_iff.mp h
      obtain ⟨explored, hexplored, h⟩ := bind_eq_ok_iff.mp h
      cases h
      obtain ⟨block, hblock⟩ := Program.exists_block_of_successors hsuccs
      have hless := unseen_insert_lt hblock hb
      obtain ⟨new, hnew, hseen⟩ := adds_of_explore (unseen p (before.seen.insert b))
        (fun found succ found' hsucc hleft hfound => adds_of_visit hfound hsucc (by omega))
        le_rfl hexplored
      obtain ⟨hinner, hkept⟩ := continues_of_explore
        (fun found succ found' hsucc hleft hfound hunder hvisit =>
          ih hvisit hsucc hleft hfound hunder)
        (hsound.enter b) hway.enter (by simp only; omega)
        (fun y hy => ⟨succs, hsuccs, hy⟩) hexplored
      have hentered : b ∈ before.seen.insert b := by simp
      have hopen : b ∉ explored.finished := fun hfinished =>
        hb (hsound.seen b (hkept b hentered hfinished))
      refine ⟨⟨List.nodup_cons.mpr ⟨hopen, hinner.nodup⟩, fun x hx => ?_, fun y hy => ?_,
        hinner.descends⟩, fun x hx hfinished => ?_⟩
      · rcases List.mem_cons.mp hx with rfl | hx
        · exact hnew.subset hentered
        · exact hinner.seen x hx
      · obtain ⟨succs', hsuccs', hmem⟩ := hy
        rw [hsuccs] at hsuccs'
        cases hsuccs'
        exact hway.enter.adds hnew y (hseen y hmem)
      · rcases List.mem_cons.mp hfinished with rfl | hfinished
        · exact absurd hx hb
        · exact hkept x (mem_insert_iff.mpr (Or.inr hx)) hfinished

theorem sound_of_reach (h : reach p b = .ok after) : Sound p after := by
  have hle := unseen_le (p := p) ∅
  have hstart : Sound p ⟨∅, []⟩ := ⟨List.nodup_nil, by simp, trivial⟩
  exact (continues_of_visit h (by simp) (by simp only; omega) hstart (by simp [UnderWay])).1

/-- In a list without repetitions that descends, an edge that closes no loop leads on. -/
theorem Descends.idxOf_lt {l : List BlockId} (h : Descends p l) (hnodup : l.Nodup) (hb : b ∈ l)
    (hy : p.Branches b y) (hback : ¬ ReflTransGen p.Branches y b) :
    y ∈ l ∧ l.idxOf b < l.idxOf y := by
  induction l with
  | nil => cases hb
  | cons first rest ih =>
      obtain ⟨hfirst, hnodup⟩ := List.nodup_cons.mp hnodup
      rcases List.mem_cons.mp hb with rfl | hb
      · have hlater : y ∈ rest := (h.1 y hy).resolve_right hback
        have hne : b ≠ y := by
          rintro rfl
          exact hfirst hlater
        refine ⟨List.mem_cons_of_mem b hlater, ?_⟩
        rw [List.idxOf_cons_self, List.idxOf_cons_ne rest hne]
        omega
      · obtain ⟨hmem, hlt⟩ := ih h.2 hnodup hb
        have hnb : first ≠ b := by
          rintro rfl
          exact hfirst hb
        have hny : first ≠ y := by
          rintro rfl
          exact hfirst hmem
        refine ⟨List.mem_cons_of_mem first hmem, ?_⟩
        rw [List.idxOf_cons_ne rest hnb, List.idxOf_cons_ne rest hny]
        omega

/-! ## What is reached -/

theorem reachable_of_visit (h : visit p depth before b = .ok after) (hy : y ∈ after.seen) :
    y ∈ before.seen ∨ ReflTransGen p.Branches b y := by
  induction depth generalizing before after b y with
  | zero =>
      cases h
      exact Or.inl hy
  | succ depth ih =>
      obtain ⟨succs, hsuccs, h⟩ := bind_eq_ok_iff.mp h
      obtain ⟨explored, hexplored, h⟩ := bind_eq_ok_iff.mp h
      cases h
      have hfound : ∀ x ∈ explored.seen, x ∈ before.seen ∨ ReflTransGen p.Branches b x := by
        refine foldlM_ok_induction hexplored
          (fun found => ∀ x ∈ found.seen, x ∈ before.seen ∨ ReflTransGen p.Branches b x) ?_ ?_
        · intro x hx
          rcases mem_insert_iff.mp hx with rfl | hx
          · exact Or.inr .refl
          · exact Or.inl hx
        · intro found succ found' hsucc hfound hstep x hx
          split at hstep
          · cases hstep
            exact hfound x hx
          · have hbranch : p.Branches b succ := ⟨succs, hsuccs, hsucc⟩
            rcases ih hstep hx with hx | hpath
            · exact hfound x hx
            · exact Or.inr (.head hbranch hpath)
      exact hfound y hy

/-- The search from a block finishes all blocks that are reachable from it. -/
theorem mem_finished_of_reach (h : reach p b = .ok after)
    (hy : ReflTransGen p.Branches b y) : y ∈ after.finished := by
  obtain ⟨hadds, hb⟩ := adds_of_reach h
  induction hy with
  | refl => exact hb
  | tail _ hstep ih =>
      obtain ⟨succs, hsuccs, hmem⟩ := hstep
      exact (mem_seen_iff_of_reach h).mp (hadds.succs_seen _ ih succs hsuccs _ hmem)

theorem mem_finished_iff_of_reach (h : reach p b = .ok after) :
    y ∈ after.finished ↔ ReflTransGen p.Branches b y := by
  refine ⟨fun hy => ?_, mem_finished_of_reach h⟩
  have hseen := (sound_of_reach h).seen y hy
  exact (reachable_of_visit h hseen).resolve_left (by simp)

/-- The block where a search begins is finished last. -/
theorem head?_finished_of_reach (h : reach p b = .ok after) : after.finished.head? = some b := by
  unfold reach at h
  obtain ⟨succs, -, h⟩ := bind_eq_ok_iff.mp h
  obtain ⟨explored, -, h⟩ := bind_eq_ok_iff.mp h
  cases h
  rfl

end Search

namespace Program

variable {p : Program} {fn : Function} {order reached rest : List BlockId} {a b : BlockId}

/-! ## The parts of the visiting order -/

/-- A block that control can get to from the entry block, be it through other functions. -/
def Reachable (p : Program) (fn : Function) (b : BlockId) : Prop :=
  ∃ entry, fn.entryBlock? = some entry ∧ ReflTransGen p.Branches entry b

theorem Reachable.branch (h : p.Reachable fn a) (hab : p.Branches a b) : p.Reachable fn b := by
  obtain ⟨entry, hentry, hpath⟩ := h
  exact ⟨entry, hentry, hpath.tail hab⟩

/-- The visiting order lists what the search has finished, and then the blocks of the function
that it has not come across. -/
structure OrderParts (p : Program) (fn : Function) (reached rest : List BlockId) : Prop where
  reached_iff : ∀ b, b ∈ reached ↔ p.Reachable fn b
  head : reached.head? = fn.entryBlock?
  nodup : reached.Nodup
  descends : Search.Descends p reached
  rest_eq : rest = fn.blocks.filter fun b => b ∉ reached

theorem exists_orderParts (h : p.visitingOrder fn = .ok order) :
    ∃ reached rest, order = reached ++ rest ∧ p.OrderParts fn reached rest := by
  unfold visitingOrder at h
  cases hentry : fn.entryBlock? with
  | none =>
      rw [hentry] at h
      cases h
      exact ⟨[], fn.blocks, rfl, by simp [Reachable, hentry], hentry.symm, .nil, trivial, by simp⟩
  | some entry =>
      rw [hentry] at h
      obtain ⟨search, hsearch, h⟩ := bind_eq_ok_iff.mp h
      cases h
      have hsound := Search.sound_of_reach hsearch
      refine ⟨search.finished, _, rfl, fun b => ?_, ?_, hsound.nodup, hsound.descends, ?_⟩
      · rw [Search.mem_finished_iff_of_reach hsearch]
        simp [Reachable, hentry]
      · rw [Search.head?_finished_of_reach hsearch, hentry]
      · simp only [Search.mem_seen_iff_of_reach hsearch]

namespace OrderParts

variable (h : p.OrderParts fn reached rest)

include h

theorem mem_rest_iff : b ∈ rest ↔ b ∈ fn.blocks ∧ ¬ p.Reachable fn b := by
  simp [h.rest_eq, h.reached_iff]

theorem mem_iff : b ∈ reached ++ rest ↔ b ∈ fn.blocks ∨ p.Reachable fn b := by
  rw [List.mem_append, h.reached_iff, h.mem_rest_iff]
  tauto

theorem nodup_append (hnodup : fn.blocks.Nodup) : (reached ++ rest).Nodup := by
  refine List.nodup_append.mpr ⟨h.nodup, ?_, ?_⟩
  · rw [h.rest_eq]
    exact hnodup.filter _
  · rintro a ha b hb rfl
    exact (h.mem_rest_iff.mp hb).2 ((h.reached_iff a).mp ha)

theorem idxOf_of_reachable (hb : p.Reachable fn b) :
    (reached ++ rest).idxOf b = reached.idxOf b ∧ reached.idxOf b < reached.length := by
  have hmem := (h.reached_iff b).mpr hb
  exact ⟨List.idxOf_append_of_mem hmem, List.idxOf_lt_length_of_mem hmem⟩

theorem idxOf_of_not_reachable (hb : ¬ p.Reachable fn b) :
    (reached ++ rest).idxOf b = reached.length + rest.idxOf b :=
  List.idxOf_append_of_notMem fun hmem => hb ((h.reached_iff b).mp hmem)

theorem idxOf_lt_of_branch (ha : p.Reachable fn a) (hab : p.Branches a b)
    (hback : ¬ ReflTransGen p.Branches b a) :
    (reached ++ rest).idxOf a < (reached ++ rest).idxOf b := by
  rw [(h.idxOf_of_reachable ha).1, (h.idxOf_of_reachable (ha.branch hab)).1]
  exact (h.descends.idxOf_lt h.nodup ((h.reached_iff a).mpr ha) hab hback).2

end OrderParts

end Program

end CallTargets
