import CallTargets.Proofs.StepAnswers
import Mathlib.Algebra.GroupWithZero.Nat

/-!
# Built programs are coherent

The tables of a built program agree with one another, whatever the order in which its parts were
made.  The steps are followed one by one for what they answer, since a finished program does not
tell in which order its values, blocks and functions came to be.
-/

namespace CallTargets

theorem Program.count_le_of_edits {p p' : Program} (h : p.Edits p') (e : Entity) :
    p.count e ≤ p'.count e := by
  induction h with
  | refl => exact Nat.le_refl _
  | tail _ hedit ih =>
      apply Nat.le_trans ih
      have hsizes := hedit.sizesLe
      cases e with
      | value => exact hsizes.values
      | block => exact hsizes.blocks
      | func => exact hsizes.functions

namespace Builder

/-- Some steps lead from one builder to another, with one answer each. -/
inductive Runs : Builder → List Step → List Made → Builder → Prop where
  | nil (b : Builder) : Runs b [] [] b
  | cons {b next last : Builder} {step : Step} {steps : List Step} {m : Made} {made : List Made}
      (hstep : step.apply b = .ok (m, next)) (hrest : Runs next steps made last) :
      Runs b (step :: steps) (m :: made) last

variable {b last : Builder} {steps pre post : List Step} {made done : List Made}

theorem runs_of_buildFrom {built : Built} (h : buildFrom b done steps = .ok built) :
    ∃ made last, b.Runs steps made last ∧ built = ⟨last.program, done.reverse ++ made⟩ := by
  induction steps generalizing b done with
  | nil =>
      cases h
      exact ⟨[], b, .nil b, by rw [List.append_nil]⟩
  | cons step rest ih =>
      unfold buildFrom at h
      cases hstep : step.apply b with
      | error fault =>
          rw [hstep] at h
          cases h
      | ok answer =>
          rw [hstep] at h
          obtain ⟨made, last, hrest, rfl⟩ := ih h
          exact ⟨answer.1 :: made, last, .cons hstep hrest, by simp⟩

theorem Runs.buildFrom (h : b.Runs steps made last) (done : List Made) :
    buildFrom b done steps = .ok ⟨last.program, done.reverse ++ made⟩ := by
  induction h generalizing done with
  | nil b => simp [CallTargets.buildFrom]
  | cons hstep _ ih =>
      unfold CallTargets.buildFrom
      rw [hstep]
      simpa using ih (_ :: done)

theorem Runs.split (h : b.Runs (pre ++ post) made last) :
    ∃ first mid rest, b.Runs pre first mid ∧ mid.Runs post rest last ∧ made = first ++ rest := by
  induction pre generalizing b made with
  | nil => exact ⟨[], b, made, .nil b, h, rfl⟩
  | cons step pre ih =>
      cases h with
      | cons hstep hrest =>
          obtain ⟨first, mid, rest, hpre, hpost, rfl⟩ := ih hrest
          exact ⟨_ :: first, mid, rest, .cons hstep hpre, hpost, rfl⟩

theorem Runs.snoc {mid : Builder} {step : Step} {m : Made} (h : b.Runs steps made mid)
    (hstep : step.apply mid = .ok (m, last)) : b.Runs (steps ++ [step]) (made ++ [m]) last := by
  induction h with
  | nil => exact .cons hstep (.nil last)
  | cons hfirst _ ih => exact .cons hfirst (ih hstep)

theorem Runs.length_made (h : b.Runs steps made last) : made.length = steps.length := by
  induction h with
  | nil => rfl
  | cons _ _ ih => rw [List.length_cons, List.length_cons, ih]

theorem Runs.count_le (h : b.Runs steps made last) (e : Entity) :
    b.program.count e ≤ last.program.count e :=
  Program.count_le_of_edits (edits_of_buildFrom (h.buildFrom [])) e

/-- What there is after some steps is what they have made. -/
theorem Runs.count_eq (h : b.Runs steps made last)
    (hroom : ∀ e, last.program.count e ≤ UInt32.size) (e : Entity) :
    last.program.count e = b.program.count e + (steps.map (·.adds e)).sum := by
  induction h with
  | nil => rfl
  | cons hstep hrest ih =>
      have hsound := Step.apply_sound hstep fun e => Nat.le_trans (hrest.count_le e) (hroom e)
      rw [ih hroom, hsound.count, List.map_cons, List.sum_cons, Nat.add_assoc]

end Builder

namespace Program

/-- The tables of a program agree with one another. -/
structure Coherent (p : Program) : Prop where
  function : ∀ (f : FuncId) (fn : Function), p.function f = .ok fn →
    (∃ value, p.value fn.value = .ok value ∧ value.kind = .function f) ∧
      p.asFunction? fn.value = .ok (some f)
  param : ∀ (f : FuncId) (fn : Function) (i : Nat) (v : ValueId), p.function f = .ok fn →
    fn.params[i]? = some v → ∃ value, p.value v = .ok value ∧ value.kind = .argument f i
  /-- A block is listed once, and only in its own function. -/
  block : ∀ (b : BlockId) (block : Block), p.block b = .ok block →
    (∃ fn, p.function block.func = .ok fn ∧ fn.blocks.count b = 1) ∧
      ∀ (f : FuncId) (fn : Function), p.function f = .ok fn → b ∈ fn.blocks → f = block.func
  block_listed : ∀ (f : FuncId) (fn : Function) (b : BlockId), p.function f = .ok fn →
    b ∈ fn.blocks → ∃ block, p.block b = .ok block
  /-- An instruction is listed once, and only in its own block. -/
  inst : ∀ (v : ValueId) (value : Value) (inst : Inst), p.value v = .ok value →
    value.kind = .inst inst →
    (∃ block, p.block inst.block = .ok block ∧ block.insts.count v = 1) ∧
      ∀ (b : BlockId) (block : Block), p.block b = .ok block → v ∈ block.insts → b = inst.block
  inst_listed : ∀ (b : BlockId) (block : Block) (v : ValueId), p.block b = .ok block →
    v ∈ block.insts → ∃ value inst, p.value v = .ok value ∧ value.kind = .inst inst

theorem coherent_of_lists {p : Program} (howned : p.Owned) (hlisted : p.Listed) : p.Coherent := by
  constructor
  · intro f fn hfn
    refine ⟨?_, hlisted.asFunction? hfn⟩
    obtain ⟨value, hvalue, hkind⟩ := hlisted.value f.index fn (fetch_eq_ok_iff.mp hfn)
    rw [f.ofNat_index] at hkind
    exact ⟨value, fetch_eq_ok_iff.mpr hvalue, hkind⟩
  · intro f fn i v hfn hv
    obtain ⟨value, hvalue, hkind⟩ := howned.kind_of_param hfn hv
    exact ⟨value, hvalue, hkind⟩
  · intro b block hblock
    constructor
    · obtain ⟨fn, hfn, hcount⟩ := hlisted.block b.index block (fetch_eq_ok_iff.mp hblock)
      rw [b.ofNat_index] at hcount
      exact ⟨fn, fetch_eq_ok_iff.mpr hfn, hcount⟩
    · exact fun f fn hfn hb => (howned.func_of_block hfn hb hblock).symm
  · intro f fn b hfn hb
    obtain ⟨block, hblock, -⟩ := howned.block f.index fn (fetch_eq_ok_iff.mp hfn) b hb
    exact ⟨block, fetch_eq_ok_iff.mpr hblock⟩
  · intro v value inst hvalue hkind
    have hlookup := fetch_eq_ok_iff.mp hvalue
    constructor
    · obtain ⟨block, hblock, hcount⟩ := hlisted.inst v.index value inst hlookup hkind
      rw [v.ofNat_index] at hcount
      exact ⟨block, fetch_eq_ok_iff.mpr hblock, hcount⟩
    · intro b block hblock hv
      obtain ⟨value', inst', hvalue', hkind', hhome⟩ :=
        howned.inst b.index block (fetch_eq_ok_iff.mp hblock) v hv
      rw [hlookup] at hvalue'
      cases hvalue'
      rw [hkind] at hkind'
      cases hkind'
      rw [hhome, b.ofNat_index]
  · intro b block v hblock hv
    obtain ⟨value, inst, hvalue, hkind, -⟩ :=
      howned.inst b.index block (fetch_eq_ok_iff.mp hblock) v hv
    exact ⟨value, inst, fetch_eq_ok_iff.mpr hvalue, hkind⟩

end Program

/-- A built program is coherent, and each of its steps answered with the next free number and
left what was there before as it was, except that the phi to which a step adds an edge has this
edge behind its others afterwards. -/
theorem build_coherent {steps : List Step} {built : Built} (h : build steps = .ok built)
    (hroom : ∀ e, built.program.count e ≤ UInt32.size) :
    built.program.Coherent ∧ ∀ pre step post, steps = pre ++ step :: post →
      ∃ before after m, build pre = .ok before ∧ build (pre ++ [step]) = .ok after ∧
        built.made[pre.length]? = some m ∧
        (∀ e, before.program.count e = (pre.map (·.adds e)).sum) ∧
        step.Sound m before.program after.program := by
  have haddr : built.program.Addressable := ⟨hroom .value, hroom .block⟩
  refine ⟨Program.coherent_of_lists (Program.owned_of_build h haddr)
    (Program.listed_of_build h haddr), ?_⟩
  rintro pre step post rfl
  obtain ⟨made, last, hruns, rfl⟩ := Builder.runs_of_buildFrom h
  obtain ⟨first, mid, rest, hpre, hpost, rfl⟩ := hruns.split
  cases hpost with
  | @cons _ next _ _ _ m rest hstep hrest =>
      have hnext : ∀ e, next.program.count e ≤ UInt32.size :=
        fun e => Nat.le_trans (hrest.count_le e) (hroom e)
      have hsound := Step.apply_sound hstep hnext
      have hmid : ∀ e, mid.program.count e ≤ UInt32.size := by
        intro e
        have hcount := hsound.count e
        have hbound := hnext e
        omega
      refine ⟨_, _, m, hpre.buildFrom [], (hpre.snoc hstep).buildFrom [], ?_, ?_, hsound⟩
      · simp [← hpre.length_made]
      · intro e
        have hempty : Builder.empty.program.count e = 0 := by cases e <;> rfl
        rw [hpre.count_eq hmid, hempty, Nat.zero_add]

/-- Two functions that are made in turns: a loop in the one, and a call of it in the other. -/
def scattered : List Step :=
  [.declare "f" [.ptr] .ptr, .define "g" [] .void, .block (.ofNat 0) "loop",
    .positionAtEnd (.ofNat 1), .phi "x" .ptr, .positionAtEnd (.ofNat 0),
    .call "" .ptr (.ofNat 0) [.ofNat 2], .positionAtEnd (.ofNat 1),
    .incoming (.ofNat 3) (.ofNat 1) (.ofNat 1), .br (.ofNat 1)]

/-- The value of the call follows the one of the phi, which has no edges at first and later the one
that is added to it. -/
theorem build_coherent_scattered : ∃ (built before after previous last : Built),
    build scattered = .ok built ∧ (∀ e, built.program.count e ≤ UInt32.size) ∧
      built.program.Coherent ∧
      build (scattered.take 6) = .ok before ∧ before.program.count .value = 4 ∧
      (Step.call "" .ptr (.ofNat 0) [.ofNat 2]).Sound (.value (.ofNat 4)) before.program
        after.program ∧
      build (scattered.take 8) = .ok previous ∧ build (scattered.take 9) = .ok last ∧
      (Step.incoming (.ofNat 3) (.ofNat 1) (.ofNat 1)).Sound .nothing previous.program
        last.program ∧
      previous.program.inst? (.ofNat 3) = .ok (some ⟨.ofNat 1, .phi [], none⟩) ∧
      last.program.inst? (.ofNat 3) =
        .ok (some ⟨.ofNat 1, .phi [(.ofNat 1, .ofNat 1)], none⟩) := by
  obtain ⟨built, hbuilt, hvalues, hblocks, hfunctions, hcall, hincoming⟩ :
      ∃ built, build scattered = .ok built ∧ built.program.count .value = 6 ∧
        built.program.count .block = 2 ∧ built.program.count .func = 2 ∧
        built.made[6]? = some (.value (.ofNat 4)) ∧ built.made[8]? = some .nothing :=
    ⟨_, rfl, rfl, rfl, rfl, rfl, rfl⟩
  have hroom : ∀ e, built.program.count e ≤ UInt32.size := by
    intro e
    cases e with
    | value => exact hvalues ▸ by decide
    | block => exact hblocks ▸ by decide
    | func => exact hfunctions ▸ by decide
  obtain ⟨hcoherent, hsteps⟩ := build_coherent hbuilt hroom
  obtain ⟨before, after, m, hbefore, -, hm, hcount, hsound⟩ :=
    hsteps (scattered.take 6) (.call "" .ptr (.ofNat 0) [.ofNat 2]) (scattered.drop 7) rfl
  obtain ⟨previous, last, m', hprevious, hlast, hm', -, hsound'⟩ :=
    hsteps (scattered.take 8) (.incoming (.ofNat 3) (.ofNat 1) (.ofNat 1)) (scattered.drop 9) rfl
  obtain rfl := Option.some.inj (hcall.symm.trans hm)
  obtain rfl := Option.some.inj (hincoming.symm.trans hm')
  have hphi : previous.program.inst? (.ofNat 3) = .ok (some ⟨.ofNat 1, .phi [], none⟩) := by
    obtain ⟨q, hq, hinst⟩ : ∃ q, build (scattered.take 8) = .ok q ∧
        q.program.inst? (.ofNat 3) = .ok (some ⟨.ofNat 1, .phi [], none⟩) := ⟨_, rfl, rfl⟩
    cases hprevious.symm.trans hq
    exact hinst
  exact ⟨built, before, after, previous, last, hbuilt, hroom, hcoherent, hbefore, hcount .value,
    hsound, hprevious, hlast, hsound', hphi, hsound'.inst?_incoming hphi⟩

end CallTargets
