import CallTargets.Fault
import Mathlib.Tactic.Choose

/-!
# What halting computations come to

`Failing.Ends` says of an outcome that it is not a spent budget.  For computations with
a state there are two views.  `Halting.Keeps` speaks about an invariant of the state and
about every result that can be returned.  `Halting.Computes` compares two computations
from related states: both come to one and the same outcome, which the states have no say
in, and the relation still holds when they are done.  Each view has one rule for each way
in which computations are put together.
-/

namespace CallTargets

variable {ε ε' σ α β : Type}

/-! ## Successful attempts -/

theorem bind_eq_ok_iff {x : Except ε α} {f : α → Except ε β} {b : β} :
    x >>= f = .ok b ↔ ∃ a, x = .ok a ∧ f a = .ok b := by
  cases x with
  | error e => simp [bind, Except.bind]
  | ok a => simp [bind, Except.bind]

theorem map_eq_ok_iff {x : Except ε α} {f : α → β} {b : β} :
    x.map f = .ok b ↔ ∃ a, x = .ok a ∧ f a = b := by
  cases x <;> simp [Except.map]

theorem mem_toOption_iff {x : Except ε α} {a : α} :
    x.toOption = some a ↔ x = .ok a := by
  cases x <;> simp [Except.toOption]

theorem eq_ok_of_toOption_any {x : Except ε α} {q : α → Bool} (h : x.toOption.any q = true) :
    ∃ a, x = .ok a ∧ q a = true := by
  cases x with
  | error e => cases h
  | ok a => exact ⟨a, rfl, h⟩

/-- What holds at the start of a fold and is kept by every step holds at its end. -/
theorem foldlM_ok_induction {f : β → α → Except ε β} {l : List α} {b b' : β}
    (h : l.foldlM f b = .ok b') (P : β → Prop) (hb : P b)
    (hstep : ∀ b a b', a ∈ l → P b → f b a = .ok b' → P b') : P b' := by
  induction l generalizing b with
  | nil =>
      cases h
      exact hb
  | cons a l ih =>
      rw [List.foldlM_cons] at h
      obtain ⟨b₁, hb₁, h⟩ := bind_eq_ok_iff.mp h
      refine ih h (hstep b a b₁ (by simp) hb hb₁) (fun c a' c' ha' => ?_)
      exact hstep c a' c' (by simp [ha'])

/-- What the step for one item brings about and no step undoes holds at the end. -/
theorem foldlM_ok_of_mem {f : β → α → Except ε β} {l : List α} {b b' : β}
    (h : l.foldlM f b = .ok b') {a : α} (ha : a ∈ l) (P : β → Prop)
    (hset : ∀ b b', f b a = .ok b' → P b')
    (hkeep : ∀ b a' b', a' ∈ l → P b → f b a' = .ok b' → P b') : P b' := by
  obtain ⟨before, after, rfl⟩ := List.append_of_mem ha
  rw [List.foldlM_append] at h
  obtain ⟨b₁, -, h⟩ := bind_eq_ok_iff.mp h
  rw [List.foldlM_cons] at h
  obtain ⟨b₂, hb₂, h⟩ := bind_eq_ok_iff.mp h
  refine foldlM_ok_induction h P (hset b₁ b₂ hb₂) (fun c a' c' ha' => ?_)
  exact hkeep c a' c' (by simp [ha'])

/-- The attempt succeeds, with a result that satisfies `P`. -/
def Gives (P : α → Prop) (x : Except ε α) : Prop := ∃ a, x = .ok a ∧ P a

namespace Gives

variable {P : α → Prop} {Q : β → Prop} {x : Except ε α}

protected theorem pure {a : α} (h : P a) : Gives P (pure a : Except ε α) := ⟨a, rfl, h⟩

protected theorem bind {f : α → Except ε β} (hx : Gives P x)
    (hf : ∀ a, x = .ok a → P a → Gives Q (f a)) : Gives Q (x >>= f) := by
  obtain ⟨a, rfl, ha⟩ := hx
  exact hf a rfl ha

theorem of_eq {a : α} (h : x = .ok a) : Gives (fun _ => True) x := ⟨a, h, trivial⟩

theorem imp {P' : α → Prop} (h : Gives P x) (hP : ∀ a, P a → P' a) : Gives P' x := by
  obtain ⟨a, ha, hPa⟩ := h
  exact ⟨a, ha, hP a hPa⟩

theorem foldlM {f : β → α → Except ε β} {l : List α} (hstep : ∀ b, Q b → ∀ a ∈ l, Gives Q (f b a))
    {b : β} (hb : Q b) : Gives Q (l.foldlM f b) := by
  induction l generalizing b with
  | nil => exact Gives.pure hb
  | cons a l ih =>
      rw [List.foldlM_cons]
      refine Gives.bind (hstep b hb a (by simp)) (fun b' _ hb' => ?_)
      exact ih (fun c hc a' ha' => hstep c hc a' (by simp [ha'])) hb'

theorem mapM {f : α → Except ε β} {l : List α} (h : ∀ a ∈ l, Gives (fun _ => True) (f a)) :
    Gives (fun _ => True) (l.mapM f) := by
  induction l with
  | nil => exact Gives.pure trivial
  | cons a l ih =>
      rw [List.mapM_cons]
      refine Gives.bind (h a (by simp)) (fun b _ _ => ?_)
      exact Gives.bind (ih (fun a' ha' => h a' (by simp [ha']))) (fun _ _ _ => Gives.pure trivial)

end Gives

namespace Failing

theorem ofExcept_eq_ok_iff {x : Except Fault α} {a : α} :
    (Failing.ofExcept x : Failing ε α) = .ok a ↔ x = .ok a := by
  cases x with
  | ok b => simp [Failing.ofExcept]
  | error cause => simp [Failing.ofExcept]

/-! ## Outcomes other than a spent budget -/

/-- The outcome is a result, a fault or a failure. -/
def Ends (x : Failing ε α) : Prop := x ≠ .error .exhausted

namespace Ends

theorem ok (a : α) : Ends (.ok a : Failing ε α) := nofun

theorem fault (cause : Fault) : Ends (.error (.fault cause) : Failing ε α) := nofun

theorem failed (error : ε) : Ends (.error (.failed error) : Failing ε α) := nofun

theorem ofExcept (x : Except Fault α) : Ends (Failing.ofExcept x : Failing ε α) := by
  cases x with
  | ok a => exact ok a
  | error cause => exact fault cause

protected theorem bind {x : Failing ε α} {f : α → Failing ε β} (hx : Ends x)
    (hf : ∀ a, x = .ok a → Ends (f a)) : Ends (x >>= f) := by
  cases x with
  | ok a => exact hf a rfl
  | error halt =>
      rintro h
      cases h
      exact hx rfl

theorem foldlM {f : β → α → Failing ε β} (hf : ∀ b a, Ends (f b a)) (l : List α) (b : β) :
    Ends (l.foldlM f b) := by
  induction l generalizing b with
  | nil => exact ok b
  | cons a l ih =>
      rw [List.foldlM_cons]
      exact (hf b a).bind (fun b' _ => ih b')

end Ends

end Failing

namespace Halting

/-! ## Successful runs -/

theorem bind_apply (x : Halting ε σ α) (f : α → Halting ε σ β) (s : σ) :
    (x >>= f) s = match x s with
      | .ok a s' => f a s'
      | .error halt s' => .error halt s' := by
  change EStateM.bind x f s = _
  unfold EStateM.bind
  cases x s <;> rfl

theorem bind_eq_ok_iff {x : Halting ε σ α} {f : α → Halting ε σ β} {s s'' : σ} {b : β} :
    (x >>= f) s = .ok b s'' ↔ ∃ a s', x s = .ok a s' ∧ f a s' = .ok b s'' := by
  rw [bind_apply]
  cases x s with
  | error halt s' => simp
  | ok a s' =>
      constructor
      · exact fun h => ⟨a, s', rfl, h⟩
      · rintro ⟨a', t, h, hb⟩
        cases h
        exact hb

theorem pure_eq_ok_iff {a b : α} {s s' : σ} :
    (pure a : Halting ε σ α) s = .ok b s' ↔ a = b ∧ s = s' := by
  rw [show (pure a : Halting ε σ α) s = .ok a s from rfl]
  simp

theorem ofFailing_eq_ok_iff {x : Failing ε α} {a : α} {s s' : σ} :
    (ofFailing x : Halting ε σ α) s = .ok a s' ↔ x = .ok a ∧ s = s' := by
  cases x with
  | ok b => simp [ofFailing]
  | error halt => simp [ofFailing]

theorem ofExcept_eq_ok_iff {x : Except Fault α} {a : α} {s s' : σ} :
    (ofExcept x : Halting ε σ α) s = .ok a s' ↔ x = .ok a ∧ s = s' := by
  cases x with
  | ok b => simp [ofExcept, ofFailing, Failing.ofExcept]
  | error cause => simp [ofExcept, ofFailing, Failing.ofExcept]

/-! ## Invariants of the state -/

/-- From states that satisfy `I`, results satisfy `P`, and the state goes on to satisfy
`I` also when there is no result. -/
def Keeps (I : σ → Prop) (P : α → Prop) (x : Halting ε σ α) : Prop :=
  ∀ s, I s →
    match x s with
    | .ok a s' => P a ∧ I s'
    | .error _ s' => I s'

namespace Keeps

variable {I : σ → Prop} {P : α → Prop} {Q : β → Prop} {x : Halting ε σ α}

theorem of_eq_ok (h : Keeps I P x) {s s' : σ} {a : α} (hs : I s) (hx : x s = .ok a s') : P a := by
  have hkeeps := h s hs
  rw [hx] at hkeeps
  exact hkeeps.1

protected theorem pure {a : α} (h : P a) : Keeps I P (pure a : Halting ε σ α) :=
  fun _ hs => ⟨h, hs⟩

theorem throw (halt : Halt ε) : Keeps I P (throw halt : Halting ε σ α) :=
  fun _ hs => hs

protected theorem bind {f : α → Halting ε σ β} (hx : Keeps I P x)
    (hf : ∀ a, P a → Keeps I Q (f a)) : Keeps I Q (x >>= f) := by
  intro s hs
  have hkeeps := hx s hs
  rw [bind_apply]
  cases hxs : x s with
  | error halt s' =>
      rw [hxs] at hkeeps
      exact hkeeps
  | ok a s' =>
      rw [hxs] at hkeeps
      exact hf a hkeeps.1 s' hkeeps.2

/-- What is known about a result may depend on the states that it came from. -/
theorem strengthen {P' : α → Prop} (h : Keeps I P x)
    (hP : ∀ s a s', I s → x s = .ok a s' → P a → P' a) : Keeps I P' x := by
  intro s hs
  have hkeeps := h s hs
  cases hxs : x s with
  | error halt s' =>
      rw [hxs] at hkeeps
      exact hkeeps
  | ok a s' =>
      rw [hxs] at hkeeps
      exact ⟨hP s a s' hs hxs hkeeps.1, hkeeps.2⟩

theorem imp {P' : α → Prop} (h : Keeps I P x) (hP : ∀ a, P a → P' a) : Keeps I P' x :=
  h.strengthen (fun _ a _ _ _ => hP a)

theorem modify {f : σ → σ} (hf : ∀ s, I s → I (f s)) :
    Keeps I (ε := ε) (fun _ => True) (modify f) :=
  fun s hs => ⟨trivial, hf s hs⟩

theorem ofFailing {x : Failing ε α} (h : ∀ a, x = .ok a → P a) :
    Keeps I P (Halting.ofFailing x : Halting ε σ α) := by
  intro s hs
  cases x with
  | error halt => exact hs
  | ok a => exact ⟨h a rfl, hs⟩

theorem ofExcept {x : Except Fault α} (h : ∀ a, x = .ok a → P a) :
    Keeps I P (Halting.ofExcept x : Halting ε σ α) :=
  ofFailing (fun a ha => h a (Failing.ofExcept_eq_ok_iff.mp ha))

theorem ofExcept_bind {x : Except Fault α} {f : α → Halting ε σ β}
    (h : ∀ a, x = .ok a → Keeps I Q (f a)) : Keeps I Q (Halting.ofExcept x >>= f) :=
  Keeps.bind (ofExcept (fun _ ha => ha)) h

theorem mapFailure {f : ε → ε'} (h : Keeps I P x) : Keeps I P (Halting.mapFailure f x) := by
  intro s hs
  have hkeeps := h s hs
  unfold Halting.mapFailure
  cases hxs : x s with
  | error halt s' =>
      rw [hxs] at hkeeps
      exact hkeeps
  | ok a s' =>
      rw [hxs] at hkeeps
      exact hkeeps

theorem foldlM {f : α → β → Halting ε σ α} {l : List β}
    (hstep : ∀ a, P a → ∀ b ∈ l, Keeps I P (f a b)) {a : α} (ha : P a) :
    Keeps I P (l.foldlM f a) := by
  induction l generalizing a with
  | nil => exact Keeps.pure ha
  | cons b l ih =>
      rw [List.foldlM_cons]
      refine Keeps.bind (hstep a ha b (by simp)) (fun a' ha' => ?_)
      exact ih (fun a'' ha'' b' hb' => hstep a'' ha'' b' (by simp [hb'])) ha'

end Keeps

/-! ## Outcomes that do not depend on the state -/

/-- What a computation comes to from a state, without the state that it ends in. -/
def outcome (x : Halting ε σ α) (s : σ) : Failing ε α :=
  match x s with
  | .ok a _ => .ok a
  | .error halt _ => .error halt

theorem outcome_of_eq {x : Halting ε σ α} {s s' : σ} {out : Failing ε α}
    (h : x s = ofFailing out s') : x.outcome s = out := by
  rw [outcome, h]
  cases out <;> rfl

theorem outcome_eq_ok_iff {x : Halting ε σ α} {s : σ} {a : α} :
    x.outcome s = .ok a ↔ ∃ s', x s = .ok a s' := by
  unfold outcome
  cases x s <;> simp

theorem eq_ok_of_outcome_any {x : Halting ε σ α} {s : σ} {q : α → Bool}
    (h : (x.outcome s).toOption.any q = true) : ∃ a s', x s = .ok a s' ∧ q a = true := by
  obtain ⟨a, ha, hq⟩ := eq_ok_of_toOption_any h
  obtain ⟨s', hs'⟩ := outcome_eq_ok_iff.mp ha
  exact ⟨a, s', hs', hq⟩

/-- From related states `x` and `y` come to the outcome `out` and to related states. -/
def Computes (R : σ → σ → Prop) (x y : Halting ε σ α) (out : Failing ε α) : Prop :=
  ∀ s t, R s t →
    ∃ s' t', R s' t' ∧ x s = ofFailing out s' ∧ y t = ofFailing out t'

/-- Some outcome other than a spent budget is computed by both `x` and `y`. -/
def Agree (R : σ → σ → Prop) (x y : Halting ε σ α) : Prop :=
  ∃ out, Failing.Ends out ∧ Computes R x y out

namespace Computes

variable {R : σ → σ → Prop} {x y : Halting ε σ α} {out : Failing ε α}

theorem eq_ok (h : Computes R x y out) {s s' t : σ} {a : α} (hst : R s t)
    (hx : x s = .ok a s') : out = .ok a := by
  obtain ⟨s'', t'', -, hout, -⟩ := h s t hst
  exact (ofFailing_eq_ok_iff.mp (hout.symm.trans hx)).1

protected theorem pure (a : α) : Computes R (pure a : Halting ε σ α) (pure a) (.ok a) :=
  fun s t h => ⟨s, t, h, rfl, rfl⟩

protected theorem bind {f g : α → Halting ε σ β} {next : α → Failing ε β}
    (hxy : Computes R x y out)
    (hfg : ∀ a, out = .ok a → Computes R (f a) (g a) (next a)) :
    Computes R (x >>= f) (y >>= g) (out >>= next) := by
  intro s t h
  obtain ⟨s', t', h', hx, hy⟩ := hxy s t h
  cases out with
  | error halt => exact ⟨s', t', h', by rw [bind_apply, hx]; rfl, by rw [bind_apply, hy]; rfl⟩
  | ok a =>
      obtain ⟨s'', t'', h'', hf, hg⟩ := hfg a rfl s' t' h'
      exact ⟨s'', t'', h'', by rw [bind_apply, hx]; exact hf, by rw [bind_apply, hy]; exact hg⟩

theorem ofFailing (x : Failing ε α) :
    Computes R (Halting.ofFailing x) (Halting.ofFailing x) x :=
  fun s t h => ⟨s, t, h, rfl, rfl⟩

theorem bind_ok {f g : α → Halting ε σ β} {a : α} {out : Failing ε β}
    (hxy : Computes R x y (.ok a)) (hfg : Computes R (f a) (g a) out) :
    Computes R (x >>= f) (y >>= g) out := by
  have hnext : ∀ a', (.ok a : Failing ε α) = .ok a' → Computes R (f a') (g a') out := by
    intro a' ha'
    cases ha'
    exact hfg
  exact hxy.bind hnext

theorem modify {f g : σ → σ} (hfg : ∀ s t, R s t → R (f s) (g t)) :
    Computes R (ε := ε) (modify f) (modify g) (.ok ()) :=
  fun s t h => ⟨f s, g t, hfg s t h, rfl, rfl⟩

theorem mapFailure {f : ε → ε'} (h : Computes R x y out) :
    Computes R (Halting.mapFailure f x) (Halting.mapFailure f y)
      (out.mapError (Halt.map f)) := by
  intro s t hst
  obtain ⟨s', t', hst', hx, hy⟩ := h s t hst
  refine ⟨s', t', hst', ?_, ?_⟩
  · rw [Halting.mapFailure, hx]
    cases out <;> rfl
  · rw [Halting.mapFailure, hy]
    cases out <;> rfl

theorem foldlM {f g : α → β → Halting ε σ α} {next : α → β → Failing ε α}
    (hstep : ∀ a b, Computes R (f a b) (g a b) (next a b)) (l : List β) (a : α) :
    Computes R (l.foldlM f a) (l.foldlM g a) (l.foldlM next a) := by
  induction l generalizing a with
  | nil => exact Computes.pure a
  | cons b l ih =>
      simp only [List.foldlM_cons]
      exact Computes.bind (hstep a b) (fun a' _ => ih a')

end Computes

namespace Agree

variable {R : σ → σ → Prop} {x y : Halting ε σ α}

protected theorem pure (a : α) : Agree R (pure a : Halting ε σ α) (pure a) :=
  ⟨.ok a, .ok a, Computes.pure a⟩

protected theorem bind {f g : α → Halting ε σ β} (hxy : Agree R x y)
    (hfg : ∀ a, Agree R (f a) (g a)) : Agree R (x >>= f) (y >>= g) := by
  obtain ⟨out, hout, hxy⟩ := hxy
  choose next hnext hcomputes using hfg
  exact ⟨out >>= next, hout.bind (fun a _ => hnext a),
    Computes.bind hxy (fun a _ => hcomputes a)⟩

theorem of_computes_bind {f g : α → Halting ε σ β} {a : α} (hxy : Computes R x y (.ok a))
    (hfg : Agree R (f a) (g a)) : Agree R (x >>= f) (y >>= g) := by
  obtain ⟨out, hout, hfg⟩ := hfg
  exact ⟨out, hout, hxy.bind_ok hfg⟩

theorem ofFailing {x : Failing ε α} (hx : x.Ends) :
    Agree R (Halting.ofFailing x) (Halting.ofFailing x) :=
  ⟨x, hx, Computes.ofFailing x⟩

theorem ofExcept_bind {x : Except Fault α} {f g : α → Halting ε σ β}
    (hfg : ∀ a, x = .ok a → Agree R (f a) (g a)) :
    Agree R (Halting.ofExcept x >>= f) (Halting.ofExcept x >>= g) := by
  cases x with
  | error cause => exact ⟨.error (.fault cause), .fault cause, fun s t h => ⟨s, t, h, rfl, rfl⟩⟩
  | ok a => exact hfg a rfl

theorem modify {f g : σ → σ} (hfg : ∀ s t, R s t → R (f s) (g t)) :
    Agree R (ε := ε) (modify f) (modify g) :=
  ⟨.ok (), .ok (), Computes.modify hfg⟩

theorem mapFailure {f : ε → ε'} (h : Agree R x y) :
    Agree R (Halting.mapFailure f x) (Halting.mapFailure f y) := by
  obtain ⟨out, hout, h⟩ := h
  refine ⟨out.mapError (Halt.map f), ?_, h.mapFailure⟩
  cases out with
  | ok a => exact .ok a
  | error halt =>
      cases halt with
      | fault cause => exact .fault cause
      | failed error => exact .failed (f error)
      | exhausted => exact absurd rfl hout

end Agree

end Halting

end CallTargets
