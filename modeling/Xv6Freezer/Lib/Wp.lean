import Mathlib

/-! # Weakest preconditions for state and exceptions

For computations `StateT σ (Except ε)`, `wp x Q s` says that `x`, run from the state `s`, **does not fail**
and that its result and final state satisfy `Q`; `wlp` lets it fail.
-/

namespace Xv6Freezer.Lib

variable {σ τ ε α β : Type}

/-- The computation does not fail from `s`, and its outcome satisfies `Q`. -/
def wp (x : StateT σ (Except ε) α) (Q : α → σ → Prop) (s : σ) : Prop :=
  match x s with
  | .ok (a, s') => Q a s'
  | .error _ => False

variable {x : StateT σ (Except ε) α} {Q Q' : α → σ → Prop} {s : σ}

theorem wp_mono (h : wp x Q s) (himp : ∀ a s', Q a s' → Q' a s') : wp x Q' s := by
  unfold wp at h ⊢
  split at h
  · exact himp _ _ h
  · exact h.elim

@[simp] theorem wp_pure {a : α} : wp (pure a : StateT σ (Except ε) α) Q s ↔ Q a s := Iff.rfl

@[simp] theorem wp_bind {f : α → StateT σ (Except ε) β} {R : β → σ → Prop} :
    wp (x >>= f) R s ↔ wp x (fun a s' => wp (f a) R s') s := by
  unfold wp
  show (match (x s).bind _ with | .ok (a, s') => R a s' | .error _ => False) ↔ _
  cases x s with
  | error | ok => exact Iff.rfl

@[simp] theorem wp_get {R : σ → σ → Prop} :
    wp (get : StateT σ (Except ε) σ) R s ↔ R s s := Iff.rfl

@[simp] theorem wp_set {t : σ} {R : PUnit → σ → Prop} :
    wp (set t : StateT σ (Except ε) PUnit) R s ↔ R ⟨⟩ t := Iff.rfl

@[simp] theorem wp_modify {f : σ → σ} {R : PUnit → σ → Prop} :
    wp (modify f : StateT σ (Except ε) PUnit) R s ↔ R ⟨⟩ (f s) := Iff.rfl

@[simp] theorem wp_throw {e : ε} : wp (throw e : StateT σ (Except ε) α) Q s ↔ False := Iff.rfl

theorem wp_ite {c : Prop} [Decidable c] {y : StateT σ (Except ε) α} :
    wp (if c then x else y) Q s ↔ if c then wp x Q s else wp y Q s := by
  split <;> exact Iff.rfl

theorem wp_ite_bind {c : Prop} [Decidable c] {y : StateT σ (Except ε) PUnit}
    {k : PUnit → StateT σ (Except ε) α} :
    wp (if c then y >>= k else k ⟨⟩) Q s ↔ wp (if c then y else pure ⟨⟩) (fun u => wp (k u) Q) s := by
  split
  · exact wp_bind
  · exact Iff.rfl

theorem wp_iff : wp x Q s ↔ ∃ a s', x s = .ok (a, s') ∧ Q a s' := by
  unfold wp
  cases x s with
  | error e => simp
  | ok r => exact ⟨fun h => ⟨r.1, r.2, rfl, h⟩, fun ⟨_, _, hr, h⟩ => by cases hr; exact h⟩

/-- Run a computation on a part of a larger state. -/
def zoom (get : τ → σ) (put : σ → τ → τ) (x : StateT σ (Except ε) α) : StateT τ (Except ε) α :=
  fun t => do
    let (a, s) ← x (get t)
    return (a, put s t)

@[simp] theorem wp_zoom {get : τ → σ} {put : σ → τ → τ} {R : α → τ → Prop} {t : τ} :
    wp (zoom get put x) R t ↔ wp x (fun a s' => R a (put s' t)) (get t) := by
  unfold wp zoom
  cases x (get t) with
  | error | ok => exact Iff.rfl

theorem wp_forM {l : List β} {f : β → StateT σ (Except ε) PUnit} {I : List β → σ → Prop}
    (h0 : I l s) (hstep : ∀ b bs s, I (b :: bs) s → wp (f b) (fun _ s' => I bs s') s) :
    wp (l.forM f) (fun _ s' => I [] s') s := by
  induction l generalizing s with
  | nil => exact h0
  | cons b bs ih =>
    show wp (f b >>= fun _ => bs.forM f) _ s
    rw [wp_bind]
    exact wp_mono (hstep b bs s h0) fun _ s' h' => ih h'

/-! ## Partial correctness -/

/-- If the computation does not fail from `s`, then its outcome satisfies `Q`. -/
def wlp (x : StateT σ (Except ε) α) (Q : α → σ → Prop) (s : σ) : Prop :=
  ∀ a s', x s = .ok (a, s') → Q a s'

theorem wlp_iff : wlp x Q s ↔ ∀ a s', x s = .ok (a, s') → Q a s' := Iff.rfl

theorem wlp_of_wp (h : wp x Q s) : wlp x Q s := by
  obtain ⟨a, s', he, hQ⟩ := wp_iff.mp h
  intro b t hb
  cases he.symm.trans hb
  exact hQ

theorem wp_and_wlp (h : wp x Q s) (h' : wlp x Q' s) : wp x (fun a s' => Q a s' ∧ Q' a s') s := by
  obtain ⟨a, s', he, hQ⟩ := wp_iff.mp h
  exact wp_iff.mpr ⟨a, s', he, hQ, h' a s' he⟩

theorem wlp_mono (h : wlp x Q s) (himp : ∀ a s', Q a s' → Q' a s') : wlp x Q' s :=
  fun a s' he => himp a s' (h a s' he)

theorem wlp_of_forall (h : ∀ a s', Q a s') : wlp x Q s := fun a s' _ => h a s'

theorem wlp_throw {e : ε} : wlp (throw e : StateT σ (Except ε) α) Q s := nofun

theorem wlp_pure {a : α} : wlp (pure a : StateT σ (Except ε) α) Q s ↔ Q a s := by
  refine ⟨fun h => h a s rfl, fun h b t hb => ?_⟩
  cases hb
  exact h

theorem wlp_bind {f : α → StateT σ (Except ε) β} {R : β → σ → Prop} :
    wlp (x >>= f) R s ↔ wlp x (fun a s' => wlp (f a) R s') s := by
  have hrun : (x >>= f) s = (x s).bind fun r => f r.1 r.2 := rfl
  unfold wlp
  rw [hrun]
  cases x s with
  | error e => exact ⟨fun _ => nofun, fun _ => nofun⟩
  | ok r =>
    refine ⟨fun h a s' hr => ?_, fun h => h r.1 r.2 rfl⟩
    cases hr
    exact h

theorem wlp_get {R : σ → σ → Prop} : wlp (get : StateT σ (Except ε) σ) R s ↔ R s s := by
  refine ⟨fun h => h s s rfl, fun h b t hb => ?_⟩
  cases hb
  exact h

theorem wlp_modify {f : σ → σ} {R : PUnit → σ → Prop} :
    wlp (modify f : StateT σ (Except ε) PUnit) R s ↔ R ⟨⟩ (f s) := by
  refine ⟨fun h => h ⟨⟩ (f s) rfl, fun h b t hb => ?_⟩
  cases hb
  exact h

theorem wlp_zoom {get : τ → σ} {put : σ → τ → τ} {R : α → τ → Prop} {t : τ} :
    wlp (zoom get put x) R t ↔ wlp x (fun a s' => R a (put s' t)) (get t) := by
  have hrun : zoom get put x t = (x (get t)).bind fun r => .ok (r.1, put r.2 t) := rfl
  unfold wlp
  rw [hrun]
  cases x (get t) with
  | error e => exact ⟨fun _ => nofun, fun _ => nofun⟩
  | ok r =>
    refine ⟨fun h a s' hr => ?_, fun h a s' hr => ?_⟩
    · cases hr
      exact h _ _ rfl
    · cases hr
      exact h _ _ rfl

-- from here on both are used through their rules
attribute [irreducible] wp wlp

end Xv6Freezer.Lib
