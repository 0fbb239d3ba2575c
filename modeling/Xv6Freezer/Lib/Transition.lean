import Mathlib

/-! # Labelled transition systems

A **transition system** is a partial step function `step : σ → α → Option σ`. Runs whose labels satisfy a
condition, reachability, the induction rules, and the executable runner `execs`.
-/

namespace Xv6Freezer.Lib

/-- A labelled transition system with a deterministic, executable step function. -/
structure Lts (σ : Type*) (α : Type*) where
  init : σ → Prop
  /-- The state after label `a`, when the label is enabled. -/
  step : σ → α → Option σ

namespace Lts

variable {σ α : Type*} (T : Lts σ α)

/-- One step whose label satisfies `ok` in the state it is taken from. -/
def StepIf (ok : σ → α → Prop) (s s' : σ) : Prop := ∃ a, ok s a ∧ T.step s a = some s'

/-- A run all of whose steps satisfy `ok`. -/
def RunIf (ok : σ → α → Prop) : σ → σ → Prop := Relation.ReflTransGen (T.StepIf ok)

def Run : σ → σ → Prop := T.RunIf fun _ _ => True

/-- The states reached from an initial one by steps that satisfy `ok`. -/
def ReachableIf (ok : σ → α → Prop) (s : σ) : Prop := ∃ s0, T.init s0 ∧ T.RunIf ok s0 s

def Reachable (s : σ) : Prop := T.ReachableIf (fun _ _ => True) s

variable {T} {ok ok' : σ → α → Prop} {s s' s'' : σ}

theorem RunIf.refl (s : σ) : T.RunIf ok s s := Relation.ReflTransGen.refl

theorem RunIf.tail (h : T.RunIf ok s s') {a : α} (ha : ok s' a) (hs : T.step s' a = some s'') :
    T.RunIf ok s s'' :=
  Relation.ReflTransGen.tail h ⟨a, ha, hs⟩

theorem RunIf.head {a : α} (ha : ok s a) (hs : T.step s a = some s') (h : T.RunIf ok s' s'') :
    T.RunIf ok s s'' :=
  Relation.ReflTransGen.head ⟨a, ha, hs⟩ h

theorem RunIf.trans (h : T.RunIf ok s s') (h' : T.RunIf ok s' s'') : T.RunIf ok s s'' :=
  Relation.ReflTransGen.trans h h'

theorem RunIf.mono (h : T.RunIf ok s s') (himp : ∀ s a, ok s a → ok' s a) : T.RunIf ok' s s' :=
  Relation.ReflTransGen.mono (fun _ _ ⟨a, ha, hs⟩ => ⟨a, himp _ a ha, hs⟩) _ _ h

/-- **Invariant rule**: what every admitted step keeps holds at the end of a run. -/
theorem RunIf.invariant {I : σ → Prop} (h : T.RunIf ok s s') (h0 : I s)
    (hstep : ∀ s a s', I s → ok s a → T.step s a = some s' → I s') : I s' := by
  induction h with
  | refl => exact h0
  | tail _ hst ih =>
    obtain ⟨a, ha, hs⟩ := hst
    exact hstep _ a _ ih ha hs

theorem ReachableIf.trans (h : T.ReachableIf ok s) (hr : T.RunIf ok s s') : T.ReachableIf ok s' := by
  obtain ⟨s0, h0, hrun⟩ := h
  exact ⟨s0, h0, hrun.trans hr⟩

theorem ReachableIf.mono (h : T.ReachableIf ok s) (himp : ∀ s a, ok s a → ok' s a) :
    T.ReachableIf ok' s := by
  obtain ⟨s0, h0, hrun⟩ := h
  exact ⟨s0, h0, hrun.mono himp⟩

theorem ReachableIf.reachable (h : T.ReachableIf ok s) : T.Reachable s :=
  h.mono fun _ _ _ => trivial

theorem ReachableIf.invariant {I : σ → Prop} (h : T.ReachableIf ok s) (h0 : ∀ s, T.init s → I s)
    (hstep : ∀ s a s', I s → ok s a → T.step s a = some s' → I s') : I s := by
  obtain ⟨s0, hi, hrun⟩ := h
  exact hrun.invariant (h0 s0 hi) hstep

/-- **Run rule over a global invariant**: `P` is carried along a run when every admitted step keeps
it in the states where the invariant `I` of all steps holds. -/
theorem RunIf.carry {I P : σ → Prop} (h : T.RunIf ok s s') (hI : I s) (hP : P s)
    (hIstep : ∀ s a s', I s → T.step s a = some s' → I s')
    (hPstep : ∀ s a s', I s → P s → ok s a → T.step s a = some s' → P s') : I s' ∧ P s' :=
  h.invariant (I := fun s => I s ∧ P s) ⟨hI, hP⟩ fun s a s' ⟨hi, hp⟩ ha hs =>
    ⟨hIstep s a s' hi hs, hPstep s a s' hi hp ha hs⟩

variable (T)

/-- A run together with its history: what its steps emit, the latest first. -/
inductive Emits {ε : Type*} (ev : σ → α → Option ε) (s : σ) : List ε → σ → Prop
  | refl : Emits ev s [] s
  | tail {es : List ε} {s' s'' : σ} {a : α} (h : Emits ev s es s') (hs : T.step s' a = some s'') :
      Emits ev s ((ev s' a).toList ++ es) s''

variable {T}

theorem Emits.run {ε : Type*} {ev : σ → α → Option ε} {es : List ε} (h : T.Emits ev s es s') :
    T.Run s s' := by
  induction h with
  | refl => exact RunIf.refl s
  | tail _ hs ih => exact ih.tail trivial hs

variable (T)

/-- Run a list of labels in order, adding what the steps emit to the history `es`. -/
def execsEmits {ε : Type*} (ev : σ → α → Option ε) : σ → List ε → List α → Option (List ε × σ)
  | s, es, [] => some (es, s)
  | s, es, a :: as => (T.step s a).bind fun s' => execsEmits ev s' ((ev s a).toList ++ es) as

variable {T}

theorem Emits.execs {ε : Type*} {ev : σ → α → Option ε} {es es' : List ε} {as : List α}
    (h : T.Emits ev s es s') (he : T.execsEmits ev s' es as = some (es', s'')) :
    T.Emits ev s es' s'' := by
  induction as generalizing s' es with
  | nil =>
    obtain ⟨rfl, rfl⟩ : es = es' ∧ s' = s'' := by simpa [execsEmits] using he
    exact h
  | cons a as ih =>
    obtain ⟨s1, hs, hrest⟩ := Option.bind_eq_some_iff.mp he
    exact ih (h.tail hs) hrest

variable (T)

/-- Run a list of labels in order, as long as each of them satisfies `ok`. -/
def execs (ok : σ → α → Bool) : σ → List α → Option σ
  | s, [] => some s
  | s, a :: as => if ok s a then (T.step s a).bind fun s' => execs ok s' as else none

variable {T}

theorem runIf_of_execs {ok : σ → α → Bool} {as : List α} (h : T.execs ok s as = some s') :
    T.RunIf (fun s a => ok s a = true) s s' := by
  induction as generalizing s with
  | nil =>
    obtain rfl : s = s' := by simpa [execs] using h
    exact RunIf.refl s
  | cons a as ih =>
    simp only [execs] at h
    split at h
    · rename_i hok
      obtain ⟨s1, hs, hrest⟩ := Option.bind_eq_some_iff.mp h
      exact RunIf.trans (RunIf.tail (RunIf.refl s) hok hs) (ih hrest)
    · cases h

/-- A list of labels that executes under a condition to a state where `p` is true. -/
theorem reachableIf_of_execs (as : List α) (ok : σ → α → Bool) (p : σ → Bool) {s0 : σ}
    (h0 : T.init s0) (h : (T.execs ok s0 as).map p = some true) :
    ∃ s, T.ReachableIf (fun s a => ok s a = true) s ∧ p s = true := by
  obtain ⟨s, hs, hp⟩ := Option.map_eq_some_iff.mp h
  exact ⟨s, ⟨s0, h0, runIf_of_execs hs⟩, hp⟩

theorem reachable_of_execs (as : List α) (p : σ → Bool) {s0 : σ} (h0 : T.init s0)
    (h : (T.execs (fun _ _ => true) s0 as).map p = some true) : ∃ s, T.Reachable s ∧ p s = true := by
  obtain ⟨s, hs, hp⟩ := reachableIf_of_execs as _ p h0 h
  exact ⟨s, hs.reachable, hp⟩

/-- Two lists of labels, the second under a condition, to states where `p` is true. -/
theorem reachable_run_of_execs (as bs : List α) (ok : σ → α → Bool) (p : σ → σ → Bool) {s0 : σ}
    (h0 : T.init s0) (h : ((T.execs (fun _ _ => true) s0 as).bind fun s =>
      (T.execs ok s bs).map (p s)) = some true) :
    ∃ s s', T.Reachable s ∧ T.RunIf (fun s a => ok s a = true) s s' ∧ p s s' = true := by
  obtain ⟨s, hs, h'⟩ := Option.bind_eq_some_iff.mp h
  obtain ⟨s', hs', hp⟩ := Option.map_eq_some_iff.mp h'
  exact ⟨s, s', ⟨s0, h0, (runIf_of_execs hs).mono fun _ _ _ => trivial⟩, runIf_of_execs hs', hp⟩

end Lts

end Xv6Freezer.Lib
