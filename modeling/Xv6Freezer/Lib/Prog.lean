import Xv6Freezer.Lib.Transition

/-! # Interleaved programs

Code of several threads over a shared state, as programs of atomic operations (`Prog`), interleaved in every
way (`Machine.lts`). The rule `Machine.invariant` proves an invariant thread by thread: a program is checked
against the local record of its thread alone (`Prog.wt`).
-/

namespace Xv6Freezer.Lib

open Function

/-! ## Programs -/

/-- A program over the operations `Op` with the results `Res`. -/
inductive Prog (Op : Type) (Res : Op → Type) (α : Type) where
  | ret (a : α)
  | op (o : Op) (k : Res o → Prog Op Res α)

namespace Prog

variable {Op : Type} {Res : Op → Type} {α β γ : Type}

def bind : Prog Op Res α → (α → Prog Op Res β) → Prog Op Res β
  | .ret a, f => f a
  | .op o k, f => .op o fun r => (k r).bind f

instance : Monad (Prog Op Res) where
  pure := .ret
  bind := bind

def exec (o : Op) : Prog Op Res (Res o) := .op o .ret

theorem bind_assoc (c : Prog Op Res α) (f : α → Prog Op Res β) (g : β → Prog Op Res γ) :
    (c.bind f).bind g = c.bind fun a => (f a).bind g := by
  induction c with
  | ret a => rfl
  | op o k ih => exact congrArg (Prog.op o) (funext fun r => ih r)

theorem bind_ret (c : Prog Op Res α) : c.bind .ret = c := by
  induction c with
  | ret a => rfl
  | op o k ih => exact congrArg (Prog.op o) (funext fun r => ih r)

instance : LawfulMonad (Prog Op Res) :=
  LawfulMonad.mk' _ bind_ret (fun _ _ => rfl) bind_assoc

end Prog

/-! ## Local records -/

/-- What a thread, with a record in `L`, needs before an operation and knows after it. -/
structure Rules (Op : Type) (Res : Op → Type) (L : Type) where
  pre : Op → L → Prop
  post : (o : Op) → L → Res o → L → Prop

namespace Prog

variable {Op : Type} {Res : Op → Type} {L α β : Type} {R : Rules Op Res L} {g : L}

/-- A program has what its operations need, and ends with a result and a record in `Q`. -/
def wt (R : Rules Op Res L) : Prog Op Res α → L → (α → L → Prop) → Prop
  | .ret a, g, Q => Q a g
  | .op o k, g, Q => R.pre o g ∧ ∀ r g', R.post o g r g' → (k r).wt R g' Q

@[simp] theorem wt_pure {a : α} {Q : α → L → Prop} :
    (pure a : Prog Op Res α).wt R g Q ↔ Q a g := Iff.rfl

@[simp] theorem wt_exec {o : Op} {Q : Res o → L → Prop} :
    (exec o : Prog Op Res (Res o)).wt R g Q ↔ R.pre o g ∧ ∀ r g', R.post o g r g' → Q r g' := Iff.rfl

theorem wt_mono {c : Prog Op Res α} {Q Q' : α → L → Prop} (h : c.wt R g Q)
    (hQ : ∀ a g, Q a g → Q' a g) : c.wt R g Q' := by
  induction c generalizing g with
  | ret a => exact hQ a g h
  | op o k ih => exact ⟨h.1, fun r g' hr => ih r (h.2 r g' hr)⟩

@[simp] theorem wt_bind {c : Prog Op Res α} {f : α → Prog Op Res β} {Q : β → L → Prop} :
    (c >>= f).wt R g Q ↔ c.wt R g fun a g' => (f a).wt R g' Q := by
  show (c.bind f).wt R g Q ↔ _
  induction c generalizing g with
  | ret a => rfl
  | op o k ih =>
    exact and_congr_right fun _ => forall_congr' fun r => forall_congr' fun g' =>
      imp_congr_right fun _ => ih r

/-- `for(i = 0; i < n; i++) body(i);` -/
def times : Nat → (Nat → Prog Op Res Unit) → Prog Op Res Unit
  | 0, _ => pure ()
  | n + 1, body => do
    times n body
    body n

theorem wt_times {n : Nat} {body : Nat → Prog Op Res Unit} {J : Nat → L → Prop} (h0 : J 0 g)
    (hbody : ∀ i g, i < n → J i g → (body i).wt R g fun _ => J (i + 1)) :
    (times n body).wt R g fun _ => J n := by
  induction n with
  | zero => exact h0
  | succ n ih =>
    refine wt_bind.mpr (wt_mono (ih fun i g hi => hbody i g (Nat.lt_succ_of_lt hi)) ?_)
    exact fun _ g' hg => hbody n g' (Nat.lt_succ_self n) hg

-- loops are reasoned about with `wt_times`, not unrolled
attribute [irreducible] times

theorem wt_ite {b : Prop} [Decidable b] {c c' : Prog Op Res α} {Q : α → L → Prop}
    (h : b → c.wt R g Q) (h' : ¬ b → c'.wt R g Q) : (if b then c else c').wt R g Q := by
  split
  · exact h ‹_›
  · exact h' ‹_›

end Prog

/-! ## Machines -/

/-- What becomes of an operation. -/
inductive Outcome (ρ σ : Type) where
  | blocked
  | panic (msg : String)
  | done (r : ρ) (s : σ)

/-- Threads `P` with operations on a shared state `σ`; `E` are answers, `Call` what a thread may start. -/
structure Machine (P Op E σ Call : Type) (Res : Op → Type) where
  exec : P → (o : Op) → E → σ → Outcome (Res o) σ
  code : P → Call → σ → Option (Prog Op Res Int)
  init : σ → Prop

/-- A thread: the rest of its program, or the panic it has come to. -/
inductive Thread (Op : Type) (Res : Op → Type) where
  | run (c : Prog Op Res Int)
  | panicked (msg : String)

structure Conc (P Op σ : Type) (Res : Op → Type) where
  shared : σ
  thread : P → Thread Op Res

/-- What happens to a thread: it executes its next operation, or starts a call. -/
inductive ConcAct (E Call : Type) where
  | go (e : E)
  | call (c : Call)

namespace Thread

variable {Op : Type} {Res : Op → Type} {L : Type}

/-- The thread has nothing to do. -/
def isIdle : Thread Op Res → Bool
  | .run (.ret _) => true
  | _ => false

/-- The thread has an operation to execute. -/
def isBusy : Thread Op Res → Bool
  | .run (.op _ _) => true
  | _ => false

/-- The panic the thread has come to. -/
def msg? : Thread Op Res → Option String
  | .panicked msg => some msg
  | _ => none

theorem eq_of_msg? {th : Thread Op Res} {msg : String} (h : th.msg? = some msg) :
    th = .panicked msg := by
  cases th with
  | run c => cases h
  | panicked m => rw [Option.some.inj h]

/-- The rest of the program is checked against the record of the thread. -/
def Typed (R : Rules Op Res L) (idle : L → Prop) : Thread Op Res → L → Prop
  | .run c, g => c.wt R g fun _ => idle
  | .panicked _, _ => True

end Thread

namespace Machine

variable {P Op E σ Call : Type} {Res : Op → Type} [DecidableEq P] (m : Machine P Op E σ Call Res)

def step (s : Conc P Op σ Res) (a : P × ConcAct E Call) : Option (Conc P Op σ Res) :=
  match s.thread a.1, a.2 with
  | .run (.op o k), .go e =>
    match m.exec a.1 o e s.shared with
    | .blocked => none
    | .panic msg => some { s with thread := update s.thread a.1 (.panicked msg) }
    | .done r s' => some { shared := s', thread := update s.thread a.1 (.run (k r)) }
  | .run (.ret _), .call c =>
    (m.code a.1 c s.shared).map fun prog => { s with thread := update s.thread a.1 (.run prog) }
  | _, _ => none

/-- All interleavings, from states in which no thread has anything to do. -/
def lts : Lts (Conc P Op σ Res) (P × ConcAct E Call) where
  init s := m.init s.shared ∧ ∀ p, s.thread p = .run (.ret 0)
  step s a := m.step s a

variable {m} {L : Type} {ok : Conc P Op σ Res → P × ConcAct E Call → Prop} {s : Conc P Op σ Res}

/-- **The rule for interleavings.** `I` relates the shared state to the records of all threads. It is an
invariant if a call can be started with a record that its code is checked with, and every operation keeps `I`
with a new record of its thread. `Ctx` is what is known about the states of the run. -/
theorem invariant {R : Rules Op Res L} {idle : L → Prop} {I : σ → (P → L) → Prop}
    {Ctx : Conc P Op σ Res → Prop} (hctx : ∀ s, m.lts.ReachableIf ok s → Ctx s)
    (h0 : ∀ s, m.init s → ∃ γ, I s γ ∧ ∀ p, idle (γ p))
    (hcall : ∀ s γ p c prog, Ctx s → I s.shared γ → ok s (p, .call c) → idle (γ p) →
      m.code p c s.shared = some prog →
      ∃ g, I s.shared (update γ p g) ∧ prog.wt R g fun _ => idle)
    (hstep : ∀ s γ p o k e r s', Ctx s → I s.shared γ → (∀ p, (s.thread p).Typed R idle (γ p)) →
      ok s (p, .go e) → s.thread p = .run (.op o k) → R.pre o (γ p) →
      m.exec p o e s.shared = .done r s' →
      ∃ γ', R.post o (γ p) r (γ' p) ∧ I s' γ' ∧
        ∀ q, q ≠ p → γ' q = γ q ∨ (s.thread q).isBusy = false ∧ idle (γ' q))
    (h : m.lts.ReachableIf ok s) :
    ∃ γ, I s.shared γ ∧ ∀ p, (s.thread p).Typed R idle (γ p) := by
  have hall : m.lts.ReachableIf ok s ∧
      ∃ γ, I s.shared γ ∧ ∀ p, (s.thread p).Typed R idle (γ p) := by
    refine h.invariant (I := fun t => m.lts.ReachableIf ok t ∧
      ∃ γ, I t.shared γ ∧ ∀ p, (t.thread p).Typed R idle (γ p)) (fun t ht => ?_) ?_
    · obtain ⟨γ, hI, hidle⟩ := h0 t.shared ht.1
      refine ⟨⟨t, ht, .refl t⟩, γ, hI, fun p => ?_⟩
      rw [ht.2 p]
      exact hidle p
    · rintro t ⟨p, a⟩ t' ⟨hr, γ, hI, hty⟩ ha hs
      refine ⟨hr.trans (Lts.RunIf.tail (.refl t) ha hs), ?_⟩
      change m.step t (p, a) = some t' at hs
      unfold step at hs
      simp only at hs
      split at hs
      · rename_i o k e hth
        have hp := hty p
        rw [hth] at hp
        split at hs
        · cases hs
        · -- the record of a thread that has panicked says what it keeps
          cases hs
          refine ⟨γ, hI, fun q => ?_⟩
          by_cases hq : q = p
          · subst hq; simp [Thread.Typed]
          · simpa [update_of_ne hq] using hty q
        · rename_i r s' he
          cases hs
          obtain ⟨γ', hpost, hI', hother⟩ := hstep t γ p o k e r s' (hctx t hr) hI hty ha hth hp.1 he
          refine ⟨γ', hI', fun q => ?_⟩
          by_cases hq : q = p
          · subst hq
            simpa [Thread.Typed] using hp.2 r (γ' q) hpost
          · simp only [update_of_ne hq]
            rcases hother q hq with e | ⟨hid, hg⟩
            · rw [e]; exact hty q
            · cases hthq : t.thread q with
              | panicked msg => trivial
              | run c =>
                cases c with
                | ret v => exact hg
                | op o' k' => simp [hthq, Thread.isBusy] at hid
      · rename_i v c hth
        have hp := hty p
        rw [hth] at hp
        obtain ⟨prog, hcode, rfl⟩ := Option.map_eq_some_iff.mp hs
        obtain ⟨g, hI', hwt⟩ := hcall t γ p c prog (hctx t hr) hI ha hp hcode
        refine ⟨update γ p g, hI', fun q => ?_⟩
        by_cases hq : q = p
        · subst hq; simpa [Thread.Typed] using hwt
        · simpa [update_of_ne hq] using hty q
      · cases hs
  exact hall.2

theorem panicked {Ctx : Conc P Op σ Res → Prop} {G : String → Prop}
    (hctx : ∀ s, m.lts.ReachableIf ok s → Ctx s)
    (hpanic : ∀ s p o k e msg, Ctx s → s.thread p = .run (.op o k) →
      m.exec p o e s.shared = .panic msg → G msg)
    (h : m.lts.ReachableIf ok s) {p : P} {msg : String} (hp : s.thread p = .panicked msg) : G msg := by
  have hall : m.lts.ReachableIf ok s ∧ ∀ p msg, s.thread p = .panicked msg → G msg := by
    refine h.invariant (I := fun t => m.lts.ReachableIf ok t ∧
      ∀ p msg, t.thread p = .panicked msg → G msg) (fun t ht => ?_) ?_
    · refine ⟨⟨t, ht, .refl t⟩, fun p msg hp => ?_⟩
      rw [ht.2 p] at hp
      cases hp
    · rintro t ⟨p, a⟩ t' ⟨hr, hG⟩ ha hs
      refine ⟨hr.trans (Lts.RunIf.tail (.refl t) ha hs), fun q msg hq => ?_⟩
      change m.step t (p, a) = some t' at hs
      unfold step at hs
      simp only at hs
      -- only the thread that moves can have come to a panic
      have hother : ∀ th, t'.thread = update t.thread p th → (q = p → th = .panicked msg → G msg) →
          G msg := fun th hth hself => by
        rw [hth] at hq
        by_cases hqp : q = p
        · subst hqp
          rw [update_self] at hq
          exact hself rfl hq
        · rw [update_of_ne hqp] at hq
          exact hG q msg hq
      split at hs
      · rename_i o k e hth
        split at hs
        · cases hs
        · rename_i msg' he
          cases hs
          refine hother _ rfl fun _ hmsg => ?_
          obtain rfl := Thread.panicked.inj hmsg
          exact hpanic t p o k e msg' (hctx t hr) hth he
        · cases hs
          exact hother _ rfl nofun
      · obtain ⟨prog, -, rfl⟩ := Option.map_eq_some_iff.mp hs
        exact hother _ rfl nofun
      · cases hs
  exact hall.2 p msg hp

end Machine

end Xv6Freezer.Lib
