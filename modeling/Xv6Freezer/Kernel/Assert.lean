import Xv6Freezer.Kernel.Sleep

/-! # Assertions under a spinlock

What code has tested under a spinlock stays true while the lock is held: nobody else changes the data, and a
process that comes back from `sleep` asserts nothing.
-/

namespace Xv6Freezer

open Function

variable {M : Client} {init : M.Data → Prop} {s s' : State M} {c c' : CpuId} {p : Slot}
  {f g : Frame M} {rest : List (Frame M)} {a : Act M}

/-! ## What `sleep` returns to -/

/-- Calls of `sleep` return to program points in `R`. -/
def Frame.Returns (R : M.Frame → Prop) : Frame M → Prop
  | .sleep _ _ _ _ ret => ∀ k, ret = .client k → R k
  | .schedCheck ret | .schedSwtch _ ret => ret.Returns R
  | _ => True

variable {R : M.Frame → Prop}

theorem Follows.returns {x : Nat}
    (hR : ∀ f self pid d x n l k, M.code f self pid d x = .sleep n l k → R k)
    (h : Follows s c x f g) (hret : f.Returns R)
    (hnr : ∀ p chan lk ret, f ≠ .sleep p chan lk .reacq ret) : g.Returns R := by
  cases h with
  | sleepRet p chan lk => exact absurd rfl (hnr p chan lk g)
  | schedSwtch | schedRet | sleepRel | sleepSet | sleepSched | sleepUnlock | sleepReacq => exact hret
  | clientSleep hp hcode =>
    intro k e
    cases e
    exact hR _ _ _ _ _ _ _ _ hcode
  | waitSleep => exact fun k e => by cases e
  | _ => trivial

theorem Frame.Ok.returns {chan : Chan} {lk : Lock M} {pc : SleepPc} {ret : Frame M} {q : Slot}
    (h : (Frame.sleep q chan lk pc ret).Ok p) : ret.Returns R := by
  obtain ⟨k, n, rfl, -⟩ | ⟨q, addr, i, b, rfl, -⟩ := Frame.sleeps_cases h.2.2.1 <;> trivial

theorem kstep_returns (hR : ∀ f self pid d x n l k, M.code f self pid d x = .sleep n l k → R k)
    (h : Inv s) (hret : ∀ q, ∀ g ∈ s.kst q, g.Returns R) (hs : kstep s c a = some s') (q : Slot)
    (hg : g ∈ s'.kst q) : g.Returns R := by
  obtain ⟨f, rest, hf, -⟩ := kstep_stepped h hs
  rcases kstep_kst_mem h hf hs hg with ⟨hg, -⟩ | ⟨hon, hkst, harises⟩ | rfl
  · exact hret q g hg
  · have hf' : f.Returns R := hret q f (hkst ▸ List.mem_cons_self)
    cases harises with
    | go hcode hg =>
      by_cases hre : ∃ p chan lk ret, f = .sleep p chan lk .reacq ret
      · obtain ⟨p, chan, lk, ret, rfl⟩ := hre
        cases hcode
        rw [List.mem_singleton.mp hg]
        exact ((h.stack_cons hf).ok hon).1.returns
      · exact (code_follows hcode hg).returns hR hf' fun p chan lk ret e => hre ⟨p, chan, lk, ret, e⟩
    | under => exact hf'
    | _ => trivial
  · trivial

/-! ## Program points on the stack -/

/-- How code outside `proc.c` that holds locks gets on the stack. -/
theorem Follows.client_cases {x : Nat} {k : M.Frame} (hst : StackOk s c (f :: rest))
    (h : Follows s c x f (.client k)) (hk : M.held k ≠ []) :
    (∃ g, f = .client g ∧ (M.code g (myproc s c) (mypid s c) s.data x).Next (some k)) ∨
      ∃ p chan lk, f = .sleep p chan lk .reacq (.client k) := by
  cases h with
  | fsinit => exact absurd M.held_fsinit hk
  | schedRet =>
    -- `sched` returns to `yield`, `sleep` or `exit`
    obtain ⟨p', hon⟩ := hst.on_some (fun _ => id) id
    obtain ⟨⟨-, -, hres⟩, -⟩ := hst.ok hon
    exact hres.elim
  | sleepRet p chan lk => exact .inr ⟨p, chan, lk, rfl⟩
  | exitClose => exact absurd (M.held_fileclose _) hk
  | exitIput => exact absurd (M.held_iput _) hk
  | client hcode => exact .inl ⟨_, rfl, hcode⟩

/-- **One step and code that holds locks**: it was on the stack, or the step put it there. -/
theorem kstep_client_mem {k : M.Frame} (h : Inv s) (hs : kstep s c a = some s')
    (hf : s.stackOf c = f :: rest) (hm : .client k ∈ s'.stackOf c') (hk : M.held k ≠ []) :
    .client k ∈ s.stackOf c' ∨ c' = c ∧ ∃ x, a = .go x ∧ Follows s c x f (.client k) := by
  rcases kstep_stackOf_mem h hf hs hm with hm | ⟨rfl, harises | ⟨i, rfl, -, hctx⟩ | ⟨i, ret, -, e⟩⟩
  · exact .inl hm
  · cases harises with
    | go hcode hg => exact .inr ⟨rfl, _, rfl, code_follows hcode hg⟩
    | under => exact .inl (hf ▸ List.mem_cons_self)
    | op hf' hentry => exact absurd (M.held_entry _ hentry) hk
    | intr hhandler => exact absurd (M.held_handler _ hhandler) hk
  · -- a process that is resumed holds its own lock only
    obtain ⟨-, hpark, -⟩ := h.saved_of_swtch hf
    obtain ⟨l, hl⟩ := List.exists_mem_of_ne_nil _ hk
    have hmem : Lock.client l ∈ heldBy (s.procs i).context :=
      List.mem_flatMap.mpr ⟨_, hctx, List.mem_map_of_mem hl⟩
    rw [hpark.2.1] at hmem
    cases List.mem_singleton.mp hmem
  · cases e

/-! ## Assertions -/

/-- The statement at `f` leads to program points whose assertions are true. -/
def Stmt.Asserts {F D L : Type} (held : F → List L) (lk : L) (holds : F → D → Prop) (f : F) (d : D) :
    Stmt F D L → Prop
  | .acquire _ k | .release _ k | .wakeup _ k => holds k d
  | .killed k => ∀ b, holds (k b) d
  | .update d' k => lk ∈ held f ∧ holds k d'
  | .sleep _ _ _ | .ret => True

/-- Assertions about the data that the spinlock `lk` protects. -/
structure Assertion (M : Client) where
  lk : M.Lk
  holds : M.Frame → M.Data → Prop
  /-- Nothing is known without the lock. -/
  free : ∀ f d, lk ∉ M.held f → holds f d
  /-- Every statement establishes the assertions that follow it. -/
  code : ∀ f self pid d x, holds f d →
    (M.code f self pid d x).Asserts M.held lk holds f d
  /-- A `sleep` returns to a program point where nothing is known. -/
  sleep : ∀ f self pid d x n l k, M.code f self pid d x = .sleep n l k → ∀ d', holds k d'

/-- The assertions of all program points that the CPUs are at, or return to. -/
def AssertInv (A : Assertion M) (s : State M) : Prop :=
  ∀ c k, .client k ∈ s.stackOf c → A.holds k s.data

variable {A : Assertion M}

theorem Stmt.Asserts.next {F D L : Type} {held : F → List L} {lk : L} {holds : F → D → Prop} {f k : F} {d : D}
    {st : Stmt F D L} (h : st.Asserts held lk holds f d) (hk : st.Next (some k))
    (hsleep : ∀ n l, st = .sleep n l k → holds k (st.data d)) : holds k (st.data d) := by
  cases st with
  | sleep n l k' => cases hk; exact hsleep n l rfl
  | killed k' =>
    obtain ⟨b, hb⟩ := hk
    cases hb
    exact h b
  | update d' k' => cases hk; exact h.2
  | ret => cases hk
  | _ => cases hk; exact h

theorem kstep_assertInv (h : Inv s) (hA : AssertInv A s)
    (hret : ∀ q, ∀ g ∈ s.kst q, g.Returns fun k => ∀ d, A.holds k d)
    (hs : kstep s c a = some s') : AssertInv A s' := by
  intro c' k hm
  by_cases hlk : A.lk ∈ M.held k
  case neg => exact A.free k _ hlk
  obtain ⟨f, rest, hf, hstep⟩ := kstep_stepped h hs
  have hk : M.held k ≠ [] := List.ne_nil_of_mem hlk
  have hheld : Lock.client A.lk ∈ (Frame.client k : Frame M).held := List.mem_map_of_mem hlk
  have htop : ∀ g, f = .client g → A.holds g s.data := fun g e => hA c g (by simp [hf, e])
  rcases kstep_data hs hf with e | ⟨x, g, d, k', rfl, rfl, hc, rfl, hst⟩
  · rcases kstep_client_mem h hs hf hm hk with hm | ⟨rfl, x, rfl, hfollows⟩
    · exact e ▸ hA c' k hm
    · rcases hfollows.client_cases (h.stack_cons hf) hk with ⟨g, rfl, hnext⟩ | ⟨p, chan, lk, rfl⟩
      · have hd : s'.data = (M.code g (myproc s c') (mypid s c') s.data x).data s.data := by
          obtain ⟨instr, hi, he⟩ := kstep_instr hf hs
          exact (exec_data he).trans (clientCode_data hi)
        rw [hd]
        refine (A.code g _ _ _ x (htop g rfl)).next hnext fun n l e => ?_
        exact A.sleep g _ _ _ x n l k e _
      · obtain ⟨q, hon⟩ := (h.stack_cons hf).on_some (fun _ => id) id
        refine hret q (.sleep p chan lk .reacq (.client k)) ?_ k rfl _
        rw [← State.stackOf_of_on hon, hf]
        exact .head _
  · -- the data change under the lock, which only this program point holds
    have has := A.code g (myproc s c) (mypid s c) s.data x (htop g rfl)
    rw [hc] at has
    have hg : Lock.client A.lk ∈ (Frame.client g : Frame M).held := List.mem_map_of_mem has.1
    by_cases hcc : c' = c
    · subst hcc
      rw [hst] at hm
      rcases List.mem_cons.mp hm with e | hm
      · cases e
        exact has.2
      · have hnd := h.nodup c'
        rw [hf, heldBy_cons] at hnd
        exact absurd rfl ((List.nodup_append.mp hnd).2.2 _ hg _ (List.mem_flatMap.mpr ⟨_, hm, hheld⟩))
    · rw [hstep.stackOf_of_ne h hf hcc] at hm
      exfalso
      refine h.not_mem_of_ne ?_ hcc (List.mem_flatMap.mpr ⟨_, hm, hheld⟩)
      rw [hf]
      exact List.mem_append_left _ hg

theorem Assertion.holds_of_top (A : Assertion M) {k : M.Frame} (h : (kernel M init).Reachable s)
    (hf : s.stackOf c = .client k :: rest) : A.holds k s.data := by
  obtain ⟨-, -, hA⟩ : Inv s ∧ (∀ q, ∀ g ∈ s.kst q, g.Returns fun k => ∀ d, A.holds k d) ∧
      AssertInv A s := by
    refine h.invariant (I := fun t => Inv t ∧
      (∀ q, ∀ g ∈ t.kst q, g.Returns fun k => ∀ d, A.holds k d) ∧ AssertInv A t) (fun t ht => ?_) ?_
    · obtain ⟨tf, pt, cwd, d, -, rfl⟩ := ht
      refine ⟨boot_inv tf pt cwd d, fun q g hg => (by cases hg), fun c k hm => ?_⟩
      simp [boot, State.stackOf] at hm
    · rintro t ⟨c, a⟩ t' ⟨hi, hret, hA⟩ - hs
      refine ⟨kstep_inv hi hs, fun q g hg => ?_, kstep_assertInv hi hA hret hs⟩
      exact kstep_returns A.sleep hi hret hs q hg
  exact hA c k (by simp [hf])

end Xv6Freezer
