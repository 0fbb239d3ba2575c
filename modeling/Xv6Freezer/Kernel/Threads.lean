import Xv6Freezer.Kernel.Switch

/-! # Every function of the kernel keeps the invariant

One theorem per function: an instruction of that function, executed on any CPU, keeps `Inv`. `kstep_inv` puts
them together.
-/

namespace Xv6Freezer

open Function (update update_self update_of_ne)

variable {M : Client} {s s' : State M} {c c' : CpuId} {i p : Slot} {f f' g : Frame M} {q : Proc M}
  {k rest : List (Frame M)}

/-! ## Instructions that go on in the same function -/

theorem Inv.stack_cons (h : Inv s) (hf : s.stackOf c = f :: rest) : StackOk s c (f :: rest) := by
  rw [← hf]; exact h.stack c

theorem Inv.on_of_current (h : Inv s) (hf : s.stackOf c = f :: rest)
    (hns : ∀ pc, ¬ f.IsScheduler pc) (hp : (s.cpus c).proc = some p) : (s.cpus c).on = some p := by
  have hst := h.stack_cons hf
  cases hon : (s.cpus c).on with
  | some p' =>
    rw [(h.busy c p' hon).1] at hp
    exact hp
  | none =>
    -- an interrupt handler above `scheduler`: no process is current
    exfalso
    simp only [StackOk, hon] at hst
    obtain ⟨pc, ⟨hs, -⟩ | ⟨-, hs, hb⟩, hcur, -⟩ := hst
    · exact hns pc hs
    · rw [hp] at hcur
      have hheld : Lock.proc p ∈ (pc.held : List (Lock M)) := by
        cases pc <;> simp_all [SchedulerPc.cur, SchedulerPc.held]
      have hm := hs.held_subset _ hheld
      rcases hb with hb | ⟨-, hb⟩
      · simp [hb] at hm
      · exact hb p hm

theorem ForksOk.of_forall_ne (hk : ∀ r pc, .fork r pc ∉ k) : ForksOk s s' f k := fun r pc hm =>
  absurd hm (hk r pc)

theorem Frame.Next.ne_scheduler (hn : Frame.Next s c f f') (pc : SchedulerPc) :
    f ≠ .scheduler pc := by
  rintro rfl
  exact hn.proc pc rfl

section

variable (h : Inv s) (hf : s.stackOf c = f :: rest)

include h hf

theorem Inv.acquire_next {l : Lock M}
    (he : exec s c f rest (.acquire l [f']) = some s') (hn : Frame.Next s c f f')
    (hl : l ∉ f.held) (hb : l ∉ heldBy rest) (hheld : f'.held.Perm (l :: f.held))
    (hforks : ForksOk s s f [f']) : Stays s s' c f rest := by
  refine h.acquire hf he ?_ ?_ ((h.stack_cons hf).next hn) (fun j => hn.ne_scheduler _) hforks
  · simp [hl, hb]
  · simpa using hheld

theorem Inv.release_next {l : Lock M}
    (he : exec s c f rest (.release l [f']) = some s') (hn : Frame.Next s c f f')
    (hheld : f.held.Perm (l :: f'.held)) (hin : f.stateIn = .running ∨ ∀ p, l ≠ .proc p)
    (hforks : ForksOk s s f [f']) : Stays s s' c f rest := by
  have hst := h.stack_cons hf
  refine h.release hf he (by simpa using hheld) (hst.next hn) (fun p hp hl => ?_)
    (fun j => hn.ne_scheduler _) hforks
  rw [(hst.ok (h.on_of_current hf hn.proc hp)).2]
  exact hin.resolve_right fun hne => hne p hl

theorem Inv.release_ret {l : Lock M}
    (he : exec s c f rest (.release l []) = some s') (hns : ∀ pc, ¬ f.IsScheduler pc)
    (hheld : f.held = [l]) (hkind : f.kind ≠ .base) (hin : f.stateIn = .running) : Stays s s' c f rest := by
  have hst := h.stack_cons hf
  refine h.release hf he (by simp [hheld]) (hst.pop hns hkind hin) (fun p hp _ => ?_)
    (fun j e => hns (.pick j) (by rw [e]; rfl)) (.of_forall_ne (by simp))
  rw [(hst.ok (h.on_of_current hf hns hp)).2, hin]

theorem Inv.write_next {w : Write M}
    (he : exec s c f rest (.write w [f']) = some s') (hw : w.Sets s i q) (hchg : Change s c i f q)
    (hn : Frame.Next s c f f') (hheld : f'.held = f.held)
    (hown : (s.cpus c).on = some i → q.state = (s.procs i).state)
    (hforks : ForksOk s (s.apply c w) f [f']) : Stays s s' c f rest := by
  have hst := h.stack_cons hf
  refine h.write hf he hw hchg (by simp [hheld]) ?_ ?_ (fun j => hn.ne_scheduler _) hforks
  · have hst' : StackOk (s.apply c w) c (f :: rest) := by
      refine hst.congr hn.proc (by rw [hw.cpus]) (by rw [hw.cpus]) fun p hp => ?_
      rw [hw.procs]
      by_cases hpi : p = i
      · subst hpi; rw [update_self]; exact hown hp
      · rw [update_of_ne hpi]
    exact hst'.next { hn with ok := fun p hp => hn.ok p (by rw [← hw.cpus]; exact hp) }
  · intro hr hr'
    rcases hchg.running_of hr with hr'' | ⟨found, hsch⟩
    · exact absurd hr'' hr'
    · exact absurd hsch (hn.ne_scheduler _)

theorem Inv.write_own (hon : (s.cpus c).on = some p)
    (he : exec s c f rest (.write (.proc p q) [f']) = some s') (hchg : Change s c p f q)
    (hscan : ¬ f.isScan) (hok : f'.Ok p) (hkind : f'.kind = f.kind) (hheld : f'.held = f.held)
    (hin : q.state = f'.stateIn) (hq : q.state ≠ .running)
    (hfork : ∀ r pc, f' ≠ .fork r pc) : Stays s s' c f rest := by
  have hst := h.stack_cons hf
  have hon' : ((s.apply c (.proc p q)).cpus c).on = some p := hon
  refine h.write hf he ⟨rfl, rfl⟩ hchg (by simp [hheld]) ?_ (fun hr => absurd hr hq) ?_ ?_
  · refine hst.own hon hon' hscan hok hkind ?_
    simpa [State.apply, State.setProc] using hin
  · rintro j rfl
    exact (hst.ok hon).1.elim
  · exact .of_forall_ne fun r pc hm => hfork r pc (List.mem_singleton.mp hm).symm

theorem Inv.jump (he : exec s c f rest (.jump k) = some s') (hheld : (heldBy k).Perm f.held)
    (hst : StackOk s c (k ++ rest)) (hpick : ∀ j, f ≠ .scheduler (.pick j))
    (hforks : ForksOk s s f k) : Stays s s' c f rest :=
  h.write (i := 0) (q := s.procs 0) hf he rfl (.refl f) hheld hst (fun h1 h2 => absurd h1 h2) hpick
    hforks

theorem Inv.jump_next (he : exec s c f rest (.jump [f']) = some s') (hn : Frame.Next s c f f')
    (hheld : f'.held = f.held) (hforks : ForksOk s s f [f']) : Stays s s' c f rest :=
  h.jump hf he (by simp [hheld]) ((h.stack_cons hf).next hn) (fun j => hn.ne_scheduler _) hforks

theorem Inv.jump_ret (he : exec s c f rest (.jump []) = some s') (hns : ∀ pc, ¬ f.IsScheduler pc)
    (hheld : f.held = []) (hkind : f.kind ≠ .base) (hin : f.stateIn = .running) : Stays s s' c f rest :=
  h.jump hf he (by simp [hheld]) ((h.stack_cons hf).pop hns hkind hin)
    (fun j e => hns (.pick j) (by rw [e]; rfl)) (.of_forall_ne (by simp))

theorem Inv.fail {msg : String}
    (he : exec s c f rest (.fail msg f) = some s') (hns : ∀ pc, ¬ f.IsScheduler pc)
    (hmsg : msg ∉ schedPanics) : Stays s s' c f rest := by
  refine h.jump_next hf he ⟨hns, ?_, rfl, fun h => h, fun h => ⟨h, hmsg⟩, rfl⟩ rfl
    (.of_forall_ne (by simp))
  exact fun p _ hok => ⟨hok, hmsg⟩

theorem Inv.write_call {w : Write M}
    (he : exec s c f rest (.write w [g, f']) = some s') (hw : w.Sets s i q)
    (hchg : Change s c i f q) (hown : q.state = (s.procs i).state) (hn : Frame.Next s c f f')
    (hheld : f'.held = f.held) (hin : f.stateIn = .running) (hok : ∀ p, g.Ok p)
    (hkind : g.kind = .nested) (hsch : g.OnScheduler) (hg : g.stateIn = .running)
    (hg' : g.held = []) (hb : HeldBelow g (f.held ++ heldBy rest)) (hff : ∀ r pc, f' ≠ .fork r pc) :
    Stays s s' c f rest := by
  refine h.write hf he hw hchg (by simp [hheld, hg']) ?_ (fun h1 h2 => absurd (hown ▸ h1) h2)
    (fun j => hn.ne_scheduler _) ?_
  · have hst' : StackOk (s.apply c w) c (f :: rest) := by
      refine (h.stack_cons hf).congr hn.proc (by rw [hw.cpus]) (by rw [hw.cpus]) fun p hp => ?_
      rw [hw.procs]
      by_cases hpi : p = i
      · subst hpi; rw [update_self]; exact hown
      · rw [update_of_ne hpi]
    refine (hst'.next { hn with ok := fun p hp => hn.ok p (by rw [← hw.cpus]; exact hp) }).push
      (hn.stateIn.trans hin) (fun p _ => hok p) hkind (fun _ => hsch) hg ?_
    rw [heldBy_cons, hheld]
    exact hb
  · refine .of_forall_ne fun r pc hm => ?_
    rcases List.mem_cons.mp hm with rfl | e
    · exact hsch.elim
    · exact hff r pc (List.mem_singleton.mp e).symm

theorem Inv.call (he : exec s c f rest (.jump [g, f']) = some s') (hn : Frame.Next s c f f')
    (hheld : f'.held = f.held) (hin : f.stateIn = .running) (hok : ∀ p, g.Ok p)
    (hkind : g.kind = .nested) (hsch : g.OnScheduler) (hg : g.stateIn = .running)
    (hg' : g.held = []) (hb : HeldBelow g (f.held ++ heldBy rest)) (hff : ∀ r pc, f' ≠ .fork r pc) :
    Stays s s' c f rest :=
  h.write_call (i := 0) (q := s.procs 0) hf he rfl (.refl f) rfl hn hheld hin hok hkind hsch hg hg'
    hb hff

theorem Inv.call_client {m : M.Frame}
    (he : exec s c f rest (.jump [.client m, f']) = some s') (hn : Frame.Next s c f f')
    (hheld : f'.held = f.held) (hin : f.stateIn = .running) (hm : M.held m = [])
    (hb : f.held ++ heldBy rest = []) (hff : ∀ r pc, f' ≠ .fork r pc) : Stays s s' c f rest :=
  h.call hf he hn hheld hin (fun _ => trivial) rfl trivial rfl (by simp [Frame.held, hm]) (.inl hb)
    hff

end

/-! ## `yield`, `sched`, `sleep` -/

namespace Frame.Next

theorem inYield {pc pc' : YieldPc} : Frame.Next s c (.yield p pc) (.yield p pc') :=
  ⟨fun _ => id, fun _ _ => id, rfl, id, id, rfl⟩

theorem inSleep {chan : Chan} {lk : Lock M} {ret : Frame M} {pc pc' : SleepPc} :
    Frame.Next s c (.sleep p chan lk pc ret) (.sleep p chan lk pc' ret) :=
  ⟨fun _ => id, fun _ _ => id, rfl, id, id, rfl⟩

theorem inScan {op : ScanOp} {j : Slot} {pc pc' : ScanPc} :
    Frame.Next s c (.scan op i pc) (.scan op j pc') :=
  ⟨fun _ => id, fun _ _ => id, rfl, id, id, rfl⟩

theorem inFork {pc pc' : ForkPc} : Frame.Next s c (.fork p pc) (.fork p pc') :=
  ⟨fun _ => id, fun _ _ => id, rfl, id, id, rfl⟩

theorem inWait {addr : Nat} {pc pc' : WaitPc} : Frame.Next s c (.wait p addr pc) (.wait p addr pc') :=
  ⟨fun _ => id, fun _ _ => id, rfl, id, id, rfl⟩

theorem inClient {f f' : M.Frame} : Frame.Next s c (.client f) (.client f') :=
  ⟨fun _ => id, fun _ _ => id, rfl, id, id, rfl⟩

theorem inExit {status : Int} {pc pc' : ExitPc} (hpc : pc ≠ .relWait) (hpc' : pc' ≠ .relWait) :
    Frame.Next s c (.exit p status pc) (.exit p status pc') := by
  refine ⟨fun _ => id, fun _ _ => id, rfl, id, id, ?_⟩
  cases pc <;> cases pc' <;> simp_all [Frame.stateIn]

end Frame.Next

theorem yield_stays {pc : YieldPc} (h : Inv s) (hf : s.stackOf c = .yield p pc :: rest)
    (he : exec s c (.yield p pc) rest (yieldCode s p pc) = some s') :
    Stays s s' c (.yield p pc) rest := by
  have hst := h.stack_cons hf
  obtain ⟨p', hon⟩ := hst.on_some (fun _ => id) id
  obtain rfl : p = p' := (hst.ok hon).1
  cases pc with
  | acq =>
    exact h.acquire_next hf he .inYield List.not_mem_nil (hst.noProcLock_below p) (.refl _)
      (.of_forall_ne (by simp))
  | set =>
    exact h.write_own hf hon he (.yield hon) id ⟨rfl, trivial⟩ rfl rfl rfl (by simp) (by simp)
  | rel => exact h.release_ret hf he (fun _ => id) rfl nofun rfl

theorem Inv.schedCode_eq {ret : Frame M} (h : Inv s) (hf : s.stackOf c = .schedCheck ret :: rest) :
    ∃ p, (s.cpus c).on = some p ∧ schedCode s c ret = .jump [.schedSwtch p ret] := by
  have hst := h.stack_cons hf
  obtain ⟨p, hon⟩ := hst.on_some (fun _ => id) id
  obtain ⟨⟨hok, hres⟩, hstate⟩ := hst.ok hon
  have hheld : heldBy (s.stackOf c) = [.proc p] := by
    rw [hf, heldBy_cons, hst.held_below id, Frame.held, Frame.held_of_resumes hok hres]; rfl
  have hlock : s.locks (.proc p) = some c := by rw [h.locks, hheld]; exact List.mem_singleton_self _
  have hnoff : (s.cpus c).noff = 1 := by rw [h.noff, hheld]; rfl
  have hnr : (s.procs p).state ≠ .running := by
    rw [hstate]
    obtain ⟨q', rfl⟩ | ⟨q', chan, lk, ret', rfl⟩ | ⟨q', status, rfl⟩ := Frame.resumes_cases hres <;>
      simp [Frame.stateIn, Frame.parked]
  refine ⟨p, hon, ?_⟩
  simp [schedCode, myproc, (h.busy c p hon).1, hlock, hnoff, hnr]

theorem sched_stays {ret : Frame M} (h : Inv s) (hf : s.stackOf c = .schedCheck ret :: rest)
    (he : exec s c (.schedCheck ret) rest (schedCode s c ret) = some s') :
    Stays s s' c (.schedCheck ret) rest := by
  obtain ⟨p, hon, hcode⟩ := h.schedCode_eq hf
  rw [hcode] at he
  refine h.jump_next hf he ⟨fun _ => id, fun p' hon' hok => ?_, rfl, id, id, rfl⟩ rfl
    (.of_forall_ne (by simp))
  exact ⟨Option.some.inj (hon.symm.trans hon'), hok⟩

theorem Frame.sleeps_cases {f : Frame M} {chan : Chan} (h : f.sleeps chan) :
    (∃ g a, f = .client g ∧ chan = .addr a) ∨
      ∃ p addr i b, f = .wait p addr (.scan i b) ∧ chan = .proc p := by
  unfold Frame.sleeps at h
  split at h
  · obtain ⟨a, ha⟩ := h
    exact .inl ⟨_, a, rfl, ha⟩
  · exact .inr ⟨_, _, _, _, rfl, h⟩
  · exact h.elim

theorem sleep_stays {chan : Chan} {lk : Lock M} {ret : Frame M} {pc : SleepPc} (h : Inv s)
    (hf : s.stackOf c = .sleep p chan lk pc ret :: rest)
    (he : exec s c (.sleep p chan lk pc ret) rest (sleepCode s p chan lk ret pc) = some s') :
    Stays s s' c (.sleep p chan lk pc ret) rest := by
  have hst := h.stack_cons hf
  obtain ⟨p', hon⟩ := hst.on_some (fun _ => id) id
  obtain ⟨hok, hstate⟩ := hst.ok hon
  obtain rfl : p = p' := hok.1
  obtain ⟨-, hret, hsl, hheld, hlk⟩ := id hok
  cases pc with
  | acq =>
    refine h.acquire_next hf he .inSleep ?_ (hst.noProcLock_below p) (.refl _)
      (.of_forall_ne (by simp))
    simpa [Frame.held, SleepPc.held] using (hlk p).symm
  | rel =>
    exact h.release_next hf he .inSleep (List.Perm.swap _ _ _) (.inl rfl) (.of_forall_ne (by simp))
  | set =>
    exact h.write_own hf hon he (.sleep chan hon) id ⟨hok, trivial⟩ rfl rfl rfl (by simp) (by simp)
  | tidy =>
    exact h.write_next hf he ⟨rfl, rfl⟩ (.tidy hon) .inSleep rfl (fun _ => rfl)
      (.of_forall_ne (by simp))
  | unlock =>
    exact h.release_next hf he .inSleep (.refl _) (.inl rfl) (.of_forall_ne (by simp))
  | reacq =>
    refine h.acquire_next hf he ⟨fun _ => id, fun _ _ hok' => hok'.2.1, rfl, fun h => h.elim,
      fun h => h.elim, ?_⟩ List.not_mem_nil ?_ ?_ ?_
    · obtain ⟨g, a, rfl, -⟩ | ⟨q, addr, i, b, rfl, -⟩ := Frame.sleeps_cases hsl <;> rfl
    · rw [hst.held_below id]; exact List.not_mem_nil
    · rw [hheld]; exact .refl _
    · refine .of_forall_ne fun r pc hm => ?_
      rw [← List.mem_singleton.mp hm] at hsl
      exact hsl

theorem callSleep_stays {chan : Chan} {lk : Lock M} {ret : Frame M} (h : Inv s)
    (hf : s.stackOf c = f :: rest) (he : exec s c f rest (callSleep s c f chan lk ret) = some s')
    (hns : ∀ pc, ¬ f.IsScheduler pc) (hscan : ¬ f.isScan) (hkind : f.kind = ret.kind)
    (hin : f.stateIn = .running) (hheld : f.held = [lk]) (hret : ret.held = [lk])
    (hok : ∀ p, f.Ok p → ret.Ok p) (hsl : ret.sleeps chan) (hlk : ∀ i, lk ≠ .proc i) :
    Stays s s' c f rest := by
  unfold callSleep at he
  cases hp : myproc s c with
  | none =>
    rw [hp] at he
    exact h.fail hf he hns (by simp [schedPanics])
  | some p =>
    rw [hp] at he
    have hon := h.on_of_current hf hns hp
    have hst := h.stack_cons hf
    refine h.jump hf he (by simp [hheld, Frame.held, SleepPc.held]) ?_ ?_ (.of_forall_ne (by simp))
    · refine hst.own hon hon hscan ⟨rfl, hok p (hst.ok hon).1, hsl, hret, hlk⟩ hkind.symm ?_
      rw [(hst.ok hon).2, hin]; rfl
    · rintro j rfl
      exact hns _ rfl

/-! ## The scans of the process table -/

theorem scan_stays {op : ScanOp} {pc : ScanPc} (h : Inv s)
    (hf : s.stackOf c = .scan op i pc :: rest)
    (he : exec s c (.scan op i pc) rest (scanCode s c op i pc) = some s') :
    Stays s s' c (.scan op i pc) rest := by
  have hst := h.stack_cons hf
  cases pc with
  | test =>
    simp only [scanCode] at he
    split at he
    · split at he
      · exact h.jump_next hf he .inScan rfl (.of_forall_ne (by simp))
      · exact h.acquire_next hf he .inScan List.not_mem_nil (hst.noProcLock_below i) (.refl _)
          (.of_forall_ne (by simp))
    · exact h.jump_ret hf he (fun _ => id) rfl nofun rfl
  | visit =>
    refine h.write_next hf he ⟨rfl, rfl⟩ (.visit op) .inScan rfl (fun hon => ?_)
      (.of_forall_ne (by simp))
    -- the caller itself is `RUNNING`, and a visit leaves that
    rcases visit_state op (s.procs i) with hv | ⟨hv, -⟩
    · exact hv
    · rw [(hst.ok hon).2] at hv; cases hv
  | rel r =>
    cases r with
    | none => exact h.release_next hf he .inScan (.refl _) (.inl rfl) (.of_forall_ne (by simp))
    | some r => exact h.release_ret hf he (fun _ => id) rfl nofun rfl

/-! ## `fork` -/

theorem ForksOk.fork {pc pc' : ForkPc} (h : ∀ j, pc'.claims = some j →
      ((s'.procs j).state = .used ∧ (pc'.built = true → (s'.procs j).context = [.forkret j .rel])) ∧
      (pc.claims = some j ∧ (pc'.building = true → pc.building = true) ∨
        (s.procs j).state = .unused)) :
    ForksOk s s' (.fork p pc) [.fork p pc'] := by
  intro r pc1 hm
  obtain ⟨rfl, rfl⟩ : r = p ∧ pc1 = pc' := by simpa using hm
  refine ⟨fun j hj => (h j hj).1, fun j hj => ?_⟩
  exact (h j hj).2.imp_left fun hc => ⟨r, pc, rfl, hc⟩

theorem ForksOk.fork_same {pc pc' : ForkPc} (h : pc.Holds s)
    (hcl : pc'.claims = none ∨ pc'.claims = pc.claims ∧ (pc'.built = true → pc.built = true) ∧
      (pc'.building = true → pc.building = true)) :
    ForksOk s s (.fork p pc) [.fork p pc'] := by
  refine .fork fun j hj => ?_
  rcases hcl with hcl | ⟨hcl, hb, hbuild⟩
  · simp [hcl] at hj
  · rw [hcl] at hj
    exact ⟨⟨(h j hj).1, fun hb' => (h j hj).2 (hb hb')⟩, .inl ⟨hj, hbuild⟩⟩

/-- A write to the slot that is being built. -/
theorem ForksOk.fork_write {pc pc' : ForkPc} {np : Slot} (hcl : ∀ j, pc'.claims = some j → np = j)
    (hpc : pc.claims = some np) (hu : (s'.procs np).state = .used)
    (hctx : pc'.built = true → (s'.procs np).context = [.forkret np .rel])
    (hb : pc'.building = true → pc.building = true) : ForksOk s s' (.fork p pc) [.fork p pc'] :=
  .fork fun j hj => by
    obtain rfl := hcl j hj
    exact ⟨⟨hu, hctx⟩, .inl ⟨hpc, hb⟩⟩

theorem fork_stays {pc : ForkPc} {x : Nat} (h : Inv s) (hf : s.stackOf c = .fork p pc :: rest)
    (he : exec s c (.fork p pc) rest (forkCode s p x pc) = some s') :
    Stays s s' c (.fork p pc) rest := by
  have hst := h.stack_cons hf
  obtain ⟨p', hon⟩ := hst.on_some (fun _ => id) id
  obtain ⟨hok, hrun⟩ := hst.ok hon
  obtain rfl : p = p' := hok
  have hold := StackOk.fork_holds h hf p pc rfl
  -- the slot a `fork` works on is not that of the caller
  have hne : ∀ j, (s.procs j).state = .used ∨ (s.procs j).state = .unused → j ≠ p := by
    rintro j hj rfl
    rw [hrun] at hj
    simp [Frame.stateIn] at hj
  have hown : ∀ j (q : Proc M), (s.procs j).state = .used ∨ (s.procs j).state = .unused →
      (s.cpus c).on = some j → q.state = (s.procs j).state := fun j q hj hon' =>
    absurd (Option.some.inj (hon'.symm.trans hon)) (hne j hj)
  have hnil : (Lock.wait : Lock M) ∉ heldBy rest := by
    rw [hst.held_below id]; exact List.not_mem_nil
  cases pc with
  | alloc i =>
    simp only [forkCode] at he
    split at he
    · exact h.acquire_next hf he .inFork List.not_mem_nil (hst.noProcLock_below i) (.refl _)
        (.fork_same hold (.inl rfl))
    · exact h.jump_ret hf he (fun _ => id) rfl (fun e => by cases e) rfl
  | check i =>
    simp only [forkCode] at he
    split at he
    · rename_i hu
      refine h.write_next hf he ⟨rfl, rfl⟩ (.alloc hu) .inFork rfl (hown i _ (.inr hu)) (.fork ?_)
      rintro j hj
      obtain rfl : i = j := by simpa [ForkPc.claims] using hj
      simp [State.apply, State.setProc, ForkPc.built, hu]
    · exact h.jump_next hf he .inFork rfl (.fork_same hold (.inl rfl))
  | skip i =>
    exact h.release_next hf he .inFork (.refl _) (.inl rfl) (.fork_same hold (.inl rfl))
  | trapframe np =>
    have hu := (hold np rfl).1
    refine h.write_next hf he ⟨rfl, rfl⟩ (.trapframe x) .inFork (by split <;> rfl) (hown np _ (.inl hu))
      (.fork_write (fun j hj => ?_) rfl (by simpa [State.apply, State.setProc] using hu) (fun hb => ?_) fun _ => rfl)
    · split at hj <;> simpa [ForkPc.claims] using hj
    · split at hb <;> simp [ForkPc.built] at hb
  | pagetable np =>
    have hu := (hold np rfl).1
    refine h.write_next hf he ⟨rfl, rfl⟩ (.pagetable x) .inFork (by split <;> rfl) (hown np _ (.inl hu))
      (.fork_write (fun j hj => ?_) rfl (by simpa [State.apply, State.setProc] using hu) (fun hb => ?_) fun _ => rfl)
    · split at hj <;> simpa [ForkPc.claims] using hj
    · split at hb <;> simp [ForkPc.built] at hb
  | context np =>
    have hu := (hold np rfl).1
    exact h.write_next hf he ⟨rfl, rfl⟩ .context .inFork rfl (hown np _ (.inl hu))
      (.fork_write (by simp [ForkPc.claims]) rfl (by simpa [State.apply, State.setProc] using hu)
        (by simp [State.apply, State.setProc]) fun _ => rfl)
  | copy np =>
    obtain ⟨hu, hctx⟩ := hold np rfl
    simp only [forkCode] at he
    split at he
    · exact h.jump_next hf he .inFork rfl
        (.fork_same hold (.inr ⟨rfl, by simp [ForkPc.built], fun _ => rfl⟩))
    · exact h.write_next hf he ⟨rfl, rfl⟩ .copy .inFork rfl (hown np _ (.inl hu))
        (.fork_write (by simp [ForkPc.claims]) rfl (by simpa [State.apply, State.setProc, copyParent] using hu)
          (by simpa [State.apply, State.setProc, copyParent] using fun _ => hctx rfl) (by simp [ForkPc.building]))
  | undo np =>
    have hu := (hold np rfl).1
    exact h.write_next hf he ⟨rfl, rfl⟩ .undo .inFork rfl (hown np _ (.inl hu))
      (.fork (by simp [ForkPc.claims]))
  | fail np => exact h.release_ret hf he (fun _ => id) rfl (fun e => by cases e) rfl
  | unlock np pid =>
    exact h.release_next hf he .inFork (.refl _) (.inl rfl)
      (.fork_same hold (.inr ⟨rfl, id, by simp [ForkPc.building]⟩))
  | linkAcq np pid =>
    exact h.acquire_next hf he .inFork List.not_mem_nil hnil (.refl _)
      (.fork_same hold (.inr ⟨rfl, id, by simp [ForkPc.building]⟩))
  | link np pid =>
    obtain ⟨hu, hctx⟩ := hold np rfl
    exact h.write_next hf he ⟨rfl, rfl⟩ (.parent (some p) (by simp [Frame.held, ForkPc.held]))
      .inFork rfl (fun _ => rfl) (.fork_write (by simp [ForkPc.claims]) rfl
        (by simpa [State.apply, State.setProc] using hu)
        (by simpa [State.apply, State.setProc] using fun _ => hctx rfl) (by simp [ForkPc.building]))
  | linkRel np pid =>
    exact h.release_next hf he .inFork (.refl _) (.inl rfl)
      (.fork_same hold (.inr ⟨rfl, id, by simp [ForkPc.building]⟩))
  | runAcq np pid =>
    exact h.acquire_next hf he .inFork List.not_mem_nil (hst.noProcLock_below np) (.refl _)
      (.fork_same hold (.inr ⟨rfl, id, by simp [ForkPc.building]⟩))
  | run np pid =>
    have hu := (hold np rfl).1
    exact h.write_next hf he ⟨rfl, rfl⟩ (.run pid) .inFork rfl (hown np _ (.inl hu))
      (.fork (by simp [ForkPc.claims]))
  | runRel np pid => exact h.release_ret hf he (fun _ => id) rfl (fun e => by cases e) rfl

/-! ## `exit` and `wait` -/

theorem exit_stays {status : Int} {pc : ExitPc} (h : Inv s)
    (hf : s.stackOf c = .exit p status pc :: rest)
    (he : exec s c (.exit p status pc) rest (exitCode s p status pc) = some s') :
    Stays s s' c (.exit p status pc) rest := by
  have hst := h.stack_cons hf
  obtain ⟨p', hon⟩ := hst.on_some (fun _ => id) id
  obtain ⟨hok, hrun⟩ := hst.ok hon
  obtain rfl : p = p' := hok
  have hbelow : heldBy rest = [] := hst.held_below id
  have hnil : (Lock.wait : Lock M) ∉ heldBy rest := by rw [hbelow]; exact List.not_mem_nil
  have hno : ∀ j : ExitPc, ForksOk s s (.exit p status pc) [.exit p status j] := fun j =>
    .of_forall_ne (by simp)
  have hwait : NoProcLock ([.wait] ++ heldBy rest) := by simp [NoProcLock, hbelow]
  cases pc with
  | start =>
    simp only [exitCode] at he
    split at he
    · exact h.fail hf he (fun _ => id) (by simp [schedPanics])
    · exact h.jump_next hf he (.inExit (by simp) (by simp)) rfl (hno _)
  | close fd =>
    simp only [exitCode] at he
    split at he
    · split at he
      · exact h.call_client hf he (.inExit (by simp) (by simp)) rfl rfl (M.held_fileclose _)
          (by simp [Frame.held, ExitPc.held, hbelow]) (by simp)
      · exact h.jump_next hf he (.inExit (by simp) (by simp)) rfl (hno _)
    · exact h.jump_next hf he (.inExit (by simp) (by simp)) rfl (hno _)
  | clear fd =>
    refine h.write_next hf he ⟨rfl, rfl⟩ ?_ (.inExit (by simp) (by simp)) rfl (fun _ => rfl)
      (.of_forall_ne (by simp))
    exact .priv ⟨(s.procs p).sz, (s.procs p).pagetable, (s.procs p).regs,
      update (s.procs p).ofile fd 0, (s.procs p).cwd, (s.procs p).name⟩ hon
  | iput =>
    exact h.call_client hf he (.inExit (by simp) (by simp)) rfl rfl (M.held_iput _)
      (by simp [Frame.held, ExitPc.held, hbelow]) (by simp)
  | clearCwd =>
    refine h.write_next hf he ⟨rfl, rfl⟩ ?_ (.inExit (by simp) (by simp)) rfl (fun _ => rfl)
      (.of_forall_ne (by simp))
    exact .priv ⟨(s.procs p).sz, (s.procs p).pagetable, (s.procs p).regs, (s.procs p).ofile, 0,
      (s.procs p).name⟩ hon
  | acqWait =>
    exact h.acquire_next hf he (.inExit (by simp) (by simp)) List.not_mem_nil hnil (.refl _) (hno _)
  | reparent i =>
    simp only [exitCode] at he
    split at he
    · split at he
      · exact h.write_call hf he ⟨rfl, rfl⟩ (.parent _ (by simp [Frame.held, ExitPc.held])) rfl
          (.inExit (by simp) (by simp)) rfl rfl (fun _ => trivial) rfl trivial rfl rfl
          (.inr ⟨trivial, hwait⟩) (by simp)
      · exact h.jump_next hf he (.inExit (by simp) (by simp)) rfl (hno _)
    · exact h.jump_next hf he (.inExit (by simp) (by simp)) rfl (hno _)
  | wakeParent =>
    exact h.call hf he (.inExit (by simp) (by simp)) rfl rfl (fun _ => trivial) rfl trivial rfl rfl
      (.inr ⟨trivial, hwait⟩) (by simp)
  | acqSelf =>
    exact h.acquire_next hf he (.inExit (by simp) (by simp)) (by simp [Frame.held, ExitPc.held])
      (hst.noProcLock_below p) (.refl _) (hno _)
  | zombie =>
    exact h.write_own hf hon he (.zombie status hon) id rfl rfl rfl rfl (by simp) (by simp)
  | relWait =>
    exact h.release_next hf he ⟨fun _ => id, fun _ _ hok => ⟨hok, trivial⟩, rfl, id, id, rfl⟩
      (List.Perm.swap _ _ _) (.inr (by simp)) (.of_forall_ne (by simp))
  | dead => exact h.fail hf he (fun _ => id) (by simp [schedPanics])

theorem wait_stays {addr x : Nat} {pc : WaitPc} {instr : Instr M} (h : Inv s)
    (hf : s.stackOf c = .wait p addr pc :: rest) (hcode : waitCode s c p addr x pc = some instr)
    (he : exec s c (.wait p addr pc) rest instr = some s') :
    Stays s s' c (.wait p addr pc) rest := by
  have hst := h.stack_cons hf
  obtain ⟨p', hon⟩ := hst.on_some (fun _ => id) id
  obtain ⟨hok, hrun⟩ := hst.ok hon
  obtain rfl : p = p' := hok
  have hnil : (Lock.wait : Lock M) ∉ heldBy rest := by
    rw [hst.held_below id]; exact List.not_mem_nil
  have hno : ∀ j : WaitPc, ForksOk s s (.wait p addr pc) [.wait p addr j] := fun j =>
    .of_forall_ne (by simp)
  cases pc with
  | acqWait =>
    cases hcode
    exact h.acquire_next hf he .inWait List.not_mem_nil hnil (.refl _) (hno _)
  | scan i havekids =>
    simp only [waitCode] at hcode
    split at hcode
    · split at hcode <;> cases hcode
      · exact h.acquire_next hf he .inWait (by simp [Frame.held, WaitPc.held])
          (hst.noProcLock_below i) (.refl _) (hno _)
      · exact h.jump_next hf he .inWait rfl (hno _)
    · cases hcode
      exact h.jump_next hf he .inWait rfl (hno _)
  | look i =>
    simp only [waitCode] at hcode
    split at hcode
    · rename_i hz
      split at hcode <;> cases hcode
      · exact h.jump_next hf he .inWait rfl (hno _)
      · refine h.write_next hf he ⟨rfl, rfl⟩ (.reap hz) .inWait rfl (fun hon' => ?_)
          (.of_forall_ne (by simp))
        -- the caller is not its own child: it is `RUNNING`
        obtain rfl := Option.some.inj (hon.symm.trans hon')
        rw [hrun] at hz
        cases hz
    · cases hcode
      exact h.jump_next hf he .inWait rfl (hno _)
  | skip | done =>
    cases hcode
    exact h.release_next hf he .inWait (.refl _) (.inl rfl) (hno _)
  | check havekids =>
    simp only [waitCode] at hcode
    split at hcode
    · cases hcode
      exact h.jump_next hf he .inWait rfl (hno _)
    · split at hcode
      · cases hcode
      · split at hcode <;> cases hcode
        · exact h.jump_next hf he .inWait rfl (hno _)
        · exact callSleep_stays h hf he (fun _ => id) id rfl rfl rfl rfl (fun _ => id) rfl
            (by simp)
  | relWait r =>
    cases hcode
    exact h.release_ret hf he (fun _ => id) rfl (fun e => by cases e) rfl

/-! ## `forkret` and the code outside `proc.c` -/

theorem forkret_stays {pc : ForkretPc} (h : Inv s) (hf : s.stackOf c = .forkret p pc :: rest)
    (he : exec s c (.forkret p pc) rest (forkretCode s c p pc) = some s') :
    Stays s s' c (.forkret p pc) rest := by
  have hst := h.stack_cons hf
  obtain ⟨p', hon⟩ := hst.on_some (fun _ => id) id
  obtain ⟨hok, hrun⟩ := hst.ok hon
  obtain rfl : p = p' := hok
  have hnext : ∀ pc', Frame.Next s c (.forkret p pc) (.forkret p pc') := fun _ =>
    ⟨fun _ => id, fun _ _ => id, rfl, id, id, rfl⟩
  have hbody : Frame.Next s c (.forkret p pc) (.body p) :=
    ⟨fun _ => id, fun _ _ => id, rfl, id, id, rfl⟩
  cases pc with
  | rel =>
    have hp : myproc s c = some p := (h.busy c p hon).1
    simp only [forkretCode, hp] at he
    exact h.release_next hf he (hnext _) (.refl _) (.inl rfl) (.of_forall_ne (by simp))
  | init =>
    simp only [forkretCode] at he
    split at he
    · refine h.call_client hf he (hnext _) rfl rfl M.held_fsinit ?_ (by simp)
      rw [hst.held_below id]; rfl
    · exact h.jump_next hf he hbody rfl (.of_forall_ne (by simp))
  | clear =>
    exact h.write_next (i := 0) (q := s.procs 0) hf he rfl (.refl _) hbody rfl (fun _ => rfl)
      (.of_forall_ne (by simp))

theorem client_stays {m : M.Frame} {x : Nat} {instr : Instr M} (h : Inv s)
    (hf : s.stackOf c = .client m :: rest) (hcode : clientCode s c m x = some instr)
    (he : exec s c (.client m) rest instr = some s') : Stays s s' c (.client m) rest := by
  have hst := h.stack_cons hf
  have hbelow : heldBy rest = [] := hst.held_below id
  have hno : ∀ m' : M.Frame, ForksOk s s (.client m) [.client m'] := fun _ =>
    .of_forall_ne (by simp)
  have hlocked := M.code_locked m (myproc s c) (mypid s c) s.data x
  unfold clientCode at hcode
  cases hc : M.code m (myproc s c) (mypid s c) s.data x with
  | acquire lk k =>
    rw [hc] at hcode hlocked
    cases hcode
    refine h.acquire_next hf he .inClient ?_ (by simp [hbelow]) (hlocked.2.map _) (hno _)
    intro hm
    obtain ⟨lk', hm', e⟩ := List.mem_map.mp hm
    cases e
    exact hlocked.1 hm'
  | release lk k =>
    rw [hc] at hcode hlocked
    cases hcode
    exact h.release_next hf he .inClient (List.Perm.map _ hlocked) (.inl rfl) (hno _)
  | sleep chan lk k =>
    rw [hc] at hcode hlocked
    cases hcode
    exact callSleep_stays h hf he (fun _ => id) id rfl rfl (by simp [Frame.held, hlocked.1])
      (by simp [Frame.held, hlocked.2]) (fun _ => id) ⟨chan, rfl⟩ (by simp)
  | wakeup chan k =>
    rw [hc] at hcode hlocked
    cases hcode
    refine h.call hf he .inClient ?_ rfl (fun _ => trivial) rfl trivial rfl rfl (.inr ⟨trivial, ?_⟩)
      (by simp)
    · simp only [Frame.held, show M.held k = M.held m from hlocked]
    · simp [NoProcLock, hbelow, Frame.held]
  | killed k =>
    rw [hc] at hcode hlocked
    simp only at hcode
    split at hcode
    · cases hcode
      exact h.fail hf he (fun _ => id) (by simp [schedPanics])
    · split at hcode <;> cases hcode
      exact h.jump_next hf he .inClient (by simp only [Frame.held, hlocked _]) (hno _)
  | update d k =>
    rw [hc] at hcode hlocked
    cases hcode
    refine h.write_next (i := 0) (q := s.procs 0) hf he rfl (.refl _) .inClient ?_ (fun _ => rfl)
      (.of_forall_ne (by simp))
    simp only [Frame.held, show M.held k = M.held m from hlocked]
  | ret =>
    rw [hc] at hcode hlocked
    cases hcode
    exact h.jump_ret hf he (fun _ => id) (by simp [Frame.held, show M.held m = [] from hlocked])
      (by simp [Frame.kind]) rfl

/-! ## `scheduler` -/

inductive Stepped (s s' : State M) (c : CpuId) (f : Frame M) (rest : List (Frame M)) : Prop
  | stays (h : Stays s s' c f rest)
  /-- `scheduler` stores to `c->proc`. -/
  | current {pc pc' : SchedulerPc} (hf : f = .scheduler pc) (h : CurrentOk s s' c pc pc')
  | swtchTo {i : Slot} (hf : f = .scheduler (.swtch i))
      (he : exec s c f rest (.swtchTo i [.scheduler (.back i)]) = some s')
  | swtchOut {p : Slot} {ret : Frame M} (hf : f = .schedSwtch p ret)
      (he : exec s c f rest (.swtchOut p [ret]) = some s')

theorem Stepped.inv (hs : Stepped s s' c f rest) (h : Inv s) (hf : s.stackOf c = f :: rest) :
    Inv s' := by
  cases hs with
  | stays hs =>
    obtain ⟨k, i, q, hs⟩ := hs
    exact hs.inv h
  | current hf' hs => exact hs.inv h
  | swtchTo hf' he => subst hf'; exact h.swtchTo hf he
  | swtchOut hf' he => subst hf'; exact h.swtchOut hf he

theorem StackOk.scheduler {pc : SchedulerPc} (hon : (s.cpus c).on = none)
    (hcur : (s.cpus c).proc = pc.cur) (hpc : pc.Holds s) : StackOk s c [.scheduler pc] := by
  simp only [StackOk, hon]
  exact ⟨pc, .inl ⟨rfl, rfl⟩, hcur, hpc⟩

theorem scheduler_stepped {pc : SchedulerPc} (h : Inv s) (hf : s.stackOf c = .scheduler pc :: rest)
    (he : exec s c (.scheduler pc) rest (schedulerCode s pc) = some s') :
    Stepped s s' c (.scheduler pc) rest := by
  obtain ⟨hon, hcur, hpc, rfl⟩ := (h.stack_cons hf).of_scheduler
  cases pc with
  | start => exact .current rfl (h.cpuProc hf he rfl (.inl ⟨rfl, rfl⟩))
  | loop i found =>
    simp only [schedulerCode] at he
    split at he
    · exact .stays (h.acquire hf he (by simp [Frame.held, SchedulerPc.held])
        (by simp [Frame.held, SchedulerPc.held]) (.scheduler hon hcur trivial) (by simp)
        (.of_forall_ne (by simp)))
    · exact .stays (h.jump hf he (by simp [Frame.held, SchedulerPc.held])
        (.scheduler hon hcur trivial) (by simp) (.of_forall_ne (by simp)))
  | look i found =>
    have hrel : ∀ he', exec s c (.scheduler (.look i found)) [] he' = some s' →
        he' = .jump [.scheduler (.rel i found)] →
        Stepped s s' c (.scheduler (.look i found)) [] := by
      rintro _ he rfl
      exact .stays (h.jump hf he (by simp [Frame.held, SchedulerPc.held])
        (.scheduler hon hcur trivial) (by simp) (.of_forall_ne (by simp)))
    simp only [schedulerCode] at he
    split at he
    · exact hrel _ he rfl
    · split at he
      · rename_i hfz hr
        refine .stays (h.write (i := i) hf he ⟨rfl, rfl⟩ (.pick found (not_not.mp hfz) hr)
          (by simp [Frame.held, SchedulerPc.held]) (.scheduler hon hcur ⟨?_, fun c' hc' => ?_⟩)
          (fun _ _ => ⟨hon, rfl⟩) (by simp) (.of_forall_ne (by simp)))
        · simp [State.apply, State.setProc]
        · -- a CPU that has `i` current would hold the lock that this one holds
          replace hc' : (s.cpus c').proc = some i := hc'
          rcases h.occ c' i hc' with hr' | hl
          · rw [hr] at hr'; cases hr'
          · have hl' : s.locks (.proc i) = some c := by
              rw [h.locks, hf]; simp [Frame.held, SchedulerPc.held]
            obtain rfl := Option.some.inj (hl.symm.trans hl')
            rw [hcur] at hc'; cases hc'
      · exact hrel _ he rfl
  | pick i => exact .current rfl (h.cpuProc hf he rfl (.inr (.inl ⟨i, rfl, rfl⟩)))
  | swtch i => exact .swtchTo rfl he
  | back i => exact .current rfl (h.cpuProc hf he rfl (.inr (.inr ⟨i, rfl, rfl⟩)))
  | rel i found =>
    refine .stays (h.release hf he (by simp [Frame.held, SchedulerPc.held])
      (.scheduler hon hcur trivial) (fun p hp => ?_) (by simp) (.of_forall_ne (by simp)))
    rw [hcur] at hp; cases hp

theorem StackOk.sys (h : StackOk s c (.body i :: rest)) (hon : (s.cpus c).on = some p)
    (hok : g.Ok p) (hkind : g.kind = .sys) (hin : g.stateIn = .running) :
    StackOk s c (g :: .body i :: rest) := by
  simp only [StackOk, hon] at h ⊢
  obtain ⟨⟨rfl, hrest⟩, hstate⟩ := h
  obtain rfl : rest = [] := hrest
  refine ⟨⟨hok, ?_⟩, ?_⟩
  · rw [hkind]
  · rw [hstate, stateIn_cons, stateIn_cons, hin]; rfl

theorem call_stays {call : Call M} {instr : Instr M} (h : Inv s)
    (hf : s.stackOf c = .body i :: rest) (hp : myproc s c = some p)
    (hcode : callCode s p (.body i) call = some instr)
    (he : exec s c (.body i) rest instr = some s') : Stays s s' c (.body i) rest := by
  have hst := h.stack_cons hf
  have hon := h.on_of_current hf (fun _ => id) hp
  have hbelow : heldBy rest = [] := hst.held_below id
  have hself : Frame.Next s c (.body i) (.body i) := ⟨fun _ => id, fun _ _ => id, rfl, id, id, rfl⟩
  have hscan : ∀ op, exec s c (.body i) rest (.jump [.scan op 0 .test, .body i]) = some s' →
      Stays s s' c (.body i) rest := fun op he =>
    h.call hf he hself rfl rfl (fun _ => trivial) rfl trivial rfl rfl
      (.inl (by simp [Frame.held, hbelow])) (by simp)
  cases call with
  | fork =>
    cases hcode
    refine h.jump hf he (.refl _) (hst.sys hon rfl rfl rfl) (by simp) fun r pc hm => ?_
    obtain ⟨rfl, rfl⟩ : r = p ∧ pc = .alloc 0 := by simpa using hm
    exact ⟨fun j hj => by simp [ForkPc.claims] at hj, fun j hj => by simp [ForkPc.claims] at hj⟩
  | exit | wait =>
    cases hcode
    exact h.jump hf he (.refl _) (hst.sys hon rfl rfl rfl) (by simp) (.of_forall_ne (by simp))
  | kill | sysFreeze | sysUnfreeze => cases hcode; exact hscan _ he
  | op m =>
    simp only [callCode] at hcode
    split at hcode
    · rename_i hm
      cases hcode
      exact h.call_client hf he hself rfl rfl (M.held_entry m hm) (by simp [Frame.held, hbelow])
        (by simp)
    · cases hcode
  | priv v =>
    cases hcode
    exact h.write_next hf he ⟨rfl, rfl⟩ (.priv v hon) hself rfl (fun _ => rfl)
      (.of_forall_ne (by simp))
  | setkilled =>
    simp only [callCode] at hcode
    split at hcode
    · cases hcode
    · rename_i hfree
      cases hcode
      exact h.write_next hf he ⟨rfl, rfl⟩ (.setkilled hon (not_not.mp hfree)) hself rfl
        (fun _ => rfl) (.of_forall_ne (by simp))

section

variable (h : Inv s) (hf : s.stackOf c = f :: rest) (hn : (s.cpus c).noff = 0)

include h hf hn

theorem Inv.held_of_noff : f.held = [] ∧ heldBy rest = [] := by
  have hlen := h.noff c
  rw [hn, hf, heldBy_cons, List.length_append] at hlen
  exact ⟨List.length_eq_zero_iff.mp (by omega), List.length_eq_zero_iff.mp (by omega)⟩

theorem Inv.on_of_noff (hp : (s.cpus c).proc = some p) : (s.cpus c).on = some p := by
  by_cases hns : ∀ pc, ¬ f.IsScheduler pc
  · exact h.on_of_current hf hns hp
  · obtain ⟨pc, hpc⟩ := not_forall_not.mp hns
    cases f <;> simp only [Frame.IsScheduler] at hpc
    obtain ⟨-, hcur, -, -⟩ := (h.stack_cons hf).of_scheduler
    have hheld := (h.held_of_noff hf hn).1
    subst hpc
    rw [hp] at hcur
    cases ‹SchedulerPc› <;> simp_all [SchedulerPc.cur, Frame.held, SchedulerPc.held]

theorem Inv.interrupt
    (he : exec s c f rest (.jump [g, f]) = some s') (hok : ∀ p, (s.cpus c).on = some p → g.Ok p)
    (hkind : g.kind = .nested) (hsch : (s.cpus c).on = none → g.OnScheduler)
    (hg : g.stateIn = .running) (hg' : g.held = []) (hgf : ∀ r pc, g ≠ .fork r pc) :
    Stays s s' c f rest := by
  have hst := h.stack_cons hf
  obtain ⟨hheld, hbelow⟩ := h.held_of_noff hf hn
  have hin : f.stateIn = .running ∨ (s.cpus c).on = none := by
    cases hon : (s.cpus c).on with
    | none => exact .inr rfl
    | some p =>
      by_contra hne
      have hm := Frame.held_of_stateIn (hst.ok hon).1 (not_or.mp hne).1
      simp [hheld] at hm
  refine h.jump hf he (by simp [hg']) ?_ ?_ fun r pc hm => ?_
  · rcases hin with hin | hon
    · exact hst.push hin hok hkind hsch hg (.inl (by simp [hheld, hbelow]))
    · simp only [StackOk, hon] at hst ⊢
      obtain ⟨pc, hs, hcur, hpc⟩ := hst
      exact ⟨pc, .inr ⟨hsch hon, hs, .inl (by simp [hheld, hbelow])⟩, hcur, hpc⟩
  · rintro j rfl
    simp [Frame.held, SchedulerPc.held] at hheld
  · rcases List.mem_cons.mp hm with e | e
    · exact absurd e.symm (hgf r pc)
    · obtain rfl := List.mem_singleton.mp e
      exact ⟨StackOk.fork_holds h hf r pc rfl, fun j hj => .inl ⟨r, pc, rfl, hj, id⟩⟩

end

theorem code_stepped {x : Nat} {instr : Instr M} (h : Inv s) (hf : s.stackOf c = f :: rest)
    (hcode : code s c x f = some instr) (he : exec s c f rest instr = some s') :
    Stepped s s' c f rest := by
  cases f with
  | scheduler pc => cases hcode; exact scheduler_stepped h hf he
  | body p => cases hcode
  | forkret p pc => cases hcode; exact .stays (forkret_stays h hf he)
  | yield p pc => cases hcode; exact .stays (yield_stays h hf he)
  | schedCheck ret => cases hcode; exact .stays (sched_stays h hf he)
  | schedSwtch p ret => cases hcode; exact .swtchOut rfl he
  | sleep p chan lk pc ret => cases hcode; exact .stays (sleep_stays h hf he)
  | scan op i pc => cases hcode; exact .stays (scan_stays h hf he)
  | fork p pc => cases hcode; exact .stays (fork_stays h hf he)
  | exit p status pc => cases hcode; exact .stays (exit_stays h hf he)
  | wait p addr pc => exact .stays (wait_stays h hf hcode he)
  | client m => exact .stays (client_stays h hf hcode he)
  | panic msg f => cases hcode

/-- **What a step is**: the CPU has a frame to execute, and makes one of the steps from it. -/
theorem kstep_stepped {a : Act M} (h : Inv s) (hs : kstep s c a = some s') :
    ∃ f rest, s.stackOf c = f :: rest ∧ Stepped s s' c f rest := by
  unfold kstep at hs
  cases hf : s.stackOf c with
  | nil => rw [hf] at hs; cases hs
  | cons f rest =>
    rw [hf] at hs
    refine ⟨f, rest, rfl, ?_⟩
    cases a with
    | go x =>
      obtain ⟨instr, hcode, he⟩ := Option.bind_eq_some_iff.mp hs
      exact code_stepped h hf hcode he
    | call call =>
      simp only at hs
      split at hs
      · rename_i p i hp
        obtain ⟨instr, hcode, he⟩ := Option.bind_eq_some_iff.mp hs
        exact .stays (call_stays h hf hp hcode he)
      · cases hs
    | intr m =>
      simp only at hs
      split at hs
      · rename_i hn
        exact .stays (h.interrupt hf hn.1 hs (fun _ _ => trivial) rfl (fun _ => trivial) rfl
          (by simp [Frame.held, M.held_handler m hn.2]) (by simp))
      · cases hs
    | timer =>
      simp only at hs
      split at hs
      · rename_i p hp
        split at hs
        · rename_i hn
          have hon := h.on_of_noff hf hn hp
          refine .stays (h.interrupt hf hn hs (fun p' hon' => ?_) rfl (fun hon' => ?_) rfl rfl
            (by simp))
          · exact Option.some.inj (hon.symm.trans hon')
          · rw [hon] at hon'; cases hon'
        · cases hs
      · cases hs

theorem kstep_stepped_of {a : Act M} (h : Inv s) (hf : s.stackOf c = f :: rest)
    (hs : kstep s c a = some s') : Stepped s s' c f rest := by
  obtain ⟨f', rest', hf', hstep⟩ := kstep_stepped h hs
  obtain ⟨rfl, rfl⟩ := List.cons.inj (hf.symm.trans hf')
  exact hstep

theorem kstep_inv {a : Act M} (h : Inv s) (hs : kstep s c a = some s') : Inv s' := by
  obtain ⟨f, rest, hf, hstep⟩ := kstep_stepped h hs
  exact hstep.inv h hf

theorem boot_inv (tf pt cwd : Nat) (d : M.Data) : Inv (boot tf pt cwd d) := by
  have hstack : ∀ c, (boot tf pt cwd d).stackOf c = [(.scheduler .start : Frame M)] := fun _ => rfl
  have hstate : ∀ p, ((boot tf pt cwd d).procs p).state = .unused ∨
      p = 0 ∧ ((boot tf pt cwd d).procs p).state = .runnable := by
    intro p
    by_cases hp : p = 0
    · subst hp; simp [boot, userinit]
    · simp [boot, update_of_ne hp, procinit]
  exact
    { locks := fun c l => by rw [hstack]; simp [boot, Frame.held, SchedulerPc.held]
      nodup := fun c => by rw [hstack]; simp [Frame.held, SchedulerPc.held]
      noff := fun c => by rw [hstack]; simp [boot, Frame.held, SchedulerPc.held]
      stack := fun c => by rw [hstack]; exact .scheduler rfl rfl trivial
      busy := fun c p hon => by cases hon
      uniq := fun c c' p hp => by cases hp
      occ := fun c p hp => by cases hp
      run := fun p hr => by rcases hstate p with h | ⟨-, h⟩ <;> rw [h] at hr <;> cases hr
      saved := fun p _ hl => by
        rcases hstate p with h | ⟨rfl, -⟩
        · simp [ProcState.Live, h] at hl
        · have hctx : ((boot tf pt cwd d).procs 0).context = [(.forkret 0 .rel : Frame M)] := by
            simp [boot, userinit]
          rw [hctx]
          exact ⟨parked_forkret 0, .inr rfl⟩
      forks := fun q r pc hm => by simp [boot] at hm
      claims := fun q q' r r' pc pc' i hm => by simp [boot] at hm
      notFrozen := fun p => by rcases hstate p with h | ⟨-, h⟩ <;> rw [h] <;> simp }

variable {init : M.Data → Prop}

theorem reachable_inv (h : (kernel M init).Reachable s) : Inv s := by
  refine h.invariant (fun s hs => ?_) fun s a s' hi _ hs => kstep_inv hi hs
  obtain ⟨tf, pt, cwd, d, -, rfl⟩ := hs
  exact boot_inv tf pt cwd d

end Xv6Freezer
