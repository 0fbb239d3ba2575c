import Xv6Freezer.Kernel.Freeze

/-! # What follows a frame

One step of a CPU as one instruction (`instrOf`), and what it leaves on the stack. `Follows` lists the frames
that can take the place of a frame; **only `code_follows` goes through the code for that**. `Arises` adds
system calls and interrupts.
-/

namespace Xv6Freezer

open Function (update update_of_ne)

variable {M : Client} {s s' : State M} {c c' : CpuId} {x : Nat} {p q i : Slot} {f g : Frame M}
  {k rest : List (Frame M)} {a : Act M} {instr : Instr M} {chan : Chan} {ret : Frame M}

/-! ## The parts of an instruction -/

/-- The frames that replace the one that executes an instruction. -/
def Instr.next : Instr M → List (Frame M)
  | .acquire _ k | .release _ k | .swtchTo _ k | .swtchOut _ k | .write _ k => k

def Instr.isSwtch : Instr M → Bool
  | .swtchTo _ _ | .swtchOut _ _ => true
  | _ => false

/-- The data of the code outside `proc.c` after an instruction. -/
def Instr.dataAfter (d : M.Data) : Instr M → M.Data
  | .write (.data d') _ => d'
  | _ => d

/-- The program points that may follow a statement. -/
def Stmt.Next {F D L : Type} : Stmt F D L → Option F → Prop
  | .acquire _ k, o | .release _ k, o | .sleep _ _ k, o | .wakeup _ k, o | .update _ k, o => o = some k
  | .killed k, o => ∃ b, o = some (k b)
  | .ret, o => o = none

def Stmt.data {F D L : Type} (d : D) : Stmt F D L → D
  | .update d' _ => d'
  | _ => d

@[simp] theorem State.setStack_data (st : List (Frame M)) : (s.setStack c st).data = s.data := by
  unfold State.setStack; split <;> rfl

section

variable (he : exec s c f rest instr = some s')

include he

/-- **An instruction that switches no stack**: the frames that follow, or a panic, replace its own. -/
theorem exec_quiet (hsw : instr.isSwtch = false) :
    ∃ (t : State M) (st : List (Frame M)), s' = t.setStack c st ∧
      (∀ c', (t.cpus c').on = (s.cpus c').on) ∧ t.kst = s.kst ∧
      t.data = instr.dataAfter s.data ∧
      (t.procs = s.procs ∨ ∃ w k, instr = .write w k ∧ t.procs = (s.apply c w).procs) ∧
      (st = instr.next ++ rest ∨ ∃ msg, st = .panic msg f :: rest) := by
  cases instr with
  | acquire l k =>
    simp only [exec] at he
    split at he
    · cases he
      exact ⟨s, _, rfl, fun _ => rfl, rfl, rfl, .inl rfl, .inr ⟨_, rfl⟩⟩
    · split at he <;> cases he
      exact ⟨_, _, rfl, fun _ => by simp, rfl, rfl, .inl rfl, .inl rfl⟩
  | release l k =>
    simp only [exec] at he
    split at he <;> cases he
    · exact ⟨s, _, rfl, fun _ => rfl, rfl, rfl, .inl rfl, .inr ⟨_, rfl⟩⟩
    · exact ⟨_, _, rfl, fun _ => by simp, rfl, rfl, .inl rfl, .inl rfl⟩
  | swtchTo | swtchOut => cases hsw
  | write w k =>
    cases he
    refine ⟨_, _, rfl, fun c' => ?_, ?_, ?_, .inr ⟨w, k, rfl, rfl⟩, .inl rfl⟩
    · by_cases hc : c' = c
      · subst hc
        cases w <;> simp [State.apply, State.setProc, State.setCpu]
      · cases w <;> simp [State.apply, State.setProc, State.setCpu, update_of_ne hc]
    · cases w <;> rfl
    · cases w <;> rfl

theorem exec_data : s'.data = instr.dataAfter s.data := by
  cases instr with
  | swtchTo | swtchOut => cases he; rfl
  | _ =>
    obtain ⟨t, st, rfl, -, -, hdata, -⟩ := exec_quiet he rfl
    rw [State.setStack_data, hdata]

theorem exec_stackOf (hsw : instr.isSwtch = false) :
    s'.stackOf c = instr.next ++ rest ∨ ∃ msg, s'.stackOf c = .panic msg f :: rest := by
  obtain ⟨t, st, rfl, -, -, -, -, hst⟩ := exec_quiet he hsw
  rwa [State.stackOf_setStack]

theorem exec_on (hsw : instr.isSwtch = false) : (s'.cpus c').on = (s.cpus c').on := by
  obtain ⟨t, st, rfl, hon, -⟩ := exec_quiet he hsw
  rw [State.setStack_on, hon]

end

/-! ## The code of a frame -/

@[simp] theorem callSleep_isSwtch {lk : Lock M} : (callSleep s c f chan lk ret).isSwtch = false := by
  unfold callSleep; split <;> rfl

@[simp] theorem callSleep_dataAfter {lk : Lock M} (d : M.Data) :
    (callSleep s c f chan lk ret).dataAfter d = d := by
  unfold callSleep; split <;> rfl

theorem code_quiet (hcode : code s c x f = some instr) (hsch : ∀ pc, f ≠ .scheduler pc)
    (hsw : ∀ p ret, f ≠ .schedSwtch p ret) :
    instr.isSwtch = false ∧ (instr.dataAfter s.data = s.data ∨ ∃ g d k, f = .client g ∧
      M.code g (myproc s c) (mypid s c) s.data x = .update d k ∧
      instr = .write (.data d) [.client k]) := by
  cases f with
  | scheduler pc => exact absurd rfl (hsch pc)
  | schedSwtch p ret => exact absurd rfl (hsw p ret)
  | body | panic => cases hcode
  | sleep r chan lk pc ret => cases hcode; cases pc <;> exact ⟨rfl, .inl rfl⟩
  | scan op i pc =>
    cases hcode
    cases pc with
    | rel r => cases r <;> exact ⟨rfl, .inl rfl⟩
    | _ => simp only [scanCode]; (repeat' split) <;> exact ⟨rfl, .inl rfl⟩
  | wait r addr pc =>
    cases pc <;> simp only [code, waitCode] at hcode <;> (repeat' split at hcode) <;> cases hcode <;>
      first | exact ⟨rfl, .inl rfl⟩ | exact ⟨by simp, .inl (by simp)⟩
  | client g =>
    simp only [code, clientCode] at hcode
    cases hc : M.code g (myproc s c) (mypid s c) s.data x with
    | sleep n l k =>
      rw [hc] at hcode
      cases hcode
      exact ⟨by simp, .inl (by simp)⟩
    | update d k =>
      rw [hc] at hcode
      cases hcode
      exact ⟨rfl, .inr ⟨g, d, k, rfl, hc, rfl⟩⟩
    | _ =>
      rw [hc] at hcode
      simp only at hcode
      (repeat' split at hcode) <;> cases hcode <;> exact ⟨rfl, .inl rfl⟩
  | _ =>
    rename_i pc
    cases hcode
    (try cases pc) <;> simp only [forkretCode, yieldCode, schedCode, forkCode, exitCode] <;>
      (repeat' split) <;> exact ⟨rfl, .inl rfl⟩

theorem code_swtchTo (hcode : code s c x f = some (.swtchTo i k)) : f = .scheduler (.swtch i) := by
  by_cases hsch : ∃ pc, f = .scheduler pc
  · obtain ⟨pc, rfl⟩ := hsch
    simp only [code, Option.some.injEq] at hcode
    cases pc <;> simp only [schedulerCode] at hcode <;> (repeat' split at hcode) <;> cases hcode
    rfl
  · by_cases hout : ∃ p ret, f = .schedSwtch p ret
    · obtain ⟨p, ret, rfl⟩ := hout
      cases hcode
    · cases (code_quiet hcode (fun pc e => hsch ⟨pc, e⟩) fun p ret e => hout ⟨p, ret, e⟩).1

theorem code_swtchOut (hcode : code s c x f = some (.swtchOut i k)) : ∃ ret, f = .schedSwtch i ret := by
  by_cases hsch : ∃ pc, f = .scheduler pc
  · obtain ⟨pc, rfl⟩ := hsch
    simp only [code, Option.some.injEq] at hcode
    cases pc <;> simp only [schedulerCode] at hcode <;> (repeat' split at hcode) <;> cases hcode
  · by_cases hout : ∃ p ret, f = .schedSwtch p ret
    · obtain ⟨p, ret, rfl⟩ := hout
      cases hcode
      exact ⟨ret, rfl⟩
    · cases (code_quiet hcode (fun pc e => hsch ⟨pc, e⟩) fun p ret e => hout ⟨p, ret, e⟩).1

theorem clientCode_data {g : M.Frame} (hi : clientCode s c g x = some instr) :
    instr.dataAfter s.data = (M.code g (myproc s c) (mypid s c) s.data x).data s.data := by
  simp only [clientCode] at hi
  cases hc : M.code g (myproc s c) (mypid s c) s.data x with
  | sleep n l k =>
    rw [hc] at hi
    cases hi
    simp only [callSleep]
    split <;> rfl
  | killed k =>
    rw [hc] at hi
    simp only at hi
    (repeat' split at hi) <;> cases hi <;> rfl
  | _ => rw [hc] at hi; cases hi; rfl

/-- The frames that the code of a frame can leave in its place. -/
inductive Follows (s : State M) (c : CpuId) (x : Nat) : Frame M → Frame M → Prop
  | panic (msg : String) (f : Frame M) : Follows s c x f (.panic msg f)
  | scheduler (pc pc' : SchedulerPc) : Follows s c x (.scheduler pc) (.scheduler pc')
  | forkret (p : Slot) (pc pc' : ForkretPc) : Follows s c x (.forkret p pc) (.forkret p pc')
  | fsinit (p : Slot) (pc : ForkretPc) : Follows s c x (.forkret p pc) (.client M.fsinit)
  | user (p : Slot) (pc : ForkretPc) : Follows s c x (.forkret p pc) (.body p)
  | yield (p : Slot) (pc pc' : YieldPc) : Follows s c x (.yield p pc) (.yield p pc')
  | yieldSched (p : Slot) (pc : YieldPc) : Follows s c x (.yield p pc) (.schedCheck (.yield p .rel))
  | schedSwtch (p : Slot) (ret : Frame M) : Follows s c x (.schedCheck ret) (.schedSwtch p ret)
  | schedRet (p : Slot) (ret : Frame M) : Follows s c x (.schedSwtch p ret) ret
  | sleepRel (p : Slot) (chan : Chan) (lk : Lock M) (ret : Frame M) :
      Follows s c x (.sleep p chan lk .acq ret) (.sleep p chan lk .rel ret)
  | sleepSet (p : Slot) (chan : Chan) (lk : Lock M) (ret : Frame M) :
      Follows s c x (.sleep p chan lk .rel ret) (.sleep p chan lk .set ret)
  | sleepSched (p : Slot) (chan : Chan) (lk : Lock M) (ret : Frame M) :
      Follows s c x (.sleep p chan lk .set ret) (.schedCheck (.sleep p chan lk .tidy ret))
  | sleepUnlock (p : Slot) (chan : Chan) (lk : Lock M) (ret : Frame M) :
      Follows s c x (.sleep p chan lk .tidy ret) (.sleep p chan lk .unlock ret)
  | sleepReacq (p : Slot) (chan : Chan) (lk : Lock M) (ret : Frame M) :
      Follows s c x (.sleep p chan lk .unlock ret) (.sleep p chan lk .reacq ret)
  | sleepRet (p : Slot) (chan : Chan) (lk : Lock M) (ret : Frame M) :
      Follows s c x (.sleep p chan lk .reacq ret) ret
  | scan (op : ScanOp) (i i' : Slot) (pc pc' : ScanPc) :
      Follows s c x (.scan op i pc) (.scan op i' pc')
  | fork (p : Slot) (pc pc' : ForkPc) : Follows s c x (.fork p pc) (.fork p pc')
  | exit (p : Slot) (status : Int) (pc pc' : ExitPc) :
      Follows s c x (.exit p status pc) (.exit p status pc')
  | exitClose (p : Slot) (status : Int) (pc : ExitPc) (n : Nat) :
      Follows s c x (.exit p status pc) (.client (M.fileclose n))
  | exitIput (p : Slot) (status : Int) (pc : ExitPc) (n : Nat) :
      Follows s c x (.exit p status pc) (.client (M.iput n))
  | exitWakeup (p : Slot) (status : Int) (pc : ExitPc) (op : ScanOp) :
      Follows s c x (.exit p status pc) (.scan op 0 .test)
  | exitSched (p : Slot) (status : Int) (pc : ExitPc) :
      Follows s c x (.exit p status pc) (.schedCheck (.exit p status .dead))
  | wait (p : Slot) (addr : Nat) (pc pc' : WaitPc) :
      Follows s c x (.wait p addr pc) (.wait p addr pc')
  | waitSleep (p q : Slot) (addr : Nat) (b : Bool) :
      Follows s c x (.wait p addr (.check b))
        (.sleep q (.proc p) .wait .acq (.wait p addr (.scan 0 false)))
  | client {k k' : M.Frame}
      (hcode : (M.code k (myproc s c) (mypid s c) s.data x).Next (some k')) :
      Follows s c x (.client k) (.client k')
  | clientSleep {k k' : M.Frame} {n : Nat} {l : M.Lk} {p : Slot} (hp : myproc s c = some p)
      (hcode : M.code k (myproc s c) (mypid s c) s.data x = .sleep n l k') :
      Follows s c x (.client k) (.sleep p (.addr n) (.client l) .acq (.client k'))
  | clientWakeup (k : M.Frame) (op : ScanOp) : Follows s c x (.client k) (.scan op 0 .test)

theorem clientCode_follows {k : M.Frame} (hi : clientCode s c k x = some instr) (hg : g ∈ instr.next) :
    Follows s c x (.client k) g := by
  simp only [clientCode] at hi
  cases hc : M.code k (myproc s c) (mypid s c) s.data x with
  | sleep n l k' =>
    rw [hc] at hi
    cases hi
    simp only [callSleep] at hg
    split at hg <;> obtain rfl := List.mem_singleton.mp hg
    · exact .panic _ _
    · rename_i p hp
      exact .clientSleep hp hc
  | _ =>
    rw [hc] at hi
    simp only at hi
    (repeat' split at hi) <;> cases hi <;>
      simp only [Instr.next, Instr.jump, Instr.fail, List.mem_cons, List.not_mem_nil, or_false] at hg <;>
      (try rcases hg with rfl | rfl) <;>
      first
        | exact .panic _ _
        | exact .clientWakeup _ _
        | exact .client (hc ▸ rfl)
        | exact .client (hc ▸ ⟨_, rfl⟩)

theorem code_follows (hi : code s c x f = some instr) (hg : g ∈ instr.next) : Follows s c x f g := by
  cases f with
  | body | panic => cases hi
  | client k => exact clientCode_follows hi hg
  | schedSwtch p ret =>
    cases hi
    obtain rfl := List.mem_singleton.mp hg
    exact .schedRet p g
  | sleep p chan lk pc ret =>
    cases hi
    cases pc <;> obtain rfl := List.mem_singleton.mp hg <;> constructor
  | scan op i pc =>
    cases hi
    cases pc with
    | rel r => cases r <;> simp [scanCode, Instr.next] at hg; subst hg; constructor
    | _ =>
      simp only [scanCode] at hg
      (repeat' split at hg) <;> simp [Instr.next, Instr.jump] at hg <;> subst hg <;> constructor
  | wait p addr pc =>
    cases pc <;> simp only [code, waitCode] at hi <;> (repeat' split at hi) <;> cases hi <;>
      (try simp only [callSleep] at hg) <;> (try split at hg) <;>
      simp [Instr.next, Instr.jump, Instr.fail] at hg <;> subst hg <;> constructor
  | _ =>
    rename_i pc
    cases hi
    (try cases pc) <;>
      simp only [schedulerCode, forkretCode, yieldCode, schedCode, forkCode, exitCode] at hg <;>
      (repeat' split at hg) <;> simp [Instr.next, Instr.jump, Instr.fail] at hg <;>
      (try rcases hg with rfl | rfl) <;> constructor

/-! ## Steps as instructions -/

/-- The instruction that a CPU whose innermost frame is `f` executes in a step. -/
def instrOf (s : State M) (c : CpuId) (a : Act M) (f : Frame M) : Option (Instr M) :=
  match a with
  | .go x => code s c x f
  | .call k =>
    match f, myproc s c with
    | .body _, some p => callCode s p f k
    | _, _ => none
  | .intr h => if (s.cpus c).noff = 0 ∧ M.handler h then some (.jump [.client h, f]) else none
  | .timer =>
    match myproc s c with
    | some p => if (s.cpus c).noff = 0 then some (.jump [.yield p .acq, f]) else none
    | none => none

theorem kstep_instr (hf : s.stackOf c = f :: rest) (hs : kstep s c a = some s') :
    ∃ instr, instrOf s c a f = some instr ∧ exec s c f rest instr = some s' := by
  simp only [kstep, hf] at hs
  cases a with
  | go x => exact Option.bind_eq_some_iff.mp hs
  | call k =>
    simp only at hs
    split at hs
    · rename_i b p hp
      obtain ⟨instr, hcode, he⟩ := Option.bind_eq_some_iff.mp hs
      exact ⟨instr, by simpa only [instrOf, hp] using hcode, he⟩
    · cases hs
  | intr h =>
    simp only at hs
    split at hs
    · rename_i hn
      exact ⟨_, if_pos hn, hs⟩
    · cases hs
  | timer =>
    simp only at hs
    split at hs
    · rename_i p hp
      split at hs
      · rename_i hn
        exact ⟨_, by simp only [instrOf, hp, if_pos hn], hs⟩
      · cases hs
    · cases hs

theorem callCode_quiet {call : Call M} {b : Frame M} (hcode : callCode s p b call = some instr) :
    instr.isSwtch = false ∧ instr.dataAfter s.data = s.data := by
  cases call <;> simp only [callCode] at hcode <;> (repeat' split at hcode) <;> cases hcode <;>
    exact ⟨rfl, rfl⟩

theorem instrOf_quiet (hi : instrOf s c a f = some instr) (ha : ∀ x, a ≠ .go x) :
    instr.isSwtch = false ∧ instr.dataAfter s.data = s.data := by
  cases a with
  | go x => exact absurd rfl (ha x)
  | call call =>
    simp only [instrOf] at hi
    split at hi
    · exact callCode_quiet hi
    · cases hi
  | intr h => simp only [instrOf] at hi; split at hi <;> cases hi; exact ⟨rfl, rfl⟩
  | timer => simp only [instrOf] at hi; (repeat' split at hi) <;> cases hi; exact ⟨rfl, rfl⟩

theorem instrOf_swtchTo (hi : instrOf s c a f = some (.swtchTo i k)) :
    f = .scheduler (.swtch i) := by
  cases a with
  | go x => exact code_swtchTo hi
  | _ => cases (instrOf_quiet hi nofun).1

theorem instrOf_swtchOut (hi : instrOf s c a f = some (.swtchOut i k)) :
    ∃ ret, f = .schedSwtch i ret := by
  cases a with
  | go x => exact code_swtchOut hi
  | _ => cases (instrOf_quiet hi nofun).1

/-- **One step and the data**: they stay, or code outside `proc.c` updates them. -/
theorem kstep_data (hs : kstep s c a = some s') (hf : s.stackOf c = f :: rest) :
    s'.data = s.data ∨ ∃ x g d k, a = .go x ∧ f = .client g ∧
      M.code g (myproc s c) (mypid s c) s.data x = .update d k ∧ s'.data = d ∧
      s'.stackOf c = .client k :: rest := by
  obtain ⟨instr, hi, he⟩ := kstep_instr hf hs
  rw [exec_data he]
  cases a with
  | go x =>
    by_cases hsch : ∃ pc, f = .scheduler pc
    · obtain ⟨pc, rfl⟩ := hsch
      cases hi
      cases pc <;> simp only [schedulerCode] <;> (repeat' split) <;> exact .inl rfl
    by_cases hsw : ∃ p ret, f = .schedSwtch p ret
    · obtain ⟨p, ret, rfl⟩ := hsw
      cases hi
      exact .inl rfl
    obtain ⟨-, hd | ⟨g, d, k, rfl, hc, rfl⟩⟩ := code_quiet hi (fun pc e => hsch ⟨pc, e⟩)
      fun p ret e => hsw ⟨p, ret, e⟩
    · exact .inl hd
    · cases he
      exact .inr ⟨x, g, d, k, rfl, rfl, hc, rfl, by simp⟩
  | _ => exact .inl (instrOf_quiet hi (by simp)).2

/-! ## Where frames come from -/

section

variable (h : Inv s) (hf : s.stackOf c = f :: rest) (hi : instrOf s c a f = some instr)
  (he : exec s c f rest instr = some s')

include h hf hi he

theorem kstep_kst_self (hon : (s.cpus c).on = some q) :
    s'.kst q = instr.next ++ rest ∨ ∃ msg, s'.kst q = .panic msg f :: rest := by
  cases instr with
  | swtchTo i k =>
    -- the scheduler does not execute on the stack of a process
    obtain rfl := instrOf_swtchTo hi
    have := (h.stack_cons hf).of_scheduler.1
    rw [hon] at this
    cases this
  | swtchOut i k =>
    obtain ⟨ret, rfl⟩ := instrOf_swtchOut hi
    cases he
    obtain rfl : i = q := ((h.stack_cons hf).ok hon).1.1
    exact .inl (by simp [Instr.next])
  | _ =>
    obtain ⟨t, st, rfl, ht, -, -, -, hst⟩ := exec_quiet he rfl
    rwa [State.setStack_kst_of_eq st ((ht c).trans hon)]

/-- **A step and the kernel stack of another process**: it stays, or the process is started. -/
theorem kstep_kst_other (hon : (s.cpus c).on ≠ some q) : s'.kst q = s.kst q ∨
      s'.kst q = [.forkret q .rel] ∧ (∀ c, (s.cpus c).on ≠ some q) ∧
        (s.procs q).context = [.forkret q .rel] := by
  cases instr with
  | swtchTo i k =>
    obtain rfl := instrOf_swtchTo hi
    cases he
    by_cases hq : q = i
    · subst hq
      obtain ⟨hoff, -, e | e⟩ := h.saved_of_swtch hf
      · exact .inl (by simp [e])
      · exact .inr ⟨by simp [e], hoff, e⟩
    · exact .inl (by simp [update_of_ne hq])
  | swtchOut i k =>
    obtain ⟨ret, rfl⟩ := instrOf_swtchOut hi
    cases he
    obtain ⟨p', hon'⟩ := (h.stack_cons hf).on_some (fun _ => id) id
    have hpi : i = p' := ((h.stack_cons hf).ok hon').1.1
    have hq : q ≠ i := by
      rintro rfl
      exact hon (hpi ▸ hon')
    exact .inl (by simp [update_of_ne hq])
  | _ =>
    obtain ⟨t, st, rfl, ht, hkst, -⟩ := exec_quiet he rfl
    exact .inl (by rw [State.setStack_kst_of_ne st (by rwa [ht]), hkst])

end

/-- How a frame gets on the stack of a CPU that is at the frame `f`. -/
inductive Arises (s : State M) (c : CpuId) (f : Frame M) : Act M → Frame M → Prop
  | go {x : Nat} {instr : Instr M} {g : Frame M} (hcode : code s c x f = some instr)
      (hg : g ∈ instr.next) : Arises s c f (.go x) g
  | panic (a : Act M) (msg : String) : Arises s c f a (.panic msg f)
  /-- The frame is under that of a system call or an interrupt. -/
  | under {a : Act M} (ha : ∀ x, a ≠ .go x) : Arises s c f a f
  | fork {p : Slot} (hp : myproc s c = some p) : Arises s c f (.call .fork) (.fork p (.alloc 0))
  | exit {p : Slot} {status : Int} (hp : myproc s c = some p) :
      Arises s c f (.call (.exit status)) (.exit p status .start)
  | wait {p : Slot} {addr : Nat} (hp : myproc s c = some p) :
      Arises s c f (.call (.wait addr)) (.wait p addr .acqWait)
  | scan (call : Call M) (op : ScanOp) : Arises s c f (.call call) (.scan op 0 .test)
  | op {k : M.Frame} {b : Slot} (hf : f = .body b) (hk : M.entry k = true) :
      Arises s c f (.call (.op k)) (.client k)
  | intr {k : M.Frame} (hk : M.handler k = true) : Arises s c f (.intr k) (.client k)
  | timer (p : Slot) : Arises s c f .timer (.yield p .acq)

theorem instrOf_arises (hi : instrOf s c a f = some instr) (hg : g ∈ instr.next) :
    Arises s c f a g := by
  have hpair : ∀ {h : Frame M}, g ∈ (Instr.jump [h, f]).next → (∀ x, a ≠ .go x) → Arises s c f a h →
      Arises s c f a g := by
    intro h hg ha hh
    rcases List.mem_cons.mp hg with rfl | hg
    · exact hh
    · rw [List.mem_singleton.mp hg]
      exact .under ha
  cases a with
  | go x => exact .go hi hg
  | call call =>
    simp only [instrOf] at hi
    split at hi
    case h_2 => cases hi
    rename_i b p hp
    cases call with
    | fork => cases hi; exact hpair hg (by simp) (.fork hp)
    | exit status => cases hi; exact hpair hg (by simp) (.exit hp)
    | wait addr => cases hi; exact hpair hg (by simp) (.wait hp)
    | kill | sysFreeze | sysUnfreeze => cases hi; exact hpair hg (by simp) (.scan _ _)
    | op k =>
      simp only [callCode] at hi
      split at hi <;> cases hi
      rename_i hk
      exact hpair hg (by simp) (.op rfl hk)
    | priv v =>
      cases hi
      rw [List.mem_singleton.mp hg]
      exact .under (by simp)
    | setkilled =>
      simp only [callCode] at hi
      split at hi <;> cases hi
      rw [List.mem_singleton.mp hg]
      exact .under (by simp)
  | intr h =>
    simp only [instrOf] at hi
    split at hi <;> cases hi
    rename_i hh
    exact hpair hg (by simp) (.intr hh.2)
  | timer =>
    simp only [instrOf] at hi
    (repeat' split at hi) <;> cases hi
    exact hpair hg (by simp) (.timer _)

theorem kstep_kst_mem (h : Inv s) (hf : s.stackOf c = f :: rest) (hs : kstep s c a = some s')
    (hm : g ∈ s'.kst q) : (g ∈ s.kst q ∧ ((s.cpus c).on = some q → g ∈ rest)) ∨
      ((s.cpus c).on = some q ∧ s.kst q = f :: rest ∧ Arises s c f a g) ∨ g = .forkret q .rel := by
  obtain ⟨instr, hi, he⟩ := kstep_instr hf hs
  by_cases hon : (s.cpus c).on = some q
  · have hkst : s.kst q = f :: rest := by rw [← hf, State.stackOf_of_on hon]
    have hrest : g ∈ rest → g ∈ s.kst q ∧ ((s.cpus c).on = some q → g ∈ rest) := fun hg =>
      ⟨hkst ▸ List.mem_cons_of_mem _ hg, fun _ => hg⟩
    rcases kstep_kst_self h hf hi he hon with e | ⟨msg, e⟩ <;> rw [e] at hm
    · rcases List.mem_append.mp hm with hm | hm
      · exact .inr (.inl ⟨hon, hkst, instrOf_arises hi hm⟩)
      · exact .inl (hrest hm)
    · rcases List.mem_cons.mp hm with rfl | hm
      · exact .inr (.inl ⟨hon, hkst, .panic a msg⟩)
      · exact .inl (hrest hm)
  · rcases kstep_kst_other h hf hi he hon with e | ⟨e, -⟩ <;> rw [e] at hm
    · exact .inl ⟨hm, fun hon' => absurd hon' hon⟩
    · exact .inr (.inr (List.mem_singleton.mp hm))

theorem kstep_stackOf_mem (h : Inv s) (hf : s.stackOf c = f :: rest) (hs : kstep s c a = some s')
    (hm : g ∈ s'.stackOf c') : g ∈ s.stackOf c' ∨ c' = c ∧ (Arises s c f a g ∨
      (∃ i, f = .scheduler (.swtch i) ∧ (s'.cpus c).on = some i ∧ g ∈ (s.procs i).context) ∨
      ∃ i ret, f = .schedSwtch i ret ∧ g = .scheduler (.back i)) := by
  have hstep := kstep_stepped_of h hf hs
  by_cases hc : c' = c
  case neg => rw [hstep.stackOf_of_ne h hf hc] at hm; exact .inl hm
  subst hc
  obtain ⟨instr, hi, he⟩ := kstep_instr hf hs
  cases hsw : instr.isSwtch with
  | false =>
    rcases exec_stackOf he hsw with e | ⟨msg, e⟩ <;> rw [e] at hm
    · rcases List.mem_append.mp hm with hm | hm
      · exact .inr ⟨rfl, .inl (instrOf_arises hi hm)⟩
      · exact .inl (hf ▸ List.mem_cons_of_mem _ hm)
    · rcases List.mem_cons.mp hm with rfl | hm
      · exact .inr ⟨rfl, .inl (.panic a msg)⟩
      · exact .inl (hf ▸ List.mem_cons_of_mem _ hm)
  | true =>
    cases instr with
    | swtchTo i k =>
      obtain rfl := instrOf_swtchTo hi
      cases he
      exact .inr ⟨rfl, .inr (.inl ⟨i, rfl, by simp, by simpa [State.stackOf] using hm⟩)⟩
    | swtchOut i k =>
      obtain ⟨ret, rfl⟩ := instrOf_swtchOut hi
      obtain ⟨p, hon⟩ := (h.stack_cons hf).on_some (fun _ => id) id
      obtain rfl : i = p := ((h.stack_cons hf).ok hon).1.1
      cases he
      refine .inr ⟨rfl, .inr (.inr ⟨i, ret, rfl, ?_⟩)⟩
      simpa [State.stackOf, (h.busy c' i hon).2] using hm
    | _ => cases hsw

end Xv6Freezer
