import Xv6Freezer.Virtio.Step

/-! # The request protocol

In every run no descriptor is lost or used twice, the device sees every request that was posted, a call
returns when its own request has been completed, and nothing panics (`virtio_protocol`).
-/

namespace Xv6Freezer.Virtio

variable {es : List Event} {s : Sys} {l u : List Nat} {t : Nat} {j : Job} {c : Chain}

/-- The descriptors of the chain that starts at `h`: at most `n`. -/
def Sys.follow (s : Sys) : Nat → Nat → List Nat
  | 0, _ => []
  | n + 1, h =>
    if (s.desc h).flags &&& VRING_DESC_F_NEXT ≠ 0 then h :: s.follow n (s.desc h).next else [h]

theorem Linked.follow (h : Linked s j c) : s.follow NUM c.head = c.list := by
  have h0 : c.desc0.flags &&& VRING_DESC_F_NEXT ≠ 0 := by simp [Chain.desc0, VRING_DESC_F_NEXT]
  have h1 : (c.desc1 j).flags &&& VRING_DESC_F_NEXT ≠ 0 := by
    cases hj : j.write <;> simp [Chain.desc1, hj, VRING_DESC_F_NEXT, VRING_DESC_F_WRITE]
  have h2 : ¬ (c.desc2.flags &&& VRING_DESC_F_NEXT ≠ 0) := by
    simp [Chain.desc2, VRING_DESC_F_NEXT, VRING_DESC_F_WRITE]
  simp only [NUM, Sys.follow, h.head, if_pos h0]
  rw [show c.desc0.next = c.mid from rfl, h.mid, if_pos h1, show (c.desc1 j).next = c.tail from rfl,
    h.tail, if_neg h2]
  rfl

theorem Pc.sleepBuf_of_owns {pc : Pc} {i : Nat} (hl : pc.locked = false) (hi : i ∈ pc.owns) :
    ∃ j c, pc = .sleepBuf j c ∧ i ∈ c.list := by
  cases pc <;> simp only [Pc.locked, Bool.true_eq_false] at hl <;>
    simp only [Pc.owns, List.not_mem_nil] at hi
  exact ⟨_, _, rfl, hi⟩

/-- **The virtio request protocol**, after every run with its history `es`: a descriptor is free, or one
thread has it, which sleeps until its request is completed while `vdisk_lock` is free; the device takes the
chains in order, and none is overwritten before; a call that is about to return had its chain completed once
and has freed its three descriptors and nothing else; no thread panics. -/
theorem virtio_protocol (hr : sys.Emits event boot es s) :
    (∀ i < NUM, (s.free i = true ∧ ∀ t, i ∉ (s.pc t).owns) ∨
      (s.free i = false ∧ ∃! t, i ∈ (s.pc t).owns)) ∧
    (s.lock = none → ∀ t, ∀ i ∈ (s.pc t).owns, ∃ j c, s.pc t = .sleepBuf j c ∧ i ∈ c.list ∧
      c.list.Nodup ∧ s.follow NUM c.head = c.list ∧ Linked s j c) ∧
    (∃ l, posts es = l.reverse ++ fetches es ∧ s.avail.Rep NUM IDX (fetches es).length l) ∧
    (∀ t j c, s.pc t = .ring j c → ∀ n < (s.avail.w + (IDX - s.avail.r)) % IDX,
      (s.avail.r + n) % NUM ≠ s.avail.w % NUM) ∧
    (∀ t j c, s.pc t = .release j c → ∃ es₁ es₂, es = es₁ ++ .post t j c :: es₂ ∧
      c.head ∉ posts es₁ ∧ (completions es₁).count c.head = 1 ∧
      frees t es₁ = [c.tail, c.mid, c.head]) ∧
    ∀ t msg, s.pc t ≠ .panicked msg := by
  obtain ⟨l, u, I⟩ := run_inv hr
  refine ⟨fun i hi => ?_, fun hlock t i hi => ?_, ⟨l, I.order, I.avail⟩, fun t j c hpc n hn => ?_,
    fun t j c hpc => ?_, I.fine⟩
  · cases hf : s.free i with
    | true => exact .inl ⟨rfl, fun t hm => by rw [I.pool.free_eq hm] at hf; cases hf⟩
    | false =>
      obtain ⟨t, ht⟩ := I.pool.owner i hi hf
      exact .inr ⟨rfl, t, ht, fun t' ht' => I.pool.disjoint t' t i ht' ht⟩
  · have hl : (s.pc t).locked = false := by
      cases hl : (s.pc t).locked with
      | false => rfl
      | true => rw [(I.lock t).mp hl] at hlock; cases hlock
    obtain ⟨j, c, hpc, hic⟩ := Pc.sleepBuf_of_owns hl hi
    have hnd := I.pool.nodup t
    have hok := I.ok t
    rw [hpc] at hok
    simp only [hpc] at hnd
    exact ⟨j, c, hpc, hic, hnd, hok.1.follow, hok.1⟩
  · rw [I.avail.length_eq (by decide)] at hn
    have hown : c.head ∈ (s.pc t).owns := by rw [hpc]; exact c.head_mem
    have hne := I.avail.cell_ne num_dvd (I.length_lt hown (by rw [hpc]; rfl)) hn
    rwa [I.avail.r_eq, Lib.RingBuffer.mod_mod_cell num_dvd]
  · have hok := I.ok t
    rw [hpc] at hok
    obtain ⟨es₁, es₂, rfl, hp, hc, hf⟩ := I.sent t j c c.list (by rw [hpc]; rfl)
    refine ⟨es₁, es₂, rfl, hp, ?_, hf⟩
    rw [hc, if_neg]
    exact fun hm => hok (List.mem_append_left _ hm)

def rwTrace : List Act :=
  [.rw 0 ⟨3, 7, true⟩] ++ List.replicate 11 (.go 0) ++ [.fetch, .complete 0, .intr 1] ++
    List.replicate 4 (.go 1) ++ List.replicate 6 (.go 0)

theorem virtio_protocol_write : ∃ es s, sys.Emits event boot es s ∧
    s.pc 0 = .release ⟨3, 7, true⟩ ⟨0, 1, 2⟩ ∧ ∃ es₁ es₂, es = es₁ ++ .post 0 ⟨3, 7, true⟩ ⟨0, 1, 2⟩ :: es₂ ∧
      (completions es₁).count 0 = 1 ∧ frees 0 es₁ = [2, 1, 0] := by
  have hex : (sys.execsEmits event boot [] rwTrace).map (fun r =>
      decide (r.2.pc 0 = .release ⟨3, 7, true⟩ ⟨0, 1, 2⟩)) = some true := by
    decide
  obtain ⟨⟨es, s⟩, hs, hp⟩ := Option.map_eq_some_iff.mp hex
  have hpc := of_decide_eq_true hp
  have hr : sys.Emits event boot es s := Lib.Lts.Emits.refl.execs hs
  obtain ⟨-, -, -, -, hret, -⟩ := virtio_protocol hr
  obtain ⟨es₁, es₂, he, -, hc, hf⟩ := hret 0 _ _ hpc
  exact ⟨es, s, hr, hpc, es₁, es₂, he, hc, hf⟩

end Xv6Freezer.Virtio
