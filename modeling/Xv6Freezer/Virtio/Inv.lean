import Xv6Freezer.Lib.Pool
import Xv6Freezer.Virtio.Basic

/-! # Invariant of the virtio driver

Who owns which descriptor, which chains are with the device, and what each thread that waits knows about its
own request, in every state of a run with its history.
-/

namespace Xv6Freezer.Virtio

open Function

/-! ## What is known at a program point -/

namespace Pc

def locked : Pc → Bool
  | .idle | .acquire _ | .sleepFree _ | .sleepBuf _ _ | .intrAcquire | .panicked _ => false
  | _ => true

def job? : Pc → Option Job
  | .acquire j | .alloc j _ | .undo j _ | .sleepFree j | .desc0 j _ | .desc1 j _ | .desc2 j _
  | .mark j _ | .ring j _ | .post j _ | .wait j _ | .sleepBuf j _ | .clear j _ | .chain j _ _
  | .release j _ => some j
  | _ => none

def owns : Pc → List Nat
  | .alloc _ idx | .undo _ idx => idx
  | .desc0 _ c | .desc1 _ c | .desc2 _ c | .mark _ c | .ring _ c | .post _ c | .wait _ c
  | .sleepBuf _ c | .clear _ c => c.list
  | .chain _ c i => c.list.dropWhile (· ≠ i)
  | _ => []

/-- The request that the thread waits for. -/
def waiting? : Pc → Option (Job × Chain)
  | .wait j c | .sleepBuf j c => some (j, c)
  | _ => none

/-- The request that the thread has posted, and the descriptors freed since. -/
def sent? : Pc → Option (Job × Chain × List Nat)
  | .wait j c | .sleepBuf j c | .clear j c => some (j, c, [])
  | .chain j c i => some (j, c, c.list.takeWhile (· ≠ i))
  | .release j c => some (j, c, c.list)
  | _ => none

end Pc

/-- The descriptors of a chain are filled in. -/
structure Linked (s : Sys) (j : Job) (c : Chain) : Prop where
  req : s.ops c.head = j.req
  head : s.desc c.head = c.desc0
  mid : s.desc c.mid = c.desc1 j
  tail : s.desc c.tail = c.desc2

/-- What a thread knows; `out` are the chains that `virtio_disk_intr` has not seen. -/
def Pc.Ok (s : Sys) (out : List Nat) : Pc → Prop
  | .alloc _ idx => idx.length < 3
  | .desc1 j c => s.ops c.head = j.req ∧ s.desc c.head = c.desc0
  | .desc2 j c => s.ops c.head = j.req ∧ s.desc c.head = c.desc0 ∧ s.desc c.mid = c.desc1 j
  | .mark j c => Linked s j c
  | .ring j c => Linked s j c ∧ s.disk j.b = true ∧ (s.info c.head).b = some j.b
  | .post j c => Linked s j c ∧ s.disk j.b = true ∧ (s.info c.head).b = some j.b ∧
      s.avail.data (s.avail.w % NUM) = c.head
  | .wait j c | .sleepBuf j c => Linked s j c ∧ (s.info c.head).b = some j.b ∧
      (c.head ∈ out ↔ s.disk j.b = true)
  | .clear j c => Linked s j c
  | .chain j c i => c.list.Nodup ∧ (i = c.head ∧ Linked s j c ∨
      i = c.mid ∧ s.desc c.mid = c.desc1 j ∧ s.desc c.tail = c.desc2 ∨
      i = c.tail ∧ s.desc c.tail = c.desc2) ∧ c.head ∉ out
  | .release _ c => c.head ∉ out
  | _ => True

/-- Since `t` posted its chain, nobody posted one with the same head, the device has completed it once, or
still has it (`queued`), and `t` has freed `freed`. -/
def Sent (es : List Event) (t : Nat) (j : Job) (c : Chain) (queued : List Nat) (freed : List Nat) : Prop :=
  ∃ es1 es2, es = es1 ++ .post t j c :: es2 ∧ c.head ∉ posts es1 ∧
    (completions es1).count c.head = (if c.head ∈ queued then 0 else 1) ∧
    frees t es1 = freed.reverse

/-- **The invariant.** The device has not taken the chains `l` in the `avail` ring, `virtio_disk_intr` not
seen those `u` in the `used` ring. -/
structure Inv (es : List Event) (s : Sys) (l u : List Nat) : Prop where
  fine : ∀ t msg, s.pc t ≠ .panicked msg
  lock : ∀ t, (s.pc t).locked = true ↔ s.lock = some t
  held : ∀ t j, (s.pc t).job? = some j → s.held j.b = some t
  pool : Lib.Pool NUM s.free fun t => (s.pc t).owns
  ok : ∀ t, (s.pc t).Ok s (l ++ s.pending ++ u)
  avail : s.avail.Rep NUM IDX (fetches es).length l
  /-- The device takes the chains in the order in which they are posted. -/
  order : posts es = l.reverse ++ fetches es
  used : ∃ k, s.used.Rep NUM IDX k u
  nodup : (l ++ s.pending ++ u).Nodup
  owner : ∀ h ∈ l ++ s.pending ++ u, ∃ t j c, (s.pc t).waiting? = some (j, c) ∧ c.head = h
  status : ∀ h ∈ u, (s.info h).status = 0
  sent : ∀ t j c freed, (s.pc t).sent? = some (j, c, freed) → Sent es t j c (l ++ s.pending) freed

variable {es : List Event} {e : Event} {s s' : Sys} {l u : List Nat} {t t' i h : Nat} {pc pc' : Pc}
  {j j' : Job} {c c' : Chain} {out out' queued queued' freed : List Nat}

/-! ## Histories -/

namespace Sent

section

variable (hs : Sent es t j c queued freed)

include hs

theorem fetch (hq : c.head ∈ queued' ↔ c.head ∈ queued) : Sent (.fetch h :: es) t j c queued' freed := by
  obtain ⟨es1, es2, rfl, hp, hc, hf⟩ := hs
  exact ⟨.fetch h :: es1, es2, rfl, hp, by simp only [hq]; exact hc, hf⟩

theorem post (hne : c'.head ≠ c.head)
    (hq : c.head ∈ queued' ↔ c.head ∈ queued) : Sent (.post t' j' c' :: es) t j c queued' freed := by
  obtain ⟨es1, es2, rfl, hp, hc, hf⟩ := hs
  refine ⟨.post t' j' c' :: es1, es2, rfl, ?_, by simp only [hq]; exact hc, hf⟩
  exact fun hm => (List.mem_cons.mp hm).elim (fun e => hne e.symm) hp

theorem complete (hself : h = c.head → h ∈ queued ∧ h ∉ queued')
    (hother : h ≠ c.head → (c.head ∈ queued' ↔ c.head ∈ queued)) :
    Sent (.complete h :: es) t j c queued' freed := by
  obtain ⟨es1, es2, rfl, hp, hc, hf⟩ := hs
  refine ⟨.complete h :: es1, es2, rfl, hp, ?_, hf⟩
  show (h :: completions es1).count c.head = _
  by_cases hh : h = c.head
  · obtain ⟨hin, hout⟩ := hself hh
    subst hh
    rw [List.count_cons_self, hc, if_pos hin, if_neg hout]
  · rw [List.count_cons_of_ne hh, hc]
    simp only [hother hh]

theorem free_other (ht : t' ≠ t) : Sent (.free t' i :: es) t j c queued freed := by
  obtain ⟨es1, es2, rfl, hp, hc, hf⟩ := hs
  refine ⟨.free t' i :: es1, es2, rfl, hp, hc, ?_⟩
  rw [← hf]
  simp [frees, ht]

theorem free_self : Sent (.free t i :: es) t j c queued (freed ++ [i]) := by
  obtain ⟨es1, es2, rfl, hp, hc, hf⟩ := hs
  refine ⟨.free t i :: es1, es2, rfl, hp, hc, ?_⟩
  rw [List.reverse_append, ← hf]
  simp [frees]

end

end Sent

theorem Pc.Ok.congr (hok : pc.Ok s out) (hdesc : ∀ i ∈ pc.owns, s'.desc i = s.desc i)
    (hops : ∀ i ∈ pc.owns, s'.ops i = s.ops i)
    (hinfo : ∀ i ∈ pc.owns, (s'.info i).b = (s.info i).b)
    (hdisk : ∀ j, pc.job? = some j → s'.disk j.b = s.disk j.b)
    (hout : ∀ i ∈ pc.owns, i ∈ out' ↔ i ∈ out)
    (hlock : pc.locked = true → s'.avail.data = s.avail.data ∧ s'.avail.w = s.avail.w ∧
      ∀ i ∈ out', i ∈ out) : pc.Ok s' out' := by
  have hlink : ∀ {j c}, pc.owns = c.list → Linked s j c → Linked s' j c := fun ho hl =>
    ⟨by rw [hops _ (by simp [ho, Chain.list]), hl.req],
      by rw [hdesc _ (by simp [ho, Chain.list]), hl.head],
      by rw [hdesc _ (by simp [ho, Chain.list]), hl.mid],
      by rw [hdesc _ (by simp [ho, Chain.list]), hl.tail]⟩
  cases pc with
  | desc1 j c =>
    exact ⟨(hops _ (by simp [Pc.owns, Chain.list])).trans hok.1,
      (hdesc _ (by simp [Pc.owns, Chain.list])).trans hok.2⟩
  | desc2 j c =>
    exact ⟨(hops _ (by simp [Pc.owns, Chain.list])).trans hok.1,
      (hdesc _ (by simp [Pc.owns, Chain.list])).trans hok.2.1,
      (hdesc _ (by simp [Pc.owns, Chain.list])).trans hok.2.2⟩
  | mark j c => exact hlink rfl hok
  | ring j c =>
    exact ⟨hlink rfl hok.1, (hdisk j rfl).trans hok.2.1,
      (hinfo _ (by simp [Pc.owns, Chain.list])).trans hok.2.2⟩
  | post j c =>
    refine ⟨hlink rfl hok.1, (hdisk j rfl).trans hok.2.1,
      (hinfo _ (by simp [Pc.owns, Chain.list])).trans hok.2.2.1, ?_⟩
    rw [(hlock rfl).1, (hlock rfl).2.1]
    exact hok.2.2.2
  | wait j c | sleepBuf j c =>
    refine ⟨hlink rfl hok.1, (hinfo _ (by simp [Pc.owns, Chain.list])).trans hok.2.1, ?_⟩
    rw [hout _ (by simp [Pc.owns, Chain.list]), hdisk j rfl]
    exact hok.2.2
  | clear j c => exact hlink rfl hok
  | chain j c i =>
    obtain ⟨hnd, hcases, hnot⟩ := hok
    refine ⟨hnd, ?_, fun hm => hnot ((hlock rfl).2.2 _ hm)⟩
    simp only [Chain.list, List.nodup_cons, List.mem_cons, List.not_mem_nil, or_false, not_or] at hnd
    obtain ⟨⟨hhm, hht⟩, hmt, -⟩ := hnd
    simp only [Pc.owns, Chain.list] at hdesc
    rcases hcases with ⟨rfl, hl⟩ | ⟨rfl, hm, ht⟩ | ⟨rfl, ht⟩
    · refine .inl ⟨rfl, hlink ?_ hl⟩
      simp [Pc.owns, Chain.list]
    · refine .inr (.inl ⟨rfl, ?_, ?_⟩)
      · rw [hdesc _ (by simp [List.dropWhile, hhm]), hm]
      · rw [hdesc _ (by simp [List.dropWhile, hhm]), ht]
    · refine .inr (.inr ⟨rfl, ?_⟩)
      rw [hdesc _ (by simp [List.dropWhile, hht, hmt]), ht]
  | release j c => exact fun hm => hok ((hlock rfl).2.2 _ hm)
  | alloc j idx => exact hok
  | _ => trivial

theorem Pc.owns_of_waiting (hw : pc.waiting? = some (j, c)) :
    pc.owns = c.list ∧ pc.job? = some j := by
  cases pc <;> simp only [Pc.waiting?, reduceCtorEq, Option.some.injEq, Prod.mk.injEq] at hw <;>
    obtain ⟨rfl, rfl⟩ := hw <;> exact ⟨rfl, rfl⟩

theorem Pc.ok_iff_of_waiting (hw : pc.waiting? = some (j, c)) : pc.Ok s out ↔
    Linked s j c ∧ (s.info c.head).b = some j.b ∧ (c.head ∈ out ↔ s.disk j.b = true) := by
  cases pc <;> simp only [Pc.waiting?, reduceCtorEq, Option.some.injEq, Prod.mk.injEq] at hw <;>
    obtain ⟨rfl, rfl⟩ := hw <;> exact Iff.rfl

theorem Chain.head_mem (c : Chain) : c.head ∈ c.list := List.mem_cons_self

theorem Chain.mid_mem (c : Chain) : c.mid ∈ c.list := by simp [Chain.list]

theorem Chain.tail_mem (c : Chain) : c.tail ∈ c.list := by simp [Chain.list]

theorem Chain.ne_of_nodup (h : c.list.Nodup) : c.head ≠ c.mid ∧ c.head ≠ c.tail ∧ c.mid ≠ c.tail := by
  simp only [Chain.list, List.nodup_cons, List.mem_cons, List.not_mem_nil, or_false, not_or] at h
  exact ⟨h.1.1, h.1.2, h.2.1⟩

/-! The descriptors that `free_chain` has freed, and those it has still to free. -/

theorem Chain.takeWhile_head (c : Chain) : c.list.takeWhile (· ≠ c.head) = [] := by
  simp [Chain.list]

theorem Chain.takeWhile_mid (h : c.list.Nodup) : c.list.takeWhile (· ≠ c.mid) = [c.head] := by
  simp [Chain.list, List.takeWhile, (Chain.ne_of_nodup h).1]

theorem Chain.takeWhile_tail (h : c.list.Nodup) : c.list.takeWhile (· ≠ c.tail) = [c.head, c.mid] := by
  simp [Chain.list, List.takeWhile, (Chain.ne_of_nodup h).2]

theorem Chain.dropWhile_head (c : Chain) : c.list.dropWhile (· ≠ c.head) = c.list := by
  simp [Chain.list]

theorem Chain.dropWhile_mid (h : c.list.Nodup) : c.list.dropWhile (· ≠ c.mid) = [c.mid, c.tail] := by
  simp [Chain.list, List.dropWhile, (Chain.ne_of_nodup h).1]

theorem Chain.dropWhile_tail (h : c.list.Nodup) : c.list.dropWhile (· ≠ c.tail) = [c.tail] := by
  simp [Chain.list, List.dropWhile, (Chain.ne_of_nodup h).2]

theorem Inv.waiting_of_owns (I : Inv es s l u) (hi : i ∈ (s.pc t).owns)
    (hout : i ∈ l ++ s.pending ++ u) : ∃ j c, (s.pc t).waiting? = some (j, c) ∧ c.head = i := by
  obtain ⟨t', j, c, hw, rfl⟩ := I.owner i hout
  have hm : c.head ∈ (s.pc t').owns := by
    rw [(Pc.owns_of_waiting hw).1]
    exact c.head_mem
  obtain rfl := I.pool.disjoint t t' _ hi hm
  exact ⟨j, c, hw, rfl⟩

theorem Inv.not_out (I : Inv es s l u) (hi : i ∈ (s.pc t).owns) (hw : (s.pc t).waiting? = none) :
    i ∉ l ++ s.pending ++ u := fun hout => by
  obtain ⟨j, c, hw', -⟩ := I.waiting_of_owns hi hout
  rw [hw] at hw'
  cases hw'

theorem Inv.out_lt (I : Inv es s l u) (hh : h ∈ l ++ s.pending ++ u) : h < NUM := by
  obtain ⟨t, j, c, hw, rfl⟩ := I.owner h hh
  refine (I.pool.taken t c.head ?_).1
  show c.head ∈ (s.pc t).owns
  rw [(Pc.owns_of_waiting hw).1]
  exact c.head_mem

theorem length_le_num {xs : List Nat} (hnd : xs.Nodup) (hlt : ∀ x ∈ xs, x < NUM) :
    xs.length ≤ NUM := by
  have hsub : xs ⊆ List.range NUM := fun x hx => List.mem_range.mpr (hlt x hx)
  simpa using (List.Nodup.subperm hnd hsub).length_le

theorem Inv.length_lt (I : Inv es s l u) (hi : i ∈ (s.pc t).owns) (hw : (s.pc t).waiting? = none) :
    l.length < NUM := by
  have hnd : (i :: (l ++ s.pending ++ u)).Nodup := List.nodup_cons.mpr ⟨I.not_out hi hw, I.nodup⟩
  have hle := length_le_num hnd fun x hx => by
    rcases List.mem_cons.mp hx with rfl | hx
    · exact (I.pool.taken t x hi).1
    · exact I.out_lt hx
  simp only [List.length_cons, List.length_append] at hle
  omega

theorem Inv.not_locked (I : Inv es s l u) (hl : (s.pc t).locked = true) (ht : t' ≠ t) :
    (s.pc t').locked = false := by
  cases hl' : (s.pc t').locked with
  | false => rfl
  | true => exact absurd (Option.some.inj (((I.lock t').mp hl').symm.trans ((I.lock t).mp hl))) ht

theorem num_dvd : NUM ∣ IDX := by decide

/-! ## Steps of a thread -/

/-- A step of thread `t` that moves no counter: it changes its own descriptors, `info`, buffer flag and
program point. -/
structure Moves (s s' : Sys) (t : Nat) (pc' : Pc) : Prop where
  pc : s'.pc = update s.pc t pc'
  avail : s'.avail = s.avail ∨ ((s.pc t).locked = true ∧ (s.pc t).waiting? = none ∧
    (∃ i, i ∈ (s.pc t).owns) ∧ ∃ x, s'.avail = s.avail.store NUM x)
  used : s'.used = s.used
  pending : s'.pending = s.pending
  desc : ∀ i ∉ (s.pc t).owns, s'.desc i = s.desc i
  ops : ∀ i ∉ (s.pc t).owns, s'.ops i = s.ops i
  info : ∀ i, (i ∉ (s.pc t).owns ∨ (s.pc t).waiting? ≠ none) → s'.info i = s.info i
  disk : ∀ b, s.held b ≠ some t → s'.disk b = s.disk b
  held : ∀ b t', s.held b = some t' → t' ≠ t → s'.held b = some t'
  lock : ∀ t', t' ≠ t → (s'.lock = some t' ↔ s.lock = some t')

namespace Moves

theorem pc_self (m : Moves s s' t pc') : s'.pc t = pc' := by rw [m.pc, update_self]

theorem pc_other (m : Moves s s' t pc') (ht : t' ≠ t) : s'.pc t' = s.pc t' := by
  rw [m.pc, update_of_ne ht]

theorem owns (m : Moves s s' t pc') :
    (fun t' => (s'.pc t').owns) = update (fun t' => (s.pc t').owns) t pc'.owns := by
  funext t'
  by_cases ht : t' = t
  · subst ht; rw [m.pc_self, update_self]
  · rw [m.pc_other ht, update_of_ne ht]

theorem inv (m : Moves s s' t pc') (I : Inv es s l u) {ev : Option Event}
    (hev : ev = none ∨ ∃ i, ev = some (.free t i)) (hfine : ∀ msg, pc' ≠ .panicked msg)
    (hlock : pc'.locked = true ↔ s'.lock = some t)
    (hjob : ∀ j, pc'.job? = some j → s'.held j.b = some t)
    (hpool : Lib.Pool NUM s'.free (update (fun t' => (s.pc t').owns) t pc'.owns))
    (hok : pc'.Ok s' (l ++ s.pending ++ u))
    (hwait : ∀ j c, (s.pc t).waiting? = some (j, c) → pc'.waiting? = some (j, c) ∨
      c.head ∉ l ++ s.pending ++ u)
    (hsent : ∀ j c freed, pc'.sent? = some (j, c, freed) →
      Sent (ev.toList ++ es) t j c (l ++ s.pending) freed) : Inv (ev.toList ++ es) s' l u := by
  have hfetch : fetches (ev.toList ++ es) = fetches es := by
    rcases hev with rfl | ⟨i, rfl⟩ <;> rfl
  have hposts : posts (ev.toList ++ es) = posts es := by
    rcases hev with rfl | ⟨i, rfl⟩ <;> rfl
  refine ⟨fun t' => ?_, fun t' => ?_, fun t' j hj => ?_, m.owns ▸ hpool, fun t' => ?_, ?_, ?_, ?_, ?_,
    fun h hh => ?_, fun h hh => ?_, fun t' j c freed hs => ?_⟩
  · by_cases ht : t' = t
    · subst ht; rw [m.pc_self]; exact hfine
    · rw [m.pc_other ht]; exact I.fine t'
  · by_cases ht : t' = t
    · subst ht; rw [m.pc_self]; exact hlock
    · rw [m.pc_other ht, I.lock, m.lock t' ht]
  · by_cases ht : t' = t
    · subst ht; rw [m.pc_self] at hj; exact hjob j hj
    · rw [m.pc_other ht] at hj; exact m.held _ _ (I.held t' j hj) ht
  · rw [m.pending]
    by_cases ht : t' = t
    · subst ht; rw [m.pc_self]; exact hok
    · rw [m.pc_other ht]
      -- what the other thread knows is about what it owns
      have hown : ∀ i ∈ (s.pc t').owns, i ∉ (s.pc t).owns := fun i hi hi' =>
        ht (I.pool.disjoint t' t i hi hi')
      refine (I.ok t').congr (fun i hi => m.desc i (hown i hi))
        (fun i hi => m.ops i (hown i hi))
        (fun i hi => by rw [m.info i (.inl (hown i hi))]) (fun j hj => m.disk _ fun h => ?_)
        (fun i _ => Iff.rfl) (fun hl => ?_)
      · rw [I.held t' j hj] at h
        exact ht (Option.some.inj h)
      · rcases m.avail with e | ⟨hl', -⟩
        · exact ⟨by rw [e], by rw [e], fun _ => id⟩
        · rw [I.not_locked hl' ht] at hl
          cases hl
  · rw [hfetch]
    rcases m.avail with e | ⟨-, hw, ⟨i, hi⟩, x, e⟩
    · rw [e]; exact I.avail
    · rw [e]; exact I.avail.store num_dvd (I.length_lt hi hw)
  · rw [hposts, hfetch]; exact I.order
  · rw [m.used]; exact I.used
  · rw [m.pending]; exact I.nodup
  · rw [m.pending] at hh
    obtain ⟨t', j, c, hw, rfl⟩ := I.owner h hh
    by_cases ht : t' = t
    · subst ht
      rcases hwait j c hw with hw' | hout
      · exact ⟨t', j, c, by rw [m.pc_self, hw'], rfl⟩
      · exact absurd hh hout
    · exact ⟨t', j, c, by rw [m.pc_other ht, hw], rfl⟩
  · rw [m.info h ?_]
    · exact I.status h hh
    · by_cases hw : (s.pc t).waiting? = none
      · refine .inl fun ho => I.not_out ho hw (List.mem_append_right _ hh)
      · exact .inr hw
  · rw [m.pending]
    by_cases ht : t' = t
    · subst ht; rw [m.pc_self] at hs; exact hsent j c freed hs
    · rw [m.pc_other ht] at hs
      have hs' := I.sent t' j c freed hs
      rcases hev with rfl | ⟨i, rfl⟩
      · exact hs'
      · exact hs'.free_other (Ne.symm ht)

end Moves

end Xv6Freezer.Virtio
