import Xv6Freezer.Virtio.Inv

/-! # Steps of the virtio driver and the device

Every statement of `virtio_disk_rw` and `virtio_disk_intr`, and every step of the device, keeps the
invariant. -/

namespace Xv6Freezer.Virtio

open Function

variable {es : List Event} {s s' : Sys} {l u : List Nat} {t t' i h : Nat} {pc pc' : Pc} {j : Job}
  {c : Chain} {idx : List Nat}

/-! ## Locks, sleeping and waking -/

theorem Inv.pool_same (I : Inv es s l u) (ho : pc'.owns = (s.pc t).owns) :
    Lib.Pool NUM s.free (update (fun t' => (s.pc t').owns) t pc'.owns) := by
  rw [ho, update_eq_self]
  exact I.pool

theorem acquire_inv (I : Inv es s l u) (hpc : s.pc t = pc) (hs : s.acquire t pc' = some s')
    (hl : pc'.locked = true) (ho : pc'.owns = pc.owns) (hj : pc'.job? = pc.job?)
    (hw : pc'.waiting? = pc.waiting?) (hsent : pc'.sent? = pc.sent?)
    (hfine : ∀ msg, pc' ≠ .panicked msg) (hok : ∀ s', s'.desc = s.desc → s'.ops = s.ops → s'.info = s.info →
      s'.disk = s.disk → pc'.Ok s' (l ++ s.pending ++ u)) : Inv es s' l u := by
  subst hpc
  unfold Sys.acquire at hs
  split at hs
  case isFalse => cases hs
  rename_i hfree
  cases hs
  have m : Moves s ({ s with lock := some t }.goto t pc') t pc' :=
    ⟨rfl, .inl rfl, rfl, rfl, fun _ _ => rfl, fun _ _ => rfl, fun _ _ => rfl, fun _ _ => rfl, fun _ _ h _ => h,
      fun t' ht => ⟨fun h => absurd (Option.some.inj h).symm ht, fun h => by rw [hfree] at h; cases h⟩⟩
  refine m.inv I (.inl rfl) hfine ⟨fun _ => rfl, fun _ => hl⟩ (fun j h => I.held t j (hj ▸ h))
    (I.pool_same ho) (hok _ rfl rfl rfl rfl) (fun j c h => .inl (hw ▸ h)) fun j c freed h =>
      I.sent t j c freed (hsent ▸ h)

theorem Moves.goto (s : Sys) (t : Nat) (pc' : Pc) : Moves s (s.goto t pc') t pc' :=
  ⟨rfl, .inl rfl, rfl, rfl, fun _ _ => rfl, fun _ _ => rfl, fun _ _ => rfl, fun _ _ => rfl, fun _ _ h _ => h,
    fun _ _ => Iff.rfl⟩

theorem locked_inv (I : Inv es s l u) (hpc : s.pc t = pc) (pc' : Pc) (m : Moves s s' t pc')
    (hl : pc.locked = true) (hl' : pc'.locked = true) (hlock : s'.lock = s.lock) (hfree : s'.free = s.free)
    (hheld : s'.held = s.held) (ho : pc'.owns = pc.owns) (hj : ∀ j, pc'.job? = some j → pc.job? = some j)
    (hw : ∀ j c, pc.waiting? = some (j, c) → c.head ∉ l ++ s.pending ++ u)
    (hsent : ∀ x, pc'.sent? = some x → pc.sent? = some x) (hfine : ∀ msg, pc' ≠ .panicked msg)
    (hok : pc'.Ok s' (l ++ s.pending ++ u)) : Inv es s' l u := by
  subst hpc
  exact m.inv I (.inl rfl) hfine ⟨fun _ => hlock ▸ (I.lock t).mp hl, fun _ => hl'⟩
    (fun j h => hheld ▸ I.held t j (hj j h)) (hfree ▸ I.pool_same ho) hok
    (fun j c h => .inr (hw j c h)) fun j c freed h => I.sent t j c freed (hsent _ h)

/-- A store to the descriptors that the thread owns, to their requests and their `info`, or to its buffer. -/
theorem store_inv (I : Inv es s l u) (hpc : s.pc t = pc) (pc' : Pc) {c : Chain} {d : Nat → Desc}
    {o : Nat → BlkReq} {f : Nat → Info} {k : Nat → Bool} (hl : pc.locked = true) (hl' : pc'.locked = true)
    (hw : pc.waiting? = none) (hown : pc.owns = c.list) (hown' : pc'.owns = c.list)
    (hj : ∀ j, pc'.job? = some j → pc.job? = some j) (hsent : ∀ x, pc'.sent? = some x → pc.sent? = some x)
    (hfine : ∀ msg, pc' ≠ .panicked msg) (hd : ∀ i ∉ c.list, d i = s.desc i) (ho : ∀ i ∉ c.list, o i = s.ops i)
    (hf : ∀ i ∉ c.list, f i = s.info i) (hk : ∀ b, s.held b ≠ some t → k b = s.disk b)
    (hok : pc'.Ok ({ s with desc := d, ops := o, info := f, disk := k }.goto t pc') (l ++ s.pending ++ u)) :
    Inv es ({ s with desc := d, ops := o, info := f, disk := k }.goto t pc') l u := by
  have hout : ∀ i, i ∉ (s.pc t).owns → i ∉ c.list := fun i hi => by rwa [hpc, hown] at hi
  have hwait : (s.pc t).waiting? = none := by rw [hpc, hw]
  refine locked_inv I hpc pc' ⟨rfl, .inl rfl, rfl, rfl, fun i hi => hd i (hout i hi), fun i hi => ho i (hout i hi),
    fun i hi => hf i (hout i (hi.resolve_right fun h => h hwait)), hk, fun _ _ h _ => h, fun _ _ => Iff.rfl⟩
    hl hl' rfl rfl rfl (hown'.trans hown.symm) hj (fun _ _ h => ?_) hsent hfine hok
  rw [hw] at h
  cases h

theorem Chain.update_of_notMem {α : Type} {c : Chain} {x : Nat} (h : x ∈ c.list) (g : Nat → α) (v : α) :
    ∀ i ∉ c.list, update g x v i = g i := fun i hi => update_of_ne (fun e : i = x => hi (e ▸ h)) _ _

theorem unlock_inv (I : Inv es s l u) (hpc : s.pc t = pc) (pc' : Pc) (hl : pc.locked = true)
    (hl' : pc'.locked = false) (ho : pc'.owns = pc.owns) {held : Nat → Option Nat}
    (hheld : ∀ b t', s.held b = some t' → t' ≠ t → held b = some t')
    (hj : ∀ j, pc'.job? = some j → held j.b = some t) (hw : pc'.waiting? = pc.waiting?)
    (hsent : ∀ x, pc'.sent? = some x → pc.sent? = some x) (hfine : ∀ msg, pc' ≠ .panicked msg)
    (hok : pc'.Ok ({ s with lock := none, held := held }.goto t pc') (l ++ s.pending ++ u)) :
    Inv es ({ s with lock := none, held := held }.goto t pc') l u := by
  subst hpc
  have m : Moves s ({ s with lock := none, held := held }.goto t pc') t pc' := by
    refine ⟨rfl, .inl rfl, rfl, rfl, fun _ _ => rfl, fun _ _ => rfl, fun _ _ => rfl, fun _ _ => rfl, hheld,
      fun t' ht => ⟨fun h => (by cases h), fun h => ?_⟩⟩
    rw [← I.lock, I.not_locked hl ht] at h
    cases h
  exact m.inv I (.inl rfl) hfine ⟨fun h => (by rw [hl'] at h; cases h), fun h => (by cases h)⟩ hj
    (I.pool_same ho) hok (fun j c h => .inl (hw ▸ h)) fun j c freed h => I.sent t j c freed (hsent _ h)

/-! ## Descriptors -/

theorem allocDesc_spec (h : s.allocDesc = some i) : i < NUM ∧ s.free i = true :=
  ⟨List.mem_range.mp (List.mem_of_find?_eq_some h), List.find?_some h⟩

theorem alloc_inv (I : Inv es s l u) (hpc : s.pc t = .alloc j idx) (hi : s.allocDesc = some i)
    (hl : pc'.locked = true) (ho : pc'.owns = idx ++ [i]) (hj : pc'.job? = some j)
    (hsent : pc'.sent? = none) (hfine : ∀ msg, pc' ≠ .panicked msg)
    (hok : pc'.Ok ({ s with free := update s.free i false }.goto t pc') (l ++ s.pending ++ u)) :
    Inv es ({ s with free := update s.free i false }.goto t pc') l u := by
  obtain ⟨hlt, hfree⟩ := allocDesc_spec hi
  have m : Moves s ({ s with free := update s.free i false }.goto t pc') t pc' :=
    ⟨rfl, .inl rfl, rfl, rfl, fun _ _ => rfl, fun _ _ => rfl, fun _ _ => rfl, fun _ _ => rfl, fun _ _ h _ => h,
      fun _ _ => Iff.rfl⟩
  have hown : (s.pc t).owns = idx := by rw [hpc]; rfl
  refine m.inv I (.inl rfl) hfine ⟨fun _ => (I.lock t).mp (by rw [hpc]; rfl), fun _ => hl⟩
    (fun j' h => ?_) ?_ hok (fun j c h => by rw [hpc] at h; cases h) (fun j c freed h => ?_)
  · rw [hj] at h
    cases h
    exact I.held t j (by rw [hpc]; rfl)
  · rw [ho, ← hown]
    exact I.pool.take hlt hfree
  · rw [hsent] at h
    cases h

theorem freeDesc_ok (I : Inv es s l u) (hi : i ∈ (s.pc t).owns) :
    s.freeDesc i = .ok { s with desc := update s.desc i { addr := .null, len := 0, flags := 0, next := 0 }
                                free := update s.free i true } := by
  obtain ⟨hlt, hf⟩ := I.pool.taken t i hi
  rw [Sys.freeDesc, if_neg (by omega), if_neg (by simp [hf])]

theorem freeDesc_inv {rest : List Nat} (pc' : Pc) (I : Inv es s l u) (hl : (s.pc t).locked = true)
    (hown : (s.pc t).owns = i :: rest) (hw : (s.pc t).waiting? = none) (hl' : pc'.locked = true)
    (ho : pc'.owns = rest) (hj : pc'.job? = (s.pc t).job?)
    (hsent : ∀ j c freed, pc'.sent? = some (j, c, freed) → ∃ freed', freed = freed' ++ [i] ∧
      (s.pc t).sent? = some (j, c, freed')) (hfine : ∀ msg, pc' ≠ .panicked msg)
    (hs : s.freeDesc i = .ok s')
    (hok : pc'.Ok (s'.goto t pc') (l ++ s.pending ++ u)) :
    Inv (.free t i :: es) (s'.goto t pc') l u := by
  have hi : i ∈ (s.pc t).owns := by rw [hown]; exact .head _
  rw [freeDesc_ok I hi] at hs
  obtain rfl := Except.ok.inj hs
  have m : Moves s (Sys.goto { s with
      desc := update s.desc i { addr := .null, len := 0, flags := 0, next := 0 }
      free := update s.free i true } t pc') t pc' :=
    ⟨rfl, .inl rfl, rfl, rfl, fun k hk => update_of_ne (fun e : k = i => hk (e ▸ hi)) _ _,
      fun _ _ => rfl,      fun _ _ => rfl, fun _ _ => rfl, fun _ _ h _ => h, fun _ _ => Iff.rfl⟩
  refine m.inv I (.inr ⟨i, rfl⟩) hfine ⟨fun _ => (I.lock t).mp hl, fun _ => hl'⟩
    (fun j h => I.held t j (hj ▸ h)) ?_ hok (fun j c h => by rw [hw] at h; cases h)
    (fun j c freed h => ?_)
  · rw [ho]
    exact I.pool.give hown
  · obtain ⟨freed', rfl, h'⟩ := hsent j c freed h
    exact (I.sent t j c freed' h').free_self

theorem chain_inv (I : Inv es s l u) (hpc : s.pc t = .chain j c i)
    (hs : (match s.freeDesc i with
      | .error msg => some (s.goto t (.panicked msg))
      | .ok s' => if (s.desc i).flags &&& VRING_DESC_F_NEXT ≠ 0 then
          some (s'.goto t (.chain j c (s.desc i).next)) else some (s'.goto t (.release j c))) = some s') :
    Inv (.free t i :: es) s' l u := by
  have hok := I.ok t
  rw [hpc] at hok
  obtain ⟨hnd, hcases, hnot⟩ := hok
  obtain ⟨h01, h02, h12⟩ := Chain.ne_of_nodup hnd
  have hl : (s.pc t).locked = true := by rw [hpc]; rfl
  have hw : (s.pc t).waiting? = none := by rw [hpc]; rfl
  have hown : (s.pc t).owns = c.list.dropWhile (· ≠ i) := by rw [hpc]; rfl
  have hsent : (s.pc t).sent? = some (j, c, c.list.takeWhile (· ≠ i)) := by rw [hpc]; rfl
  rcases hcases with ⟨rfl, hlink⟩ | ⟨rfl, hm, htl⟩ | ⟨rfl, htl⟩
  · -- the first descriptor, with a link to the second
    rw [c.dropWhile_head] at hown
    rw [c.takeWhile_head] at hsent
    have hfree := freeDesc_ok I (t := t) (i := c.head) (by rw [hown]; exact c.head_mem)
    have hflag : c.desc0.flags &&& VRING_DESC_F_NEXT ≠ 0 := by
      simp [Chain.desc0, VRING_DESC_F_NEXT]
    rw [hfree, hlink.head] at hs
    simp only [if_pos hflag] at hs
    cases hs
    refine freeDesc_inv (.chain j c c.mid) I hl hown hw rfl (Chain.dropWhile_mid hnd)
      (by rw [hpc]; rfl) (fun j' c' freed h => ?_) nofun hfree ⟨hnd, .inr (.inl ⟨rfl, ?_, ?_⟩), hnot⟩
    · simp only [Pc.sent?, Chain.takeWhile_mid hnd, Option.some.injEq, Prod.mk.injEq] at h
      exact ⟨[], h.2.2.symm, by rw [hsent, h.1, h.2.1]⟩
    · exact (update_of_ne h01.symm _ _).trans hlink.mid
    · exact (update_of_ne h02.symm _ _).trans hlink.tail
  · -- the second, with a link to the third
    rw [Chain.dropWhile_mid hnd] at hown
    rw [Chain.takeWhile_mid hnd] at hsent
    have hfree := freeDesc_ok I (t := t) (i := c.mid) (by rw [hown]; exact .head _)
    have hflag : (c.desc1 j).flags &&& VRING_DESC_F_NEXT ≠ 0 := by
      cases hj : j.write <;> simp [Chain.desc1, hj, VRING_DESC_F_NEXT, VRING_DESC_F_WRITE]
    rw [hfree, hm] at hs
    simp only [if_pos hflag] at hs
    cases hs
    refine freeDesc_inv (.chain j c c.tail) I hl hown hw rfl (Chain.dropWhile_tail hnd)
      (by rw [hpc]; rfl) (fun j' c' freed h => ?_) nofun hfree ⟨hnd, .inr (.inr ⟨rfl, ?_⟩), hnot⟩
    · simp only [Pc.sent?, Chain.takeWhile_tail hnd, Option.some.injEq, Prod.mk.injEq] at h
      exact ⟨[c.head], h.2.2.symm, by rw [hsent, h.1, h.2.1]⟩
    · exact (update_of_ne h12.symm _ _).trans htl
  · -- the third, which is the last
    rw [Chain.dropWhile_tail hnd] at hown
    rw [Chain.takeWhile_tail hnd] at hsent
    have hfree := freeDesc_ok I (t := t) (i := c.tail) (by rw [hown]; exact .head _)
    have hflag : ¬ (c.desc2.flags &&& VRING_DESC_F_NEXT ≠ 0) := by
      simp [Chain.desc2, VRING_DESC_F_NEXT, VRING_DESC_F_WRITE]
    rw [hfree, htl] at hs
    simp only [if_neg hflag] at hs
    cases hs
    refine freeDesc_inv (.release j c) I hl hown hw rfl rfl (by rw [hpc]; rfl)
      (fun j' c' freed h => ?_) nofun hfree hnot
    simp only [Pc.sent?, Option.some.injEq, Prod.mk.injEq] at h
    exact ⟨[c.head, c.mid], h.2.2.symm, by rw [hsent, h.1, h.2.1]⟩

/-! ## The rings -/

theorem Pc.waiting_of_sent {pc : Pc} {freed : List Nat} (hl : pc.locked = false)
    (hs : pc.sent? = some (j, c, freed)) : c.head ∈ pc.owns := by
  cases pc <;> simp only [Pc.locked, Bool.true_eq_false] at hl <;>
    simp only [Pc.sent?, reduceCtorEq, Option.some.injEq, Prod.mk.injEq] at hs
  rw [← hs.2.1]
  exact .head _

section

variable (I : Inv es s l u)

include I

theorem post_inv (hpc : s.pc t = .post j c) :
    Inv (.post t j c :: es) (Sys.goto { s with avail := s.avail.bump IDX } t (.wait j c))
      (l ++ [c.head]) u := by
  have hl : (s.pc t).locked = true := by rw [hpc]; rfl
  have hw : (s.pc t).waiting? = none := by rw [hpc]; rfl
  have hown : c.head ∈ (s.pc t).owns := by rw [hpc]; exact c.head_mem
  have hok := I.ok t
  rw [hpc] at hok
  obtain ⟨hlink, hdisk, hinfo, hring⟩ := hok
  have hroom := I.length_lt hown hw
  have hnot := I.not_out hown hw
  have hself : (Sys.goto { s with avail := s.avail.bump IDX } t (.wait j c)).pc t = .wait j c :=
    update_self ..
  have hother : ∀ t', t' ≠ t →
      (Sys.goto { s with avail := s.avail.bump IDX } t (.wait j c)).pc t' = s.pc t' := fun t' ht =>
    update_of_ne ht _ _
  have hmem : ∀ x, x ∈ l ++ [c.head] ++ s.pending ++ u ↔ x = c.head ∨ x ∈ l ++ s.pending ++ u := by
    intro x
    simp only [List.mem_append, List.mem_singleton]
    tauto
  have howns : (fun t' => ((Sys.goto { s with avail := s.avail.bump IDX } t (.wait j c)).pc t').owns) =
      fun t' => (s.pc t').owns := by
    funext t'
    by_cases ht : t' = t
    · subst ht; rw [hself, hpc]; rfl
    · rw [hother t' ht]
  refine ⟨fun t' => ?_, fun t' => ?_, fun t' j' hj' => ?_, howns ▸ I.pool, fun t' => ?_,
    I.avail.bump num_dvd hroom hring, ?_, I.used, ?_, fun h hh => ?_, I.status, fun t' j' c' freed hs => ?_⟩
  · by_cases ht : t' = t
    · subst ht; rw [hself]; nofun
    · rw [hother t' ht]; exact I.fine t'
  · by_cases ht : t' = t
    · subst ht
      rw [hself]
      exact ⟨fun _ => (I.lock t').mp hl, fun _ => rfl⟩
    · rw [hother t' ht]; exact I.lock t'
  · by_cases ht : t' = t
    · subst ht
      rw [hself] at hj'
      exact I.held t' j' (by rw [hpc]; exact hj')
    · rw [hother t' ht] at hj'; exact I.held t' j' hj'
  · by_cases ht : t' = t
    · subst ht
      rw [hself]
      exact ⟨⟨hlink.req, hlink.head, hlink.mid, hlink.tail⟩, hinfo, fun _ => hdisk, fun _ => (hmem _).mpr (.inl rfl)⟩
    · rw [hother t' ht]
      refine (I.ok t').congr (fun _ _ => rfl) (fun _ _ => rfl) (fun _ _ => rfl) (fun _ _ => rfl) (fun i hi => ?_)
        (fun hl' => ?_)
      · rw [show (Sys.goto { s with avail := s.avail.bump IDX } t (.wait j c)).pending = s.pending
          from rfl, hmem]
        exact or_iff_right fun e => ht (I.pool.disjoint t' t i hi (e ▸ hown))
      · rw [I.not_locked hl ht] at hl'
        cases hl'
  · show c.head :: posts es = _
    rw [I.order, List.reverse_append]
    rfl
  · show (l ++ [c.head] ++ s.pending ++ u).Nodup
    have hperm : (l ++ [c.head] ++ s.pending ++ u).Perm (c.head :: (l ++ s.pending ++ u)) := by
      simp only [List.append_assoc, List.singleton_append]
      exact List.perm_middle
    exact hperm.nodup_iff.mpr (List.nodup_cons.mpr ⟨hnot, I.nodup⟩)
  · rcases (hmem h).mp hh with rfl | hh
    · exact ⟨t, j, c, by rw [hself]; rfl, rfl⟩
    · obtain ⟨t', j', c', hw', rfl⟩ := I.owner h hh
      have ht : t' ≠ t := fun e => by rw [e, hw] at hw'; cases hw'
      exact ⟨t', j', c', by rw [hother t' ht, hw'], rfl⟩
  · by_cases ht : t' = t
    · subst ht
      rw [hself] at hs
      simp only [Pc.sent?, Option.some.injEq, Prod.mk.injEq] at hs
      obtain ⟨rfl, rfl, rfl⟩ := hs
      refine ⟨[], es, rfl, List.not_mem_nil, ?_, rfl⟩
      rw [if_pos (by simp)]
      rfl
    · rw [hother t' ht] at hs
      -- the others sleep, with chains of their own
      have hc' := Pc.waiting_of_sent (I.not_locked hl ht) hs
      have hne : c.head ≠ c'.head := fun e => ht (I.pool.disjoint t' t _ hc' (e ▸ hown))
      refine (I.sent t' j' c' freed hs).post hne ?_
      simp only [Sys.goto, List.mem_append, List.mem_singleton]
      have := hne.symm
      tauto

theorem Inv.ok_device (s' : Sys) (hdesc : s'.desc = s.desc) (hops : s'.ops = s.ops)
    (hinfo : ∀ i, (s'.info i).b = (s.info i).b) (hdisk : s'.disk = s.disk)
    (hdata : s'.avail.data = s.avail.data) (hw : s'.avail.w = s.avail.w) {out' : List Nat}
    (hmem : ∀ x, x ∈ out' ↔ x ∈ l ++ s.pending ++ u) (t : Nat) : (s.pc t).Ok s' out' :=
  (I.ok t).congr (fun _ _ => by rw [hdesc]) (fun _ _ => by rw [hops]) (fun i _ => hinfo i) (fun _ _ => by rw [hdisk])
    (fun i _ => hmem i) fun _ => ⟨hdata, hw, fun i hi => (hmem i).mp hi⟩

theorem fetch_inv (hne : s.avail.r ≠ s.avail.w) :
    ∃ l', Inv (.fetch (s.avail.data (s.avail.r % NUM)) :: es)
      { s with pending := s.pending ++ [s.avail.data (s.avail.r % NUM)]
               avail := s.avail.take IDX } l' u := by
  cases l with
  | nil => exact absurd ((I.avail.empty_iff (by decide)).mpr rfl) hne
  | cons x l =>
    rw [I.avail.head num_dvd]
    have hperm : (l ++ (s.pending ++ [x]) ++ u).Perm (x :: l ++ s.pending ++ u) := by
      rw [← List.append_assoc l]
      exact (List.perm_append_singleton x (l ++ s.pending)).append_right u
    refine ⟨l, I.fine, I.lock, I.held, I.pool,
      I.ok_device { s with pending := s.pending ++ [x], avail := s.avail.take IDX } rfl rfl (fun _ => rfl)
        rfl rfl rfl (fun x => hperm.mem_iff), I.avail.take, ?_, I.used,
      hperm.nodup_iff.mpr I.nodup, fun h hh => I.owner h (hperm.mem_iff.mp hh), I.status,
      fun t j c freed hs => (I.sent t j c freed hs).fetch ?_⟩
    · show posts es = _
      rw [I.order, List.reverse_cons, List.append_assoc]
      rfl
    · simp only [List.mem_append, List.mem_cons, List.not_mem_nil, or_false]
      tauto

theorem complete_inv (hh : h ∈ s.pending) : Inv (.complete h :: es) (s.complete h) l (u ++ [h]) := by
  have hout : h ∈ l ++ s.pending ++ u := by simp [hh]
  obtain ⟨t, j, c, hw, rfl⟩ := I.owner h hout
  obtain ⟨hlink, -, -⟩ := (Pc.ok_iff_of_waiting hw).mp (I.ok t)
  -- the chain leads to the status of the request
  have hinfo : (s.complete c.head).info =
      update s.info c.head { s.info c.head with status := 0 } := by
    simp only [Sys.complete, hlink.head, Chain.desc0, hlink.mid, Chain.desc1, hlink.tail, Chain.desc2]
  have hb : ∀ i, ((s.complete c.head).info i).b = (s.info i).b := fun i => by
    rw [hinfo]
    by_cases hi : i = c.head
    · rw [hi, update_self]
    · rw [update_of_ne hi]
  have hperm : (l ++ s.pending.erase c.head ++ (u ++ [c.head])).Perm (l ++ s.pending ++ u) := by
    have h1 : (s.pending.erase c.head ++ (u ++ [c.head])).Perm (s.pending ++ u) := by
      rw [← List.append_assoc]
      refine List.perm_append_comm.trans ?_
      exact ((List.perm_cons_erase hh).symm.append_right u)
    simpa only [List.append_assoc] using h1.append_left l
  have hnd := I.nodup
  rw [List.nodup_append, List.nodup_append] at hnd
  obtain ⟨⟨hndl, hndp, hlp⟩, -, hdisj⟩ := hnd
  have hroom : u.length < NUM := by
    have hle := length_le_num I.nodup fun x => I.out_lt
    have := List.length_pos_of_mem hh
    simp only [List.length_append] at hle
    omega
  obtain ⟨k, hused⟩ := I.used
  refine ⟨I.fine, I.lock, I.held, I.pool,
    I.ok_device (s.complete c.head) rfl rfl hb rfl rfl rfl (fun x => hperm.mem_iff), I.avail, I.order,
    ⟨k, hused.put num_dvd hroom⟩, hperm.nodup_iff.mpr I.nodup,
    fun h' hh' => I.owner h' (hperm.mem_iff.mp hh'), fun h' hh' => ?_, fun t' j' c' freed hs => ?_⟩
  · rw [hinfo]
    by_cases he : h' = c.head
    · rw [he, update_self]
    · rw [update_of_ne he]
      refine I.status h' ((List.mem_append.mp hh').resolve_right fun h => he ?_)
      exact List.mem_singleton.mp h
  · refine (I.sent t' j' c' freed hs).complete (fun e => ⟨List.mem_append_right _ hh, ?_⟩) fun hne => ?_
    · show c.head ∉ l ++ s.pending.erase c.head
      rw [List.mem_append, not_or]
      exact ⟨fun hm => hlp _ hm _ hh rfl, fun hm => hndp.not_mem_erase hm⟩
    · show c'.head ∈ l ++ s.pending.erase c.head ↔ _
      rw [List.mem_append, List.mem_append, List.mem_erase_of_ne hne.symm]

theorem intr_inv (hpc : s.pc t = .intrLoop) : ∃ u', Inv es (s.intr t) l u' := by
  have hl : (s.pc t).locked = true := by rw [hpc]; rfl
  obtain ⟨k, hused⟩ := I.used
  unfold Sys.intr
  split
  · refine ⟨u, locked_inv I hpc _ (Moves.goto s t _) rfl rfl rfl rfl rfl rfl nofun nofun nofun nofun trivial⟩
  · rename_i hne
    cases u with
    | nil => exact absurd ((hused.empty_iff (by decide)).mpr rfl) hne
    | cons x u =>
      have hx : x ∈ l ++ s.pending ++ x :: u := by simp
      obtain ⟨t', j, c, hw, rfl⟩ := I.owner x hx
      obtain ⟨hlink, hinfo, -⟩ := (Pc.ok_iff_of_waiting hw).mp (I.ok t')
      obtain ⟨hown, hjob⟩ := Pc.owns_of_waiting hw
      simp only [hused.head num_dvd, I.status _ (.head _), ne_eq, not_true_eq_false, if_false,
        hinfo]
      have hperm : (l ++ s.pending ++ c.head :: u).Perm (c.head :: (l ++ s.pending ++ u)) :=
        List.perm_middle
      obtain ⟨hnot, hnd⟩ := List.nodup_cons.mp (hperm.nodup_iff.mp I.nodup)
      have hmem : ∀ i, i ≠ c.head → (i ∈ l ++ s.pending ++ u ↔ i ∈ l ++ s.pending ++ c.head :: u) :=
        fun i hi => by rw [hperm.mem_iff, List.mem_cons, or_iff_right hi]
      refine ⟨u, I.fine, I.lock, I.held, I.pool, fun t'' => ?_, I.avail, I.order,
        ⟨k + 1, hused.take⟩, hnd, fun h hh => ?_, fun h hh => I.status h (.tail _ hh),
        I.sent⟩
      · by_cases ht : t'' = t'
        · subst ht
          refine (Pc.ok_iff_of_waiting hw).mpr ⟨⟨hlink.req, hlink.head, hlink.mid, hlink.tail⟩, hinfo, ?_⟩
          exact iff_of_false hnot (by simp)
        · refine (I.ok t'').congr (fun _ _ => rfl) (fun _ _ => rfl) (fun _ _ => rfl) (fun j' hj' => ?_)
            (fun i hi => ?_) (fun _ => ⟨rfl, rfl, fun i hi => hperm.mem_iff.mpr (.tail _ hi)⟩)
          · refine update_of_ne (fun e => ht ?_) _ _
            have h1 := I.held t'' j' hj'
            have h2 := I.held t' j hjob
            rw [e, h2] at h1
            exact (Option.some.inj h1).symm
          · refine hmem i fun e => ht (I.pool.disjoint t'' t' i hi ?_)
            show i ∈ (s.pc t').owns
            rw [hown, e]
            exact c.head_mem
      · exact I.owner h (hperm.mem_iff.mpr (.tail _ hh))

theorem go_inv (hs : s.go t = some s') : ∃ l' u', Inv ((event s (.go t)).toList ++ es) s' l' u' := by
  have hok := I.ok t
  unfold Sys.go at hs
  simp only [event]
  generalize hpc : s.pc t = pc at hs hok ⊢
  cases pc with
  | idle | panicked => cases hs
  | acquire | sleepFree =>
    refine ⟨l, u, ?_⟩
    exact acquire_inv I hpc hs rfl rfl rfl rfl rfl (fun _ h => by cases h) fun _ _ _ _ _ => show 0 < 3 by decide
  | alloc j idx =>
    simp only at hs
    refine ⟨l, u, ?_⟩
    split at hs
    · cases hs
      exact locked_inv I hpc _ (Moves.goto s t _) rfl rfl rfl rfl rfl rfl (fun _ h => h)
        (fun _ _ h => by cases h) (fun _ h => by cases h) (fun _ h => by cases h) trivial
    · rename_i i hi
      split at hs
      · cases hs
        exact alloc_inv I hpc hi rfl rfl rfl rfl (fun _ h => by cases h) trivial
      · rename_i hne
        cases hs
        refine alloc_inv I hpc hi rfl rfl rfl rfl (fun _ h => by cases h) ?_
        show (idx ++ [i]).length < 3
        have hlen : idx.length < 3 := hok
        have hne : idx.length ≠ 2 := fun e => by
          obtain ⟨a, b, rfl⟩ := List.length_eq_two.mp e
          exact hne a b rfl
        rw [List.length_append, List.length_singleton]
        omega
  | undo j idx =>
    cases idx with
    | nil =>
      cases hs
      refine ⟨l, u, ?_⟩
      exact unlock_inv I hpc (.sleepFree j) rfl rfl rfl (fun _ _ h _ => h)
        (fun j h => I.held t j (by rw [hpc]; exact h)) rfl (fun _ h => by cases h) (fun _ h => by cases h) trivial
    | cons i idx =>
      have hown : (s.pc t).owns = i :: idx := by rw [hpc]; rfl
      have hfree := freeDesc_ok I (t := t) (i := i) (by rw [hown]; exact .head _)
      simp only [hfree] at hs
      cases hs
      refine ⟨l, u, ?_⟩
      exact freeDesc_inv _ I (by rw [hpc]; rfl) hown (by rw [hpc]; rfl) rfl rfl (by rw [hpc]; rfl)
        (fun _ _ _ h => by cases h) (fun _ h => by cases h) hfree trivial
  | desc0 j c =>
    cases hs
    exact ⟨l, u, store_inv I hpc (.desc1 j c) rfl rfl rfl rfl rfl (fun _ h => h) (fun _ h => by cases h)
      (fun _ h => by cases h) (Chain.update_of_notMem c.head_mem _ _) (Chain.update_of_notMem c.head_mem _ _)
      (fun _ _ => rfl) (fun _ _ => rfl) ⟨update_self .., update_self ..⟩⟩
  | desc1 j c =>
    have hnd := I.pool.nodup t
    simp only [hpc] at hnd
    cases hs
    exact ⟨l, u, store_inv I hpc (.desc2 j c) rfl rfl rfl rfl rfl (fun _ h => h) (fun _ h => by cases h)
      (fun _ h => by cases h) (Chain.update_of_notMem c.mid_mem _ _) (fun _ _ => rfl) (fun _ _ => rfl)
      (fun _ _ => rfl) ⟨hok.1, (update_of_ne (Chain.ne_of_nodup hnd).1 _ _).trans hok.2, update_self ..⟩⟩
  | desc2 j c =>
    have hnd := I.pool.nodup t
    simp only [hpc] at hnd
    obtain ⟨h01, h02, h12⟩ := Chain.ne_of_nodup hnd
    cases hs
    exact ⟨l, u, store_inv I hpc (.mark j c) rfl rfl rfl rfl rfl (fun _ h => h) (fun _ h => by cases h)
      (fun _ h => by cases h) (Chain.update_of_notMem c.tail_mem _ _) (fun _ _ => rfl)
      (Chain.update_of_notMem c.head_mem _ _) (fun _ _ => rfl) ⟨hok.1, (update_of_ne h02 _ _).trans hok.2.1,
        (update_of_ne h12 _ _).trans hok.2.2, update_self ..⟩⟩
  | mark j c =>
    have hheld := I.held t j (by rw [hpc]; rfl)
    cases hs
    refine ⟨l, u, store_inv I hpc (.ring j c) rfl rfl rfl rfl rfl (fun _ h => h) (fun _ h => by cases h)
      (fun _ h => by cases h) (fun _ _ => rfl) (fun _ _ => rfl) (Chain.update_of_notMem c.head_mem _ _)
      (fun b hb => update_of_ne (fun e : b = j.b => hb (e ▸ hheld)) _ _) ?_⟩
    refine ⟨⟨hok.req, hok.head, hok.mid, hok.tail⟩, update_self .., ?_⟩
    show (update s.info c.head _ c.head).b = some j.b
    rw [update_self]
  | ring j c =>
    cases hs
    refine ⟨l, u, ?_⟩
    refine locked_inv I hpc (.post j c) ?_ rfl rfl rfl rfl rfl rfl (fun _ h => h)
      (fun _ _ h => by cases h) (fun _ h => by cases h) (fun _ h => by cases h) ?_
    · exact ⟨rfl, .inr ⟨by rw [hpc]; rfl, by rw [hpc]; rfl, ⟨c.head, by rw [hpc]; exact c.head_mem⟩, _, rfl⟩,
        rfl, rfl, fun _ _ => rfl, fun _ _ => rfl, fun _ _ => rfl, fun _ _ => rfl, fun _ _ h _ => h,
        fun _ _ => Iff.rfl⟩
    · exact ⟨⟨hok.1.req, hok.1.head, hok.1.mid, hok.1.tail⟩, hok.2.1, hok.2.2, update_self ..⟩
  | post j c =>
    cases hs
    refine ⟨l ++ [c.head], u, ?_⟩
    exact post_inv I hpc
  | wait j c =>
    simp only at hs
    refine ⟨l, u, ?_⟩
    split at hs
    · cases hs
      exact unlock_inv I hpc (.sleepBuf j c) rfl rfl rfl (fun _ _ h _ => h)
        (fun j h => I.held t j (by rw [hpc]; exact h)) rfl (fun _ h => h) (fun _ h => by cases h)
        ⟨⟨hok.1.req, hok.1.head, hok.1.mid, hok.1.tail⟩, hok.2.1, hok.2.2⟩
    · rename_i hdisk
      cases hs
      refine locked_inv I hpc _ (Moves.goto s t _) rfl rfl rfl rfl rfl rfl
        (fun _ h => h) (fun j' c' h => ?_) (fun _ h => h) (fun _ h => by cases h)
        ⟨hok.1.req, hok.1.head, hok.1.mid, hok.1.tail⟩
      obtain ⟨rfl, rfl⟩ : j = j' ∧ c = c' := by simpa [Pc.waiting?] using h
      exact fun hm => hdisk (hok.2.2.mp hm)
  | sleepBuf j c =>
    refine ⟨l, u, ?_⟩
    refine acquire_inv I hpc hs rfl rfl rfl rfl rfl (fun _ h => by cases h) fun s' hd ho hi hk => ?_
    refine ⟨⟨?_, ?_, ?_, ?_⟩, ?_, ?_⟩
    · rw [ho]; exact hok.1.req
    · rw [hd]; exact hok.1.head
    · rw [hd]; exact hok.1.mid
    · rw [hd]; exact hok.1.tail
    · rw [hi]; exact hok.2.1
    · rw [hk]; exact hok.2.2
  | clear j c =>
    have hnd := I.pool.nodup t
    simp only [hpc] at hnd
    cases hs
    refine ⟨l, u, store_inv I hpc (.chain j c c.head) rfl rfl rfl rfl c.dropWhile_head (fun _ h => h)
      (fun x h => ?_) (fun _ h => by cases h) (fun _ _ => rfl) (fun _ _ => rfl)
      (Chain.update_of_notMem c.head_mem _ _) (fun _ _ => rfl) ⟨hnd, .inl ⟨rfl, hok.req, hok.head, hok.mid, hok.tail⟩,
        I.not_out (t := t) (by rw [hpc]; exact c.head_mem) (by rw [hpc]; rfl)⟩⟩
    rw [← h]
    simp [Pc.sent?, Chain.list]
  | chain j c i =>
    refine ⟨l, u, ?_⟩
    exact chain_inv I hpc hs
  | release j c =>
    have hheld := I.held t j (by rw [hpc]; rfl)
    cases hs
    refine ⟨l, u, ?_⟩
    refine unlock_inv I hpc .idle rfl rfl rfl (fun b t' h ht => ?_) (fun _ h => by cases h) rfl (fun _ h => by cases h)
      (fun _ h => by cases h) trivial
    refine (update_of_ne (fun e : b = j.b => ht ?_) _ _).trans h
    rw [e, hheld] at h
    exact (Option.some.inj h).symm
  | intrAcquire =>
    refine ⟨l, u, ?_⟩
    exact acquire_inv I hpc hs rfl rfl rfl rfl rfl (fun _ h => by cases h) fun _ _ _ _ _ => trivial
  | intrLoop =>
    cases hs
    exact ⟨l, intr_inv I hpc⟩
  | intrRelease =>
    cases hs
    refine ⟨l, u, ?_⟩
    exact unlock_inv I hpc .idle rfl rfl rfl (fun _ _ h _ => h) (fun _ h => by cases h) rfl (fun _ h => by cases h)
      (fun _ h => by cases h) trivial

theorem step_inv {a : Act} (hs : s.step a = some s') : ∃ l' u', Inv ((event s a).toList ++ es) s' l' u' := by
  cases a with
  | go t => exact go_inv I hs
  | fetch =>
    simp only [Sys.step] at hs
    split at hs <;> cases hs
    rename_i hne
    obtain ⟨l', I'⟩ := fetch_inv I hne
    exact ⟨l', u, I'⟩
  | complete h =>
    simp only [Sys.step] at hs
    split at hs <;> cases hs
    rename_i hh
    exact ⟨l, _, complete_inv I hh⟩
  | rw t j =>
    simp only [Sys.step] at hs
    split at hs <;> cases hs
    rename_i hidle
    obtain ⟨hpc, hfree⟩ := hidle
    have hlock : s.lock ≠ some t := by rw [ne_eq, ← I.lock, hpc]; nofun
    have m : Moves s (Sys.goto { s with held := update s.held j.b (some t) } t (.acquire j)) t
        (.acquire j) := by
      refine ⟨rfl, .inl rfl, rfl, rfl, fun _ _ => rfl, fun _ _ => rfl, fun _ _ => rfl, fun _ _ => rfl,
        fun b t' h _ => ?_, fun _ _ => Iff.rfl⟩
      refine (update_of_ne (fun e : b = j.b => ?_) _ _).trans h
      rw [e, hfree] at h
      cases h
    refine ⟨l, u, m.inv I (.inl rfl) nofun ⟨nofun, fun h => absurd h hlock⟩ (fun j' h => ?_)
      (I.pool_same (by rw [hpc]; rfl)) trivial (by rw [hpc]; nofun) nofun⟩
    cases h
    exact update_self ..
  | intr t =>
    simp only [Sys.step] at hs
    split at hs <;> cases hs
    rename_i hpc
    have hlock : s.lock ≠ some t := by rw [ne_eq, ← I.lock, hpc]; nofun
    exact ⟨l, u, (Moves.goto s t .intrAcquire).inv I (.inl rfl) nofun
      ⟨nofun, fun h => absurd h hlock⟩ nofun (I.pool_same (by rw [hpc]; rfl)) trivial
      (by rw [hpc]; nofun) nofun⟩

end

theorem run_inv (hr : sys.Emits event boot es s) : ∃ l u, Inv es s l u := by
  induction hr with
  | refl =>
    refine ⟨[], [], nofun, fun t => ⟨nofun, nofun⟩, nofun, Lib.Pool.empty fun _ _ => rfl,
      fun t => trivial, ⟨rfl, rfl, Nat.zero_le _, nofun⟩, rfl, ⟨0, rfl, rfl, Nat.zero_le _, nofun⟩,
      List.nodup_nil, nofun, nofun, nofun⟩
  | tail hr hs ih =>
    obtain ⟨l, u, I⟩ := ih
    exact step_inv I hs

end Xv6Freezer.Virtio
