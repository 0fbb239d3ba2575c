import Xv6Freezer.Files.Spec

/-! # What the code does to the record of its process: system calls

Every system call that a process starts in user space ends with the process owning exactly what its
slot says. -/

namespace Xv6Freezer.Files

open Lib Prog Function

variable {P : Type} {g g' : Own P} {ip dp f : Nat} {h k : Held}

/-! ## Records between two inodes -/

namespace Own

def both (g : Own P) (dp ip : Nat) (h k : Held) : Own P :=
  (((g.ref dp).hold dp h).ref ip).hold ip k

theorem both_left (hne : ip ≠ dp) : (g.both dp ip h k).held dp = some h := by
  rw [both, hold_held_of_ne hne.symm]
  exact hold_held (g := g.ref dp)

@[simp] theorem both_right : (g.both dp ip h k).held ip = some k := hold_held

@[simp] theorem both_hold_right {k' : Held} : (g.both dp ip h k).hold ip k' = g.both dp ip h k' :=
  hold_hold

theorem both_hold_left (hne : ip ≠ dp) {h' : Held} :
    (g.both dp ip h k).hold dp h' = g.both dp ip h' k := by
  have hheld : update (update (update g.held dp (some h)) ip (some k)) dp (some h') =
      update (update g.held dp (some h')) ip (some k) := by
    rw [update_comm (β := fun _ => Option Held) hne, update_idem]
  simp only [both, Own.ref, Own.hold, hheld]

theorem both_put_left (hne : ip ≠ dp) (hnone : g.held dp = none) :
    ((g.both dp ip h k).release dp).drop dp = (g.ref ip).hold ip k := by
  have hheld : update (update (update g.held dp (some h)) ip (some k)) dp none =
      update g.held ip (some k) := by
    rw [update_comm (β := fun _ => Option Held) hne, update_idem, ← hnone,
      update_eq_self]
  have hirefs : (ip ::ₘ dp ::ₘ g.irefs).erase dp = ip ::ₘ g.irefs := by
    rw [Multiset.cons_swap, Multiset.erase_cons_head]
  simp only [both, Own.ref, Own.hold, Own.release, Own.drop, hheld, hirefs]

theorem mem_both_left : dp ∈ (g.both dp ip h k).irefs :=
  Multiset.mem_cons_of_mem (Multiset.mem_cons_self dp g.irefs)

theorem mem_both_right : ip ∈ (g.both dp ip h k).irefs := Multiset.mem_cons_self ip _

theorem Ok.both (hg : g.Ok) : (g.both dp ip h k).Ok :=
  ((hg.ref.hold fun _ => Multiset.mem_cons_self dp g.irefs).ref).hold
    fun _ => Multiset.mem_cons_self ip _

theorem Ok.one (hg : g.Ok) : ((g.ref ip).hold ip h).Ok :=
  hg.ref.hold fun _ => Multiset.mem_cons_self ip g.irefs

/-- The directory is locked, so an inode that is not is another one. -/
theorem ne_of_locked (hip : ((g.ref dp).hold dp h).held ip = none) : ip ≠ dp ∧ g.held ip = none := by
  have hne : ip ≠ dp := by
    rintro rfl
    rw [hold_held] at hip
    cases hip
  rw [hold_held_of_ne hne] at hip
  exact ⟨hne, hip⟩

theorem Idle.ok (hi : g.Idle) (ha : g.proc.stage = .alive) : g.Ok := by
  refine ⟨ha, fun e h he => ?_, fun ip hip => ?_⟩
  · rw [hi.held e] at he
    cases he
  · rw [hi.irefs, Proc.cwdRefs, hip]
    exact Multiset.mem_singleton_self ip

theorem Idle.mem_frefs (hi : g.Idle) {fd : Nat} (hfd : fd < NOFILE)
    (hf : g.proc.ofile fd = some f) : f ∈ g.frefs := by
  rw [hi.frefs]
  exact (Multiset.mem_filterMap _ _).mpr ⟨fd, Multiset.mem_range.mpr hfd, hf⟩

theorem Idle.congr (hi : g.Idle) (h1 : g'.proc = g.proc) (h2 : g'.irefs = g.irefs)
    (h3 : g'.frefs = g.frefs) (h4 : g'.ends = g.ends) (h5 : g'.held = g.held)
    (h6 : g'.child = g.child) : g'.Idle :=
  ⟨by rw [h1, h2]; exact hi.irefs, by rw [h1, h3]; exact hi.frefs, by rw [h4]; exact hi.ends,
    by rw [h5]; exact hi.held, by rw [h6]; exact hi.child, by rw [h1]; exact hi.fds,
    by rw [h1]; exact hi.cwd⟩

end Own

/-! ## Editing a locked inode -/

theorem wt_edit {β : Type} {e : Nat} {d : Dinode → Dinode} {c : Unit → Code P β}
    {Q : β → Own P → Prop} (ha : g.proc.stage = .alive) (hp : g.held e = some h) (hc : h.Clean)
    (hd : (d h.d).type = h.d.type ∧ (d h.d).addrs = h.d.addrs ∧ (d h.d).size = h.d.size)
    (hk : ∀ h' : Held, h'.Clean → h'.via = h.via → (c ()).wt rules (g.hold e h') Q) :
    (atomic (.setInode e d) >>= fun _ => atomic (.iupdate e) >>= c).wt rules g Q := by
  refine wt_setInode ha hp hc.valid ?_
  refine wt_iupdate (g := g.hold e _) ha Own.hold_held hc.valid (hc.disk ▸ hc.type) ?_
  rw [Own.hold_hold]
  refine hk _ ⟨hc.valid, rfl, ?_, ?_⟩ rfl
  · rw [hd.1]
    exact hc.type
  · have hf := hc.full
    unfold Dinode.Full at hf ⊢
    simp only [hd.2.1, hd.2.2]
    exact hf

theorem edit_wt {d : Dinode → Dinode} (ha : g.proc.stage = .alive) (hp : g.held dp = some h) (hc : h.Clean)
    (hd : (d h.d).type = h.d.type ∧ (d h.d).addrs = h.d.addrs ∧ (d h.d).size = h.d.size) :
    (atomic (.setInode dp d) >>= fun _ => atomic (.iupdate dp)).wt rules g
      fun _ g' => g.Edits dp h g' := by
  have hedit : (atomic (.setInode dp d) >>= fun _ => atomic (.iupdate dp) >>= pure).wt rules g
      fun _ g' => g.Edits dp h g' :=
    wt_edit ha hp hc hd fun h' hc' hv => ⟨h', hc', hv, rfl⟩
  rwa [bind_pure] at hedit

theorem ilock_ref_wt (hg : g.Ok) : (ilock ip).wt rules (g.ref ip) fun _ g' => (g.ref ip).Locks ip g' :=
  ilock_wt hg.ref (.inl (Multiset.mem_cons_self ip g.irefs))

/-- `iunlockput` and `end_op`, with which most calls end. -/
theorem putEnd_wt (hg : g.Ok) (hnone : g.held ip = none) (hc : h.Clean) {r : Int} :
    (do
      iunlockput ip
      atomic .end_op
      pure r : Code P Int).wt rules ((g.ref ip).hold ip h) fun _ g' => g' = g :=
  wt_seq_eq (iunlockput_ref_wt hg hnone hc) fun _ => wt_free hg.alive rfl fun _ => rfl

/-! ## `sys_link` and `sys_unlink` -/

theorem linkBad_wt (hg : g.Ok) : (linkBad ip).wt rules (g.ref ip) fun _ g' => g' = g := by
  refine wt_seq (ilock_ref_wt hg) ?_
  rintro _ _ ⟨hnone, h, hc, -, -, rfl⟩
  refine wt_edit (g := (g.ref ip).hold ip h) hg.alive Own.hold_held hc ⟨rfl, rfl, rfl⟩
    fun h' hc' _ => ?_
  rw [Own.hold_hold]
  exact putEnd_wt hg hnone hc'

theorem linkEntry_wt (hg : g.Ok) (hp : g.held dp = some h) (hc : h.Clean) (hdp : dp ∈ g.irefs)
    {name : Name} : (linkEntry dp ip name).wt rules g fun _ g' => g.Edits dp h g' := by
  refine wt_getInode hg.alive fun d _ _ => wt_getInode hg.alive fun i _ _ => ?_
  exact wt_ite (fun _ => .refl hp hc) fun _ => dirlink_wt hg hp hc hdp

theorem linkNew_wt (hg : g.Ok) {new : Path} :
    (linkNew ip new).wt rules (g.ref ip) fun _ g' => g' = g := by
  refine wt_seq (namex_wt hg.ref) ?_
  rintro (_ | ⟨dp, name⟩) g1 h1
  · rw [show g1 = g.ref ip from h1]
    exact linkBad_wt hg
  · rw [show g1 = (g.ref ip).ref dp from h1]
    refine wt_seq (ilock_ref_wt hg.ref) ?_
    rintro _ _ ⟨hnone, h, hc, -, -, rfl⟩
    refine wt_seq (linkEntry_wt (hg.ref (e := ip)).one Own.hold_held hc
      (Multiset.mem_cons_self dp _)) ?_
    rintro r _ ⟨h', hc', -, rfl⟩
    rw [Own.hold_hold]
    refine wt_ite (fun _ => ?_) fun _ => ?_
    · refine wt_seq_eq (iunlockput_ref_wt hg.ref hnone hc') fun _ => ?_
      exact linkBad_wt hg
    · refine wt_seq_eq (iunlockput_ref_wt hg.ref hnone hc') fun _ => ?_
      refine wt_seq_eq (iput_ref_wt hg) fun _ => ?_
      exact wt_free hg.alive rfl fun _ => rfl

theorem sysLink_wt (hg : g.Ok) {old new : Option Path} :
    (sysLink old new).wt rules g fun _ g' => g' = g := by
  cases old with
  | none => rfl
  | some old =>
    cases new with
    | none => rfl
    | some new =>
      refine wt_free hg.alive rfl fun _ => ?_
      refine wt_seq (namei_wt hg) ?_
      rintro (_ | ip) g1 h1
      · rw [show g1 = g from h1]
        exact wt_free hg.alive rfl fun _ => rfl
      · rw [show g1 = g.ref ip from h1]
        refine wt_seq (ilock_ref_wt hg) ?_
        rintro _ _ ⟨hnone, h, hc, -, -, rfl⟩
        refine wt_getInode hg.alive fun i _ _ => ?_
        refine wt_ite (fun _ => ?_) fun _ => ?_
        · exact putEnd_wt hg hnone hc
        · refine wt_edit (g := (g.ref ip).hold ip h) hg.alive Own.hold_held hc ⟨rfl, rfl, rfl⟩
            fun h' hc' _ => ?_
          rw [Own.hold_hold]
          refine wt_seq (iunlock_wt (g := (g.ref ip).hold ip h') hg.alive Own.hold_held hc')
            fun _ g2 h2 => ?_
          rw [h2, Own.hold_release, Own.release_of_none (g := g.ref ip) hnone]
          exact linkNew_wt hg

theorem unlinkBad_wt (hg : g.Ok) (hnone : g.held dp = none) (hc : h.Clean) :
    (unlinkBad dp).wt rules ((g.ref dp).hold dp h) fun _ g' => g' = g :=
  putEnd_wt hg hnone hc

theorem unlinkEmpty_wt (ha : g.proc.stage = .alive) (hp : g.held ip = some h) (hc : h.Clean)
    {type : FileType} : (unlinkEmpty ip type).wt rules g fun _ g' => g' = g :=
  wt_ite (fun _ => isdirempty_wt ha hp hc) fun _ => rfl

theorem unlinkParent_wt (ha : g.proc.stage = .alive) (hp : g.held dp = some h) (hc : h.Clean)
    {isdir : Bool} : (unlinkParent dp isdir).wt rules g fun _ g' => g.Edits dp h g' :=
  wt_ite (fun _ => edit_wt ha hp hc ⟨rfl, rfl, rfl⟩) fun _ => .refl hp hc

theorem unlinkEntry_wt (hg : g.Ok) (hne : ip ≠ dp) (hdp : g.held dp = none) (hip : g.held ip = none)
    (hc : h.Clean) (hk : k.Clean) {off : Nat} (hoff : DIRENT ∣ off) {isdir : Bool} :
    (unlinkEntry dp ip off isdir).wt rules (g.both dp ip h k) fun _ g' => g' = g := by
  refine wt_seq (writeDirent_wt hg.both.alive (Own.both_left hne) hc hoff) ?_
  rintro r _ ⟨h₁, hc1, -, rfl⟩
  rw [Own.both_hold_left hne]
  refine wt_ite (fun _ => wt_panic hg.alive (by decide)) fun _ => ?_
  refine wt_seq (unlinkParent_wt hg.both.alive (Own.both_left hne) hc1) ?_
  rintro _ _ ⟨h2, hc2, -, rfl⟩
  rw [Own.both_hold_left hne]
  refine wt_seq (iunlockput_wt hg.both.alive (Own.both_left hne) hc2 Own.mem_both_left) fun _ g1 h1 => ?_
  rw [h1, Own.both_put_left hne hdp]
  refine wt_edit (g := (g.ref ip).hold ip k) hg.alive Own.hold_held hk ⟨rfl, rfl, rfl⟩
    fun k' hk' _ => ?_
  rw [Own.hold_hold]
  exact putEnd_wt hg hip hk'

theorem sysUnlink_wt (hg : g.Ok) {path : Option Path} :
    (sysUnlink path).wt rules g fun _ g' => g' = g := by
  cases path with
  | none => rfl
  | some path =>
    refine wt_free hg.alive rfl fun _ => ?_
    refine wt_seq (namex_wt hg) ?_
    rintro (_ | ⟨dp, name⟩) g1 h1
    · rw [show g1 = g from h1]
      exact wt_free hg.alive rfl fun _ => rfl
    · rw [show g1 = g.ref dp from h1]
      have hmem : dp ∈ (g.ref dp).irefs := Multiset.mem_cons_self dp g.irefs
      refine wt_seq (ilock_ref_wt hg) ?_
      rintro _ _ ⟨hdp, h, hc, -, -, rfl⟩
      refine wt_ite (fun _ => unlinkBad_wt hg hdp hc) fun _ => ?_
      refine wt_seq (dirlookup_wt hg.one.alive Own.hold_held hc hmem) ?_
      rintro (_ | ⟨ip, off⟩) g2 ⟨h2, hoff⟩
      · rw [show g2 = (g.ref dp).hold dp h from h2]
        exact unlinkBad_wt hg hdp hc
      · rw [show g2 = ((g.ref dp).hold dp h).ref ip from h2]
        have hoff := hoff (ip, off) rfl
        refine wt_seq (ilock_ref_wt hg.one) ?_
        rintro _ _ ⟨hip, k, hk, -, -, rfl⟩
        obtain ⟨hne, hip'⟩ := Own.ne_of_locked hip
        refine wt_getInode hg.alive fun i _ _ => ?_
        refine wt_ite (fun _ => wt_panic hg.alive (by decide)) fun _ => ?_
        refine wt_seq (unlinkEmpty_wt hg.both.alive Own.both_right hk) fun empty g3 h3 => ?_
        rw [h3]
        refine wt_ite (fun _ => ?_) fun _ => unlinkEntry_wt hg hne hdp hip' hc hk hoff
        refine wt_seq_eq (iunlockput_ref_wt hg.one hip hk) fun _ => ?_
        exact unlinkBad_wt hg hdp hc

/-! ## `create` -/

/-- What `create` returns: nothing, or a referenced and locked inode. -/
def Created (g : Own P) : Option Nat → Own P → Prop
  | none, g' => g' = g
  | some ip, g' => g.held ip = none ∧ ∃ h : Held, h.Clean ∧ h.via = .own ∧ g' = (g.ref ip).hold ip h

theorem createFail_wt (hg : g.Ok) (hdp : g.held dp = none)
    (hip : ((g.ref dp).hold dp h).held ip = none) (hc : h.Clean) (hk : k.Clean) :
    (createFail dp ip).wt rules (g.both dp ip h k) fun r g' => Created g r g' := by
  refine wt_edit hg.both.alive Own.both_right hk ⟨rfl, rfl, rfl⟩ fun k' hk' _ => ?_
  rw [Own.both_hold_right]
  refine wt_seq_eq (iunlockput_ref_wt hg.one hip hk') fun _ => ?_
  exact wt_seq (iunlockput_ref_wt hg hdp hc) fun _ _ h2 => h2

theorem createDots_wt (hg : g.Ok) (hp : g.held ip = some h) (hc : h.Clean) (hip : ip ∈ g.irefs)
    {inum parent : Nat} {type : FileType} :
    (createDots ip inum parent type).wt rules g fun _ g' => g.Edits ip h g' := by
  refine wt_ite (fun _ => ?_) fun _ => .refl hp hc
  refine wt_seq (dirlink_wt hg hp hc hip) ?_
  rintro r _ ⟨h1, hc1, hv1, rfl⟩
  refine wt_ite (fun _ => ⟨h1, hc1, hv1, rfl⟩) fun _ => ?_
  have hg1 : (g.hold ip h1).Ok := hg.hold fun _ => hip
  refine wt_mono (dirlink_wt hg1 Own.hold_held hc1 hip) ?_
  rintro _ _ ⟨h2, hc2, hv2, rfl⟩
  exact ⟨h2, hc2, hv2.trans hv1, Own.hold_hold⟩

theorem createParent_wt (ha : g.proc.stage = .alive) (hp : g.held dp = some h) (hc : h.Clean)
    {type : FileType} : (createParent dp type).wt rules g fun _ g' => g.Edits dp h g' :=
  wt_ite (fun _ => edit_wt ha hp hc ⟨rfl, rfl, rfl⟩) fun _ => .refl hp hc

theorem createNew_wt (hg : g.Ok) (hdp : g.held dp = none) (hc : h.Clean) {name : Name}
    {type : FileType} {major minor : Int} :
    (createNew dp name ip type major minor).wt rules (((g.ref dp).hold dp h).ref ip)
      fun r g' => Created g r g' := by
  refine wt_seq (ilock_ref_wt hg.one) ?_
  rintro _ _ ⟨hip, k, hk, hvia, -, rfl⟩
  obtain ⟨hne, hnone⟩ := Own.ne_of_locked hip
  have hip' : ∀ h : Held, ((g.ref dp).hold dp h).held ip = none := fun h' =>
    (Own.hold_held_of_ne hne).trans hnone
  refine wt_edit (g := g.both dp ip h k) hg.both.alive Own.both_right hk ⟨rfl, rfl, rfl⟩
    fun k1 hk1 hv1 => ?_
  rw [Own.both_hold_right]
  refine wt_getInode hg.alive fun i _ _ => wt_getInode hg.alive fun d _ _ => ?_
  refine wt_seq (createDots_wt hg.both Own.both_right hk1 Own.mem_both_right) ?_
  rintro r _ ⟨k2, hk2, hv2, rfl⟩
  rw [Own.both_hold_right]
  refine wt_ite (fun _ => createFail_wt hg hdp (hip' h) hc hk2) fun _ => ?_
  refine wt_seq (dirlink_wt hg.both (Own.both_left hne) hc Own.mem_both_left) ?_
  rintro r' _ ⟨h2, hc2, -, rfl⟩
  rw [Own.both_hold_left hne]
  refine wt_ite (fun _ => createFail_wt hg hdp (hip' h2) hc2 hk2) fun _ => ?_
  refine wt_seq (createParent_wt hg.both.alive (Own.both_left hne) hc2) ?_
  rintro _ _ ⟨h3, hc3, -, rfl⟩
  rw [Own.both_hold_left hne]
  refine wt_seq (iunlockput_wt hg.both.alive (Own.both_left hne) hc3 Own.mem_both_left)
    fun _ g1 h1 => ?_
  rw [h1, Own.both_put_left hne hdp]
  exact ⟨hnone, k2, hk2, (hv2.trans hv1).trans (hvia (Multiset.mem_cons_self ip _)), rfl⟩

theorem create_wt (hg : g.Ok) {path : Path} {type : FileType} (ht : type ≠ .none)
    {major minor : Int} :
    (create path type major minor).wt rules g fun r g' => Created g r g' := by
  refine wt_seq (namex_wt hg) ?_
  rintro (_ | ⟨dp, name⟩) g1 h1
  · exact h1
  · rw [show g1 = g.ref dp from h1]
    have hmem : dp ∈ (g.ref dp).irefs := Multiset.mem_cons_self dp g.irefs
    refine wt_seq (ilock_ref_wt hg) ?_
    rintro _ _ ⟨hdp, h, hc, -, -, rfl⟩
    refine wt_seq (dirlookup_wt hg.one.alive Own.hold_held hc hmem) ?_
    rintro (_ | ⟨ip, off⟩) g2 ⟨h2, -⟩
    · rw [show g2 = (g.ref dp).hold dp h from h2]
      refine wt_getInode hg.alive fun d hdev _ => ?_
      rw [hdev hmem]
      refine wt_free hg.one.alive rfl fun n => ?_
      refine wt_seq (iallocLoop_wt hg.one.alive ht) ?_
      rintro (_ | ip) g3 h3
      · rw [show g3 = (g.ref dp).hold dp h from h3]
        exact wt_seq (iunlockput_ref_wt hg hdp hc) fun _ _ h4 => h4
      · rw [show g3 = ((g.ref dp).hold dp h).ref ip from h3]
        exact createNew_wt hg hdp hc
    · rw [show g2 = ((g.ref dp).hold dp h).ref ip from h2]
      refine wt_seq (iunlockput_wt (g := ((g.ref dp).hold dp h).ref ip) (h := h) hg.alive
        Own.hold_held hc (Multiset.mem_cons_of_mem hmem)) fun _ g3 h3 => ?_
      rw [h3, show (((g.ref dp).hold dp h).ref ip).release dp =
          (((g.ref dp).hold dp h).release dp).ref ip from rfl,
        Own.hold_release, Own.release_of_none (g := g.ref dp) hdp, Own.ref_ref_drop]
      refine wt_seq (ilock_ref_wt hg) ?_
      rintro _ _ ⟨hip, k, hk, hvia, -, rfl⟩
      have hown := hvia (Multiset.mem_cons_self ip g.irefs)
      refine wt_getInode hg.alive fun i _ _ => ?_
      refine wt_ite (fun _ => ⟨hip, k, hk, hown, rfl⟩) fun _ => ?_
      exact wt_seq (iunlockput_ref_wt hg hip hk) fun _ _ h4 => h4

theorem mkNode_wt (hg : g.Ok) {path : Option Path} {type : FileType} (ht : type ≠ .none)
    {major minor : Int} : (mkNode path type major minor).wt rules g fun _ g' => g' = g := by
  refine wt_free hg.alive rfl fun _ => ?_
  have hnew : (createArg path type (int16 major) (int16 minor)).wt rules g
      fun r g' => Created g r g' := by
    cases path with
    | none => rfl
    | some path => exact create_wt hg ht
  refine wt_seq hnew ?_
  rintro (_ | ip) g1 h1
  · rw [show g1 = g from h1]
    exact wt_free hg.alive rfl fun _ => rfl
  · obtain ⟨hip, h, hc, -, rfl⟩ := h1
    exact putEnd_wt hg hip hc

/-! ## Files -/

/-- **`fileclose` drops a reference to a file**, and with the last one what the file refers to. -/
theorem fileclose_wt (hg : g.Ok) (hf : f ∈ g.frefs)
    (hvia : ∀ e h, g.held e = some h → h.via ≠ .file f) :
    (fileclose f).wt rules g fun _ g' => g' = g.close f := by
  have hg' : (g.close f).Ok := ⟨hg.alive, hg.own, hg.cwd⟩
  refine wt_op hg.alive ⟨hf, hvia⟩ ?_
  rintro (_ | ff) g1 h1
  · exact h1
  · rw [show g1 = (g.close f).take (some ff) from h1]
    show Prog.wt rules (if ff.type = .pipe then _ else _) _ _
    refine wt_ite (fun ht => ?_) fun ht => wt_ite (fun ht' => ?_) fun ht' => ?_
    · have htake : (g.close f).take (some ff) =
          { g.close f with ends := (ff.pipe, ff.writable) ::ₘ (g.close f).ends } := by
        simp only [Own.take, if_pos ht]
      rw [htake]
      refine wt_last hg.alive (Multiset.mem_cons_self _ _) fun _ g2 h2 => ?_
      rw [show g2 = _ from h2]
      simp only [Own.dropEnd, Multiset.erase_cons_head]
    · have htake : (g.close f).take (some ff) = (g.close f).ref ff.ip := by
        simp only [Own.take, if_neg ht, if_pos ht']
      rw [htake]
      refine wt_free hg.alive rfl fun _ => ?_
      refine wt_seq_eq (iput_ref_wt hg') fun _ => ?_
      exact wt_last hg.alive trivial fun _ _ hr => hr
    · show (g.close f).take (some ff) = g.close f
      simp only [Own.take, if_neg ht, if_neg ht']

theorem fdalloc_wt (ha : g.proc.stage = .alive) : (fdalloc f).wt rules g fun r g' =>
    match r with
    | none => g' = g
    | some fd => fd < NOFILE ∧ g.proc.ofile fd = none ∧
        g' = g.setProc fun q => { q with ofile := update q.ofile fd (some f) } := by
  refine wt_op ha trivial fun p g1 h1 => ?_
  rw [h1.1, h1.2]
  cases hfind : (List.range NOFILE).find? fun fd => (g.proc.ofile fd).isNone with
  | none => rfl
  | some fd =>
    have hnone := List.find?_some hfind
    have hlt := List.mem_range.mp (List.mem_of_find?_eq_some hfind)
    exact wt_op ha hlt fun _ g2 h2 => ⟨hlt, Option.isNone_iff_eq_none.mp hnone, h2⟩

theorem argfd_wt (ha : g.proc.stage = .alive) {fd : Int} : (argfd fd).wt rules g fun r g' =>
    g' = g ∧ ∀ x y, r = some (x, y) → x < NOFILE ∧ g.proc.ofile x = some y := by
  refine wt_op ha trivial fun p g1 h1 => ?_
  rw [h1.1, h1.2]
  refine wt_ite (fun _ => ⟨rfl, nofun⟩) fun hfd => ?_
  cases hf : g.proc.ofile fd.toNat with
  | none => exact ⟨rfl, nofun⟩
  | some f =>
    refine ⟨rfl, fun x y hxy => ?_⟩
    cases hxy
    exact ⟨by omega, hf⟩

namespace Own

/-- Descriptor `fd` changes, and the references to files with it. -/
theorem Idle.setFd (hi : g.Idle) {fd : Nat} (v : Option Nat) (hfd : fd < NOFILE)
    (h1 : g'.proc = { g.proc with ofile := update g.proc.ofile fd v }) (h2 : g'.irefs = g.irefs)
    (h3 : refsOf (g.proc.ofile fd) + g'.frefs = refsOf v + g.frefs) (h4 : g'.ends = g.ends)
    (h5 : g'.held = g.held) (h6 : g'.child = g.child) : g'.Idle := by
  refine ⟨by rw [h1, h2]; exact hi.irefs, ?_, by rw [h4]; exact hi.ends, by rw [h5]; exact hi.held,
    by rw [h6]; exact hi.child, fun x hx => ?_, by rw [h1]; exact hi.cwd⟩
  · rw [hi.frefs] at h3
    rw [h1]
    exact add_left_cancel (h3.trans (fileRefs_update v hfd).symm)
  · rw [h1]
    show update g.proc.ofile fd v x = none
    rw [update_of_ne (by omega)]
    exact hi.fds x hx

theorem Idle.open (hi : g.Idle) {fd : Nat} (hfd : fd < NOFILE) (hnone : g.proc.ofile fd = none)
    (h1 : g'.proc = { g.proc with ofile := update g.proc.ofile fd (some f) })
    (h2 : g'.irefs = g.irefs) (h3 : g'.frefs = f ::ₘ g.frefs) (h4 : g'.ends = g.ends)
    (h5 : g'.held = g.held) (h6 : g'.child = g.child) : g'.Idle :=
  hi.setFd (some f) hfd h1 h2 (by rw [hnone, h3]; exact zero_add _) h4 h5 h6

theorem Idle.close (hi : g.Idle) {fd : Nat} (hfd : fd < NOFILE) (hf : g.proc.ofile fd = some f)
    (h1 : g'.proc = { g.proc with ofile := update g.proc.ofile fd none })
    (h2 : g'.irefs = g.irefs) (h3 : g'.frefs = g.frefs.erase f) (h4 : g'.ends = g.ends)
    (h5 : g'.held = g.held) (h6 : g'.child = g.child) : g'.Idle := by
  refine hi.setFd none hfd h1 h2 ?_ h4 h5 h6
  rw [hf, h3]
  exact (Multiset.cons_erase (hi.mem_frefs hfd hf)).trans (zero_add _).symm

end Own

theorem sysDup_wt (hi : g.Idle) (ha : g.proc.stage = .alive) {fd : Int} :
    (sysDup fd).wt rules g fun _ => Own.Idle := by
  refine wt_seq (argfd_wt ha) ?_
  rintro (_ | ⟨x, f⟩) g1 ⟨h1, hx⟩
  · rw [h1]
    exact hi
  · rw [h1]
    obtain ⟨hlt, hf⟩ := hx x f rfl
    refine wt_seq (fdalloc_wt ha) ?_
    rintro (_ | fd) g2 h2
    · rw [show g2 = g from h2]
      exact hi
    · obtain ⟨hfd, hnone, rfl⟩ := h2
      refine wt_op ha (hi.mem_frefs hlt hf) fun _ g3 h3 => ?_
      rw [show g3 = _ from h3]
      exact hi.open hfd hnone rfl rfl rfl rfl rfl rfl

theorem sysClose_wt (hi : g.Idle) (ha : g.proc.stage = .alive) {fd : Int} :
    (sysClose fd).wt rules g fun _ => Own.Idle := by
  refine wt_seq (argfd_wt ha) ?_
  rintro (_ | ⟨x, f⟩) g1 ⟨h1, hx⟩
  · rw [h1]
    exact hi
  · rw [h1]
    obtain ⟨hlt, hf⟩ := hx x f rfl
    have hg := hi.ok ha
    refine wt_op ha hlt fun _ g2 h2 => ?_
    rw [show g2 = _ from h2]
    refine wt_seq_eq (fileclose_wt ⟨ha, hg.own, hg.cwd⟩ (hi.mem_frefs hlt hf) fun e h he =>
      absurd ((hi.held e).symm.trans he) nofun) fun _ => ?_
    exact hi.close hlt hf rfl rfl rfl rfl rfl rfl

/-! ## `sys_open` -/

theorem openBad_wt (hg : g.Ok) (hip : g.held ip = none) (hc : h.Clean) :
    (openBad ip).wt rules ((g.ref ip).hold ip h) fun _ g' => g' = g :=
  putEnd_wt hg hip hc

theorem openInode_wt (hg : g.Ok) {path : Path} {omode : Nat} :
    (openInode path omode).wt rules g fun r g' => Created g r g' := by
  refine wt_ite (fun _ => create_wt hg (by decide)) fun _ => ?_
  refine wt_seq (namei_wt hg) ?_
  rintro (_ | ip) g1 h1
  · exact h1
  · rw [show g1 = g.ref ip from h1]
    refine wt_seq (ilock_ref_wt hg) ?_
    rintro _ _ ⟨hip, h, hc, hvia, -, rfl⟩
    have hown := hvia (Multiset.mem_cons_self ip g.irefs)
    refine wt_getInode hg.alive fun i _ _ => ?_
    refine wt_ite (fun _ => ?_) fun _ => ⟨hip, h, hc, hown, rfl⟩
    exact wt_seq (iunlockput_ref_wt hg hip hc) fun _ _ h2 => h2

theorem openTrunc_wt (ha : g.proc.stage = .alive) (hp : g.held ip = some h) (hc : h.Clean)
    {omode : Nat} {type : FileType} :
    (openTrunc ip omode type).wt rules g fun _ g' => g.Edits ip h g' := by
  refine wt_ite (fun _ => ?_) fun _ => .refl hp hc
  refine wt_mono (itrunc_wt ha hp hc) ?_
  rintro _ _ ⟨h', hc', hv', -, -, rfl⟩
  exact ⟨h', hc', hv', rfl⟩

theorem openFile_wt (hi : g.Idle) (ha : g.proc.stage = .alive) (hc : h.Clean) {fd omode : Nat}
    (hfd : fd < NOFILE) (hnone : g.proc.ofile fd = none) :
    (openFile ip f fd omode).wt rules ((((g.ref ip).hold ip h).alloc f).setProc fun q =>
      { q with ofile := update q.ofile fd (some f) }) fun _ => Own.Idle := by
  refine wt_getInode ha fun i _ _ => ?_
  refine wt_op ha ⟨Finset.mem_insert_self f _, Multiset.mem_cons_self ip _, ?_⟩ fun _ g1 h1 => ?_
  · split
    · exact .inr rfl
    · exact .inl rfl
  have ha1 : g1.proc.stage = .alive := by
    rw [show g1 = _ from h1]
    exact ha
  have hheld : g1.held ip = some { h with via := .file f } := by
    rw [show g1 = _ from h1]
    show update (update g.held ip (some h)) ip
      (((update g.held ip (some h)) ip).map fun h => { h with via := .file f }) ip = _
    rw [update_self, update_self]
    rfl
  refine wt_seq (openTrunc_wt ha1 hheld ⟨hc.valid, hc.disk, hc.type, hc.full⟩) ?_
  rintro _ _ ⟨k', hk', -, rfl⟩
  refine wt_seq (iunlock_wt (g := g1.hold ip k') ha1 Own.hold_held hk') fun _ g2 h2 => ?_
  refine wt_free (by rw [h2]; exact ha1) rfl fun _ => ?_
  show g2.Idle
  rw [h2, Own.hold_release, show g1 = _ from h1]
  refine hi.open hfd hnone rfl ?_ rfl rfl ?_ rfl
  · show (ip ::ₘ g.irefs).erase ip = g.irefs
    rw [Multiset.erase_cons_head]
  · show update (update (update g.held ip (some h)) ip _) ip none = g.held
    rw [update_idem, update_idem, ← hi.held ip, update_eq_self]

theorem sysOpen_wt (hi : g.Idle) (ha : g.proc.stage = .alive) {path : Option Path} {omode : Nat} :
    (sysOpen path omode).wt rules g fun _ => Own.Idle := by
  have hg := hi.ok ha
  cases path with
  | none => exact hi
  | some path =>
    refine wt_free ha rfl fun _ => ?_
    refine wt_seq (openInode_wt hg) ?_
    rintro (_ | ip) g1 h1
    · rw [show g1 = g from h1]
      exact wt_free ha rfl fun _ => hi
    · obtain ⟨hip, h, hc, hown, rfl⟩ := h1
      have hbad : (openBad ip).wt rules ((g.ref ip).hold ip h) fun _ => Own.Idle :=
        wt_mono (openBad_wt hg hip hc) fun _ g2 h2 => by
          rw [h2]
          exact hi
      refine wt_getInode ha fun i _ _ => ?_
      refine wt_ite (fun _ => hbad) fun _ => ?_
      refine wt_op ha trivial ?_
      rintro (_ | f) g2 h2
      · rw [show g2 = _ from h2]
        exact hbad
      · obtain ⟨hf, rfl⟩ := h2
        refine wt_seq (fdalloc_wt ha) ?_
        rintro (_ | fd) g3 h3
        · rw [show g3 = ((g.ref ip).hold ip h).alloc f from h3]
          have hg1 : ((g.ref ip).hold ip h).Ok := hg.one
          have hvia : ∀ e k, (((g.ref ip).hold ip h).alloc f).held e = some k → k.via ≠ .file f :=
            fun e k he hv => by
              by_cases hei : e = ip
              · subst hei
                obtain rfl := Option.some.inj (Own.hold_held.symm.trans he)
                rw [hown] at hv
                cases hv
              · have he' := (Own.hold_held_of_ne (g := g.ref ip) (h := h) hei).symm.trans he
                exact absurd ((hi.held e).symm.trans he') nofun
          refine wt_seq (fileclose_wt ⟨ha, hg1.own, hg1.cwd⟩ (Multiset.mem_cons_self f _) hvia)
            fun _ g4 h4 => ?_
          -- as before, but for what is known about the file
          let g5 : Own P := { g with new := (insert f g.new).erase f, seen := update g.seen f none }
          have h5 : g4 = (g5.ref ip).hold ip h := by
            rw [h4]
            simp only [Own.alloc, Own.close, Own.ref, Own.hold, Multiset.erase_cons_head, g5]
          rw [h5]
          refine wt_mono (openBad_wt (g := g5) ⟨ha, hg.own, hg.cwd⟩ hip hc) fun _ g6 h6 => ?_
          rw [h6]
          exact hi.congr rfl rfl rfl rfl rfl rfl
        · obtain ⟨hfd, hnone, rfl⟩ := h3
          exact openFile_wt hi ha hc hfd hnone

/-! ## Reading and writing -/

def Own.Knows (g g' : Own P) : Prop := ∃ seen, g' = { g with seen := seen }

theorem Own.Idle.knows (hi : g.Idle) (hk : g.Knows g') : g'.Idle := by
  obtain ⟨seen, rfl⟩ := hk
  exact hi.congr rfl rfl rfl rfl rfl rfl

theorem Own.refd_of_look {F : File} {e : Nat} (hf : f ∈ g.frefs) (hF : F.On e) :
    (g.look f F).Refd e :=
  .inr ⟨f, F, hf, update_self .., hF⟩

theorem filestat_wt (hg : g.Ok) (hf : f ∈ g.frefs) : (filestat f).wt rules g fun _ => g.Knows := by
  refine wt_op hg.alive hf fun ff g1 h1 => ?_
  rw [h1.2]
  have hg1 : (g.look f ff).Ok := ⟨hg.alive, hg.own, hg.cwd⟩
  refine wt_ite (fun ht => ?_) fun _ => ⟨_, rfl⟩
  refine wt_seq (ilock_wt hg1 (Own.refd_of_look hf ⟨ht, rfl⟩)) ?_
  rintro _ _ ⟨hnone, h, hc, -, -, rfl⟩
  refine wt_getInode hg.alive fun _ _ _ => ?_
  refine wt_seq (iunlock_wt (g := (g.look f ff).hold ff.ip h) hg.alive Own.hold_held hc)
    fun _ g2 h2 => ?_
  rw [h2, Own.hold_release, Own.release_of_none hnone]
  refine wt_free hg.alive rfl fun ok => ?_
  exact wt_ite (fun _ => ⟨_, rfl⟩) fun _ => ⟨_, rfl⟩

theorem advance_wt (ha : g.proc.stage = .alive) (hf : f ∈ g.frefs) {off : Nat} {r : Int} :
    (advance f off r).wt rules g fun _ g' => g' = g :=
  wt_ite (fun _ => wt_last ha hf fun _ _ hr => hr) fun _ => rfl

theorem fileread_wt (hg : g.Ok) (hf : f ∈ g.frefs) {n : Nat} :
    (fileread f n).wt rules g fun _ => g.Knows := by
  refine wt_op hg.alive hf fun ff g1 h1 => ?_
  rw [h1.2]
  have hg1 : (g.look f ff).Ok := ⟨hg.alive, hg.own, hg.cwd⟩
  refine wt_ite (fun _ => ⟨_, rfl⟩) fun _ => wt_ite (fun _ => ?_) fun _ => wt_ite (fun ht => ?_)
    fun _ => wt_panic hg.alive (by decide)
  · exact wt_free hg.alive rfl fun _ => ⟨_, rfl⟩
  · refine wt_seq (ilock_wt hg1 (Own.refd_of_look hf ⟨.inl ht, rfl⟩)) ?_
    rintro _ _ ⟨hnone, h, hc, -, -, rfl⟩
    refine wt_op hg.alive hf fun ff' g2 h2 => ?_
    rw [h2.2]
    refine wt_skip hg.alive ⟨h, Own.hold_held, hc⟩ (fun _ _ hr => hr) fun r => ?_
    refine wt_seq_eq (advance_wt (g := ((g.look f ff).hold ff.ip h).look f ff') hg.alive hf)
      fun _ => ?_
    refine wt_seq (iunlock_wt (g := ((g.look f ff).hold ff.ip h).look f ff') (h := h) hg.alive
      Own.hold_held hc) fun _ g4 h4 => ?_
    rw [h4, show (((g.look f ff).hold ff.ip h).look f ff').release ff.ip =
        (((g.look f ff).hold ff.ip h).release ff.ip).look f ff' from rfl,
      Own.hold_release, Own.release_of_none hnone]
    exact ⟨_, rfl⟩

theorem writei_wt {e : Nat} (ha : g.proc.stage = .alive) (hp : g.held e = some h) (hc : h.Clean)
    {off n : Nat} : (writei e off n).wt rules g fun _ g' => g.Edits e h g' :=
  wt_op ha ⟨h, hp, hc⟩ fun _ _ hw => written_wt ha hp hc hw

theorem filewriteLoop_wt (hg : g.Ok) (hf : f ∈ g.frefs) {F : File} (hF : g.seen f = some F)
    (hon : F.On ip) {n i j : Nat} : (filewriteLoop f ip n j i).wt rules g fun _ => g.Knows := by
  induction j generalizing g F i with
  | zero => exact ⟨g.seen, rfl⟩
  | succ j ih =>
    refine wt_ite (fun _ => ⟨g.seen, rfl⟩) fun _ => ?_
    refine wt_free hg.alive rfl fun _ => ?_
    refine wt_seq (ilock_wt hg (.inr ⟨f, F, hf, hF, hon⟩)) ?_
    rintro _ _ ⟨hnone, h, hc, -, -, rfl⟩
    refine wt_op hg.alive hf fun ff g1 h1 => ?_
    obtain ⟨hsame, rfl⟩ := h1
    obtain ⟨ht, hip⟩ := hsame hf F hF
    have hon' : ff.On ip := ⟨by rw [ht]; exact hon.1, by rw [hip]; exact hon.2⟩
    refine wt_seq (writei_wt (g := (g.hold ip h).look f ff) hg.alive Own.hold_held hc) ?_
    rintro r _ ⟨h', hc', -, rfl⟩
    refine wt_seq_eq (advance_wt (g := ((g.hold ip h).look f ff).hold ip h') hg.alive hf)
      fun _ => ?_
    refine wt_seq (iunlock_wt (g := ((g.hold ip h).look f ff).hold ip h') hg.alive Own.hold_held hc')
      fun _ g3 h3 => ?_
    rw [h3, Own.hold_release, show ((g.hold ip h).look f ff).release ip =
        ((g.hold ip h).release ip).look f ff from rfl, Own.hold_release, Own.release_of_none hnone]
    refine wt_free hg.alive rfl fun _ => ?_
    refine wt_ite (fun _ => ⟨_, rfl⟩) fun _ => ?_
    refine wt_mono (ih (g := g.look f ff) ⟨hg.alive, hg.own, hg.cwd⟩ hf (update_self ..)
      hon') ?_
    rintro _ _ ⟨seen, rfl⟩
    exact ⟨seen, rfl⟩

theorem filewrite_wt (hg : g.Ok) (hf : f ∈ g.frefs) {n : Nat} :
    (filewrite f n).wt rules g fun _ => g.Knows := by
  refine wt_op hg.alive hf fun ff g1 h1 => ?_
  rw [h1.2]
  refine wt_ite (fun _ => ⟨_, rfl⟩) fun _ => wt_ite (fun _ => ?_) fun _ => wt_ite (fun ht => ?_)
    fun _ => wt_panic hg.alive (by decide)
  · exact wt_free hg.alive rfl fun _ => ⟨_, rfl⟩
  · refine wt_mono (filewriteLoop_wt (g := g.look f ff) ⟨hg.alive, hg.own, hg.cwd⟩ hf
      (update_self ..) ⟨.inl ht, rfl⟩) ?_
    rintro _ _ ⟨seen, rfl⟩
    exact ⟨seen, rfl⟩

theorem sysFile_wt (hi : g.Idle) (ha : g.proc.stage = .alive) {fd : Int} {op : Nat → Code P Int}
    (hop : ∀ f, f ∈ g.frefs → (op f).wt rules g fun _ => g.Knows) :
    (sysFile fd op).wt rules g fun _ => Own.Idle := by
  refine wt_seq (argfd_wt ha) ?_
  rintro (_ | ⟨x, f⟩) g1 ⟨h1, hx⟩
  · rw [h1]
    exact hi
  · rw [h1]
    obtain ⟨hlt, hf⟩ := hx x f rfl
    exact wt_mono (hop f (hi.mem_frefs hlt hf)) fun _ _ hk => hi.knows hk

/-! ## Pipes -/

/-- References to files and what is known about them have changed. -/
def Own.Files (g : Own P) (m : Multiset Nat) (g' : Own P) : Prop :=
  ∃ new seen, g' = { g with frefs := m, new := new, seen := seen }

theorem Own.Files.ok {m : Multiset Nat} (hg : g.Ok) (h : g.Files m g') : g'.Ok := by
  obtain ⟨new, seen, rfl⟩ := h
  exact ⟨hg.alive, hg.own, hg.cwd⟩

theorem Own.Files.idle {m : Multiset Nat} (hi : g.Idle) (hm : m = g.frefs) (h : g.Files m g') :
    g'.Idle := by
  obtain ⟨new, seen, rfl⟩ := h
  exact hi.congr rfl rfl hm rfl rfl rfl

theorem fileclose_files_wt {m : Multiset Nat} (hg : g.Ok) (hheld : ∀ e, g.held e = none)
    (h : g.Files (f ::ₘ m) g') : (fileclose f).wt rules g' fun _ => g.Files m := by
  have hg' := h.ok hg
  obtain ⟨new, seen, rfl⟩ := h
  refine wt_mono (fileclose_wt hg' (Multiset.mem_cons_self f m) fun e k he =>
    absurd ((hheld e).symm.trans he) nofun) ?_
  rintro _ _ rfl
  refine ⟨new.erase f, seen, ?_⟩
  simp only [Own.close, Multiset.erase_cons_head]

theorem closeTwo_wt {α : Type} {m : Multiset Nat} {f0 f1 : Nat} {a : α} (hg : g.Ok)
    (hheld : ∀ e, g.held e = none) (h : g.Files (f1 ::ₘ f0 ::ₘ m) g') :
    (do
      fileclose f0
      fileclose f1
      pure a : Code P α).wt rules g' fun r g' => r = a ∧ g.Files m g' := by
  rw [Multiset.cons_swap] at h
  refine wt_seq (fileclose_files_wt hg hheld h) fun _ g1 h1 => ?_
  exact wt_seq (fileclose_files_wt hg hheld h1) fun _ _ h2 => ⟨rfl, h2⟩

theorem pipealloc_wt (hg : g.Ok) (hheld : ∀ e, g.held e = none) :
    (pipealloc : Code P _).wt rules g fun r g' =>
      match r with
      | none => g.Files g.frefs g'
      | some (f0, f1) => g.Files (f1 ::ₘ f0 ::ₘ g.frefs) g' := by
  refine wt_op hg.alive trivial ?_
  rintro (_ | f0) g1 h1
  · exact ⟨g.new, g.seen, h1⟩
  · obtain ⟨-, rfl⟩ := h1
    refine wt_op hg.alive trivial ?_
    rintro (_ | f1) g2 h2
    · rw [show g2 = _ from h2]
      exact wt_seq (fileclose_files_wt hg hheld ⟨_, _, rfl⟩) fun _ _ h3 => h3
    · obtain ⟨hnot, rfl⟩ := h2
      have hne : f1 ≠ f0 := fun hc => hnot (hc ▸ Multiset.mem_cons_self f0 g.frefs)
      refine wt_op hg.alive trivial ?_
      rintro (_ | pi) g3 h3
      · rw [show g3 = _ from h3]
        refine wt_mono (closeTwo_wt hg hheld ⟨_, _, rfl⟩) ?_
        rintro _ _ ⟨rfl, h4⟩
        exact h4
      · rw [show g3 = _ from h3]
        refine wt_op hg.alive ⟨?_, Multiset.mem_cons_self _ _⟩ fun _ g4 h4 => ?_
        · exact Finset.mem_insert_of_mem (Finset.mem_insert_self f0 g.new)
        rw [show g4 = _ from h4]
        have hends : ((pi, false) ::ₘ (pi, true) ::ₘ g.ends).erase (pi, false) =
            (pi, true) ::ₘ g.ends := Multiset.erase_cons_head ..
        refine wt_op hg.alive ⟨?_, ?_⟩ fun _ g5 h5 => ?_
        · exact Finset.mem_erase.mpr ⟨hne, Finset.mem_insert_self f1 _⟩
        · show (pi, true) ∈ ((pi, false) ::ₘ (pi, true) ::ₘ g.ends).erase (pi, false)
          rw [hends]
          exact Multiset.mem_cons_self _ _
        · refine ⟨g5.new, g5.seen, ?_⟩
          rw [show g5 = _ from h5]
          simp only [Own.dropEnd, Own.fill, Own.alloc, Multiset.erase_cons_head]

theorem pipeBad_wt {f0 f1 : Nat} (hi : g.Idle) (ha : g.proc.stage = .alive)
    (h : g.Files (f1 ::ₘ f0 ::ₘ g.frefs) g') : (pipeBad f0 f1).wt rules g' fun _ => Own.Idle :=
  wt_mono (closeTwo_wt (hi.ok ha) hi.held h) fun _ _ hf => hf.2.idle hi rfl

theorem sysPipe_wt (hi : g.Idle) (ha : g.proc.stage = .alive) :
    (sysPipe : Code P Int).wt rules g fun _ => Own.Idle := by
  refine wt_seq (pipealloc_wt (hi.ok ha) hi.held) ?_
  rintro (_ | ⟨f0, f1⟩) g1 h1
  · exact Own.Files.idle hi rfl h1
  · have h1 : g.Files (f1 ::ₘ f0 ::ₘ g.frefs) g1 := h1
    obtain ⟨new, seen, rfl⟩ := h1
    refine wt_seq (fdalloc_wt ha) ?_
    rintro (_ | fd0) g2 h2
    · rw [show g2 = _ from h2]
      exact pipeBad_wt hi ha ⟨_, _, rfl⟩
    · obtain ⟨hfd0, hnone0, rfl⟩ := h2
      have hnone0 : g.proc.ofile fd0 = none := hnone0
      refine wt_seq (fdalloc_wt ha) ?_
      rintro (_ | fd1) g3 h3
      · rw [show g3 = _ from h3]
        refine wt_op ha hfd0 fun _ g4 h4 => ?_
        refine pipeBad_wt hi ha ⟨new, seen, ?_⟩
        rw [show g4 = _ from h4]
        simp only [Own.setProc, update_idem]
        rw [← hnone0, update_eq_self]
      · obtain ⟨hfd1, hnone1, rfl⟩ := h3
        have hnone1 : update g.proc.ofile fd0 (some f0) fd1 = none := hnone1
        have hne : fd1 ≠ fd0 := by
          rintro rfl
          rw [update_self] at hnone1
          cases hnone1
        rw [update_of_ne hne] at hnone1
        refine wt_free ha rfl fun ok => ?_
        refine wt_ite (fun _ => ?_) fun _ => ?_
        · refine wt_op ha hfd0 fun _ g4 h4 => ?_
          rw [show g4 = _ from h4]
          refine wt_op ha hfd1 fun _ g5 h5 => ?_
          refine pipeBad_wt hi ha ⟨new, seen, ?_⟩
          rw [show g5 = _ from h5]
          have hofile : update (update (update (update g.proc.ofile fd0 (some f0)) fd1 (some f1))
              fd0 none) fd1 none = g.proc.ofile := by
            funext x
            by_cases hx1 : x = fd1
            · subst hx1
              rw [update_self, hnone1]
            · by_cases hx0 : x = fd0
              · subst hx0
                rw [update_of_ne hx1, update_self, hnone0]
              · rw [update_of_ne hx1, update_of_ne hx0, update_of_ne hx1,
                  update_of_ne hx0]
          simp only [Own.setProc, hofile]
        · -- both descriptors stay
          let g4 : Own P := { g with
            proc := { g.proc with ofile := update g.proc.ofile fd0 (some f0) }
            frefs := f0 ::ₘ g.frefs }
          have hi4 : g4.Idle := hi.open hfd0 hnone0 rfl rfl rfl rfl rfl rfl
          have hnone1' : g4.proc.ofile fd1 = none := by
            show update g.proc.ofile fd0 (some f0) fd1 = none
            rw [update_of_ne hne, hnone1]
          exact hi4.open hfd1 hnone1' rfl rfl rfl rfl rfl rfl

/-! ## Processes -/

theorem iputCwd_wt (ha : g.proc.stage = .alive) (hcwd : g.proc.cwd = some ip) (hmem : ip ∈ g.irefs)
    (hheld : ∀ e, g.held e = none) : (iputCwd : Code P Unit).wt rules g fun _ g' => g' = g.drop ip := by
  refine wt_op ha trivial fun q g1 h1 => ?_
  rw [h1.1, h1.2, hcwd]
  exact iput_wt ha hmem fun k hk => absurd ((hheld ip).symm.trans hk) nofun

theorem Own.Idle.irefs_eq (hi : g.Idle) (hcwd : g.proc.cwd = some ip) : g.irefs = {ip} := by
  rw [hi.irefs, Proc.cwdRefs, hcwd]
  rfl

theorem sysChdir_wt (hi : g.Idle) (ha : g.proc.stage = .alive) {path : Option Path} :
    (sysChdir path).wt rules g fun _ => Own.Idle := by
  have hg := hi.ok ha
  refine wt_free ha rfl fun _ => ?_
  have hnamei : (nameiArg path).wt rules g fun r g' =>
      match r with
      | none => g' = g
      | some ip => g' = g.ref ip := by
    cases path with
    | none => rfl
    | some path => exact namei_wt hg
  refine wt_seq hnamei ?_
  rintro (_ | ip) g1 h1
  · rw [show g1 = g from h1]
    exact wt_free ha rfl fun _ => hi
  · rw [show g1 = g.ref ip from h1]
    refine wt_seq (ilock_ref_wt hg) ?_
    rintro _ _ ⟨hnone, h, hc, -, -, rfl⟩
    refine wt_getInode ha fun i _ _ => ?_
    refine wt_ite (fun _ => ?_) fun _ => ?_
    · refine wt_seq_eq (iunlockput_ref_wt hg hnone hc) fun _ => ?_
      exact wt_free ha rfl fun _ => hi
    · refine wt_seq (iunlock_wt (g := (g.ref ip).hold ip h) ha Own.hold_held hc) fun _ g2 h2 => ?_
      rw [h2, Own.hold_release, Own.release_of_none (g := g.ref ip) hnone]
      obtain ⟨old, hcwd⟩ := Option.ne_none_iff_exists'.mp (hi.cwd ha)
      refine wt_seq_eq (iputCwd_wt (g := g.ref ip) ha hcwd
        (Multiset.mem_cons_of_mem (hg.cwd old hcwd)) hi.held) fun _ => ?_
      refine wt_free (g := (g.ref ip).drop old) ha rfl fun _ => ?_
      refine wt_op (g := (g.ref ip).drop old) ha trivial fun _ g4 h4 => ?_
      show g4.Idle
      rw [show g4 = _ from h4]
      refine ⟨?_, hi.frefs, hi.ends, hi.held, hi.child, hi.fds, fun _ => nofun⟩
      show (ip ::ₘ g.irefs).erase old = {ip}
      rw [hi.irefs_eq hcwd, ← Multiset.cons_zero old, Multiset.cons_swap, Multiset.erase_cons_head]
      rfl

theorem execLoad_wt (ha : g.proc.stage = .alive) (hp : g.held ip = some h) (hc : h.Clean) {n : Nat} :
    (execLoad ip n).wt rules g fun _ g' => g' = g := by
  induction n with
  | zero => rfl
  | succ n ih =>
    refine wt_free ha rfl fun off => ?_
    refine wt_free ha rfl fun len => ?_
    refine wt_skip ha ⟨h, hp, hc⟩ (fun _ _ hr => hr) fun r => ?_
    refine wt_free ha rfl fun ok => ?_
    exact wt_ite (fun _ => rfl) fun _ => ih

theorem exec_wt (hg : g.Ok) {path : Path} : (exec' path).wt rules g fun _ g' => g' = g := by
  refine wt_free hg.alive rfl fun _ => ?_
  refine wt_seq (namei_wt hg) ?_
  rintro (_ | ip) g1 h1
  · rw [show g1 = g from h1]
    exact wt_free hg.alive rfl fun _ => rfl
  · rw [show g1 = g.ref ip from h1]
    refine wt_seq (ilock_ref_wt hg) ?_
    rintro _ _ ⟨hnone, h, hc, -, -, rfl⟩
    refine wt_free (g := (g.ref ip).hold ip h) hg.alive rfl fun n => ?_
    refine wt_seq_eq (execLoad_wt (g := (g.ref ip).hold ip h) hg.alive Own.hold_held hc)
      fun _ => ?_
    refine wt_seq_eq (iunlockput_ref_wt hg hnone hc) fun _ => ?_
    refine wt_free hg.alive rfl fun _ => ?_
    refine wt_free hg.alive rfl fun r => ?_
    exact wt_ite (fun _ => rfl) fun _ => rfl

/-- The loop of `fork`: the parent owns what it owned, the child has descriptors below `i`. -/
def Forking (g : Own P) (np : P) (i : Nat) (g' : Own P) : Prop :=
  ∃ new n, n ≤ i ∧ g' = { g with new := new, child := some ⟨np, n, false⟩ }

theorem forkOfile_wt (hi : g.Idle) (ha : g.proc.stage = .alive) {np : P} {i : Nat} (hlt : i < NOFILE)
    (h : Forking g np i g') :
    (forkOfile np g.proc i).wt rules g' fun _ => Forking g np (i + 1) := by
  obtain ⟨new, n, hn, rfl⟩ := h
  unfold forkOfile
  cases hf : g.proc.ofile i with
  | none => exact ⟨new, n, by omega, rfl⟩
  | some f =>
    refine wt_op ha (hi.mem_frefs hlt hf) fun _ g1 h1 => ?_
    rw [show g1 = _ from h1]
    refine wt_last ha ⟨Multiset.mem_cons_self f g.frefs, hi.held, hlt, _, rfl, rfl, hn⟩
      fun _ g2 h2 => ?_
    rw [show g2 = _ from h2]
    refine ⟨(new.erase f).erase f, i + 1, Nat.le_refl _, ?_⟩
    simp only [Own.giveFile, Own.close, Own.dup, Multiset.erase_cons_head, Option.map_some]

theorem fork_wt (hi : g.Idle) (ha : g.proc.stage = .alive) :
    (fork : Code P Int).wt rules g fun _ => Own.Idle := by
  refine wt_op ha hi.child ?_
  rintro (_ | np) g1 h1
  · rw [show g1 = g from h1]
    exact hi
  · rw [show g1 = _ from h1]
    refine wt_op ha trivial fun q g2 h2 => ?_
    rw [h2.1, h2.2]
    have hloop : (Prog.times NOFILE (forkOfile np g.proc)).wt rules
        { g with child := some ⟨np, 0, false⟩ } fun _ => Forking g np NOFILE :=
      wt_times (J := Forking g np) ⟨g.new, 0, Nat.le_refl _, rfl⟩
        fun i g' hlt h => forkOfile_wt hi ha hlt h
    refine wt_seq hloop ?_
    rintro _ _ ⟨new, n, -, rfl⟩
    obtain ⟨ip, hcwd⟩ := Option.ne_none_iff_exists'.mp (hi.cwd ha)
    rw [show ({ g with child := some ⟨np, 0, false⟩ } : Own P).proc.cwd = some ip from hcwd]
    refine wt_op ha ((hi.ok ha).cwd ip hcwd) fun _ g3 h3 => ?_
    rw [show g3 = _ from h3]
    refine wt_op ha ⟨Multiset.mem_cons_self ip g.irefs, hi.held, _, rfl, rfl, rfl⟩ fun _ g4 h4 => ?_
    rw [show g4 = _ from h4]
    refine wt_op ha ⟨_, rfl, rfl, rfl⟩ fun _ g5 h5 => ?_
    rw [show g5 = _ from h5]
    refine wt_free ha rfl fun pid => ?_
    refine hi.congr rfl ?_ rfl rfl rfl hi.child.symm
    show (ip ::ₘ g.irefs).erase ip = g.irefs
    rw [Multiset.erase_cons_head]

def Exiting (i : Nat) (g : Own P) : Prop :=
  g.Idle ∧ g.proc.stage = .alive ∧ ∀ fd, fd < i → g.proc.ofile fd = none

theorem exitClose_wt {i : Nat} (hlt : i < NOFILE) (h : Exiting i g) :
    (exitClose i).wt rules g fun _ => Exiting (i + 1) := by
  obtain ⟨hi, ha, hclosed⟩ := h
  have hg := hi.ok ha
  refine wt_op ha trivial fun q g1 h1 => ?_
  rw [h1.1, h1.2]
  cases hf : g.proc.ofile i with
  | none =>
    refine ⟨hi, ha, fun fd hfd => ?_⟩
    by_cases hfi : fd = i
    · rw [hfi, hf]
    · exact hclosed fd (by omega)
  | some f =>
    refine wt_seq_eq (fileclose_wt hg (hi.mem_frefs hlt hf) fun e k he =>
      absurd ((hi.held e).symm.trans he) nofun) fun _ => ?_
    refine wt_last (g := g.close f) ha hlt fun _ g3 h3 => ?_
    rw [show g3 = _ from h3]
    refine ⟨hi.close hlt hf rfl rfl rfl rfl rfl rfl, ha, fun fd hfd => ?_⟩
    show update g.proc.ofile i none fd = none
    by_cases hfi : fd = i
    · rw [hfi, update_self]
    · rw [update_of_ne hfi]
      exact hclosed fd (by omega)

theorem exit_wt (hi : g.Idle) (ha : g.proc.stage = .alive) :
    (exit : Code P Int).wt rules g fun _ => Own.Idle := by
  have hloop : (Prog.times NOFILE (exitClose : Nat → Code P Unit)).wt rules g
      fun _ => Exiting NOFILE :=
    wt_times (J := Exiting) ⟨hi, ha, nofun⟩ fun i g' hlt h => exitClose_wt hlt h
  refine wt_seq hloop ?_
  rintro _ g1 ⟨hi1, ha1, hclosed⟩
  have hofile : ∀ fd, g1.proc.ofile fd = none := fun fd => by
    by_cases hfd : fd < NOFILE
    · exact hclosed fd hfd
    · exact hi1.fds fd (by omega)
  refine wt_free ha1 rfl fun _ => ?_
  obtain ⟨ip, hcwd⟩ := Option.ne_none_iff_exists'.mp (hi1.cwd ha1)
  refine wt_seq_eq (iputCwd_wt ha1 hcwd ((hi1.ok ha1).cwd ip hcwd) hi1.held) fun _ => ?_
  refine wt_free (g := g1.drop ip) ha1 rfl fun _ => ?_
  refine wt_op (g := g1.drop ip) ha1 trivial fun _ g3 h3 => ?_
  have hdrop : g1.irefs.erase ip = 0 := by
    rw [hi1.irefs_eq hcwd, ← Multiset.cons_zero ip, Multiset.erase_cons_head]
  rw [show g3 = _ from h3]
  let g4 : Own P := (g1.drop ip).setProc fun q => { q with cwd := none }
  show Prog.wt rules _ g4 _
  have hidle : (g4.setProc fun q => { q with stage := .zombie }).Idle :=
    ⟨hdrop, hi1.frefs, hi1.ends, hi1.held, hi1.child, hi1.fds, nofun⟩
  refine wt_op (g := g4) ha1 ⟨hidle, hofile, rfl⟩ fun _ g5 h5 => ?_
  show g5.Idle
  rw [show g5 = _ from h5]
  exact hidle

theorem wait_wt (hi : g.Idle) (ha : g.proc.stage = .alive) :
    (wait : Code P Int).wt rules g fun _ => Own.Idle :=
  wt_free ha rfl fun _ => hi

theorem Call.code_wt (hi : g.Idle) (ha : g.proc.stage = .alive) (c : Call) :
    (c.code : Code P Int).wt rules g fun _ => Own.Idle := by
  have hg := hi.ok ha
  have hsame : ∀ c : Code P Int, (c.wt rules g fun _ g' => g' = g) → c.wt rules g fun _ => Own.Idle :=
    fun c hc => wt_mono hc fun _ g' h => by
      rw [h]
      exact hi
  cases c with
  | dup fd => exact sysDup_wt hi ha
  | read fd n => exact sysFile_wt hi ha fun f hf => fileread_wt hg hf
  | write fd n => exact sysFile_wt hi ha fun f hf => filewrite_wt hg hf
  | close fd => exact sysClose_wt hi ha
  | fstat fd => exact sysFile_wt hi ha fun f hf => filestat_wt hg hf
  | link old new => exact hsame _ (sysLink_wt hg)
  | unlink path => exact hsame _ (sysUnlink_wt hg)
  | «open» path omode => exact sysOpen_wt hi ha
  | mkdir | mknod => exact hsame _ (mkNode_wt hg (by decide))
  | chdir path => exact sysChdir_wt hi ha
  | exec path => exact hsame _ (exec_wt hg)
  | pipe => exact sysPipe_wt hi ha
  | fork => exact fork_wt hi ha
  | exit => exact exit_wt hi ha
  | wait => exact wait_wt hi ha

end Xv6Freezer.Files
