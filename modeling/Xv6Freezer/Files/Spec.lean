import Xv6Freezer.Files.Own

/-! # What the code does to the record of its process: inodes and directories

The record with which every function of `fs.c`, `create` and the system calls on paths end: each of them, on
every branch, drops exactly the references and locks that it has taken.
-/

namespace Xv6Freezer.Files

open Lib Prog Function

variable {P : Type} {α β : Type} {g g' : Own P} {e ip dp : Nat} {h : Held}

/-! ## Sequencing -/

theorem wt_seq {c : Code P α} {k : α → Code P β} {Q : α → Own P → Prop} {Q' : β → Own P → Prop}
    (hc : c.wt rules g Q) (hk : ∀ a g', Q a g' → (k a).wt rules g' Q') :
    (c >>= k).wt rules g Q' :=
  wt_bind.mpr (wt_mono hc hk)

theorem wt_seq_eq {c : Code P α} {k : α → Code P β} {Q : β → Own P → Prop}
    (hc : c.wt rules g fun _ g1 => g1 = g') (hk : ∀ a, (k a).wt rules g' Q) : (c >>= k).wt rules g Q :=
  wt_seq hc fun a _ e => e ▸ hk a

/-- The operation needs nothing and leaves the record alone. -/
def Op.isFree : Op P → Bool
  | .begin_op | .end_op | .ask | .bfree | .getInd _ _ | .getNinodes | .reap => true
  | _ => false

section Operations

variable {o : Op P} {k : Res o → Code P β} {look : Inode P → Code P β} {next : Unit → Code P β}
  {Q : β → Own P → Prop} {R : Res o → Own P → Prop} {msg : String} {f : Dinode → Dinode}
  (ha : g.proc.stage = .alive)

include ha

theorem wt_op (hn : needs o g) (hk : ∀ r g', gives o g r g' → (k r).wt rules g' Q) :
    (atomic o >>= k).wt rules g Q :=
  wt_seq (wt_exec.mpr ⟨⟨ha, hn⟩, fun _ _ hg => hg⟩) hk

theorem wt_last (hn : needs o g) (hk : ∀ r g', gives o g r g' → R r g') :
    (atomic o : Code P (Res o)).wt rules g R :=
  wt_exec.mpr ⟨⟨ha, hn⟩, hk⟩

theorem wt_panic (hmsg : msg ∉ refPanics) : (panic msg : Code P β).wt rules g Q :=
  ⟨⟨ha, hmsg⟩, fun r => r.elim⟩

theorem wt_skip (hn : needs o g) (hs : ∀ r g', gives o g r g' → g' = g)
    (hk : ∀ r, (k r).wt rules g Q) : (atomic o >>= k).wt rules g Q :=
  wt_op ha hn fun r g' hr => by
    rw [hs r g' hr]
    exact hk r

theorem wt_free (ho : o.isFree = true) (hk : ∀ r, (k r).wt rules g Q) : (atomic o >>= k).wt rules g Q := by
  have hs : needs o g ∧ ∀ r g', gives o g r g' → g' = g := by
    cases o <;> first | exact ⟨trivial, fun _ _ hr => hr⟩ | cases ho
  exact wt_skip ha hs.1 hs.2 hk

theorem wt_getInode (hk : ∀ i : Inode P, (e ∈ g.irefs → i.dev = ROOTDEV) →
      (∀ h, g.held e = some h → i.valid = h.valid ∧ (h.valid = true → i.d = h.d)) →
      (look i).wt rules g Q) : (atomic (.getInode e) >>= look).wt rules g Q :=
  wt_op ha trivial fun i g' hr => by
    rw [hr.1]
    exact hk i hr.2.1 hr.2.2

variable (hp : g.held e = some h) (hv : h.valid = true)

include hp hv

theorem wt_setInode (hk : (next ()).wt rules (g.hold e { h with d := f h.d }) Q) :
    (atomic (.setInode e f) >>= next).wt rules g Q :=
  wt_op ha ⟨h, hp, hv⟩ fun _ g' hr => by
    obtain ⟨h', hp', rfl⟩ := hr
    rw [hp] at hp'
    cases hp'
    exact hk

theorem wt_iupdate (ht : h.disk.type ≠ .none)
    (hk : (next ()).wt rules (g.hold e { h with disk := h.d }) Q) :
    (atomic (.iupdate e) >>= next).wt rules g Q :=
  wt_op ha ⟨h, hp, hv, ht⟩ fun _ g' hr => by
    obtain ⟨h', hp', rfl⟩ := hr
    rw [hp] at hp'
    cases hp'
    exact hk

theorem wt_clearValid (ht : h.disk.type = .none)
    (hk : (next ()).wt rules (g.hold e { h with valid := false }) Q) :
    (atomic (.clearValid e) >>= next).wt rules g Q :=
  wt_op ha ⟨h, hp, hv, ht⟩ fun _ g' hr => by
    obtain ⟨h', hp', rfl⟩ := hr
    rw [hp] at hp'
    cases hp'
    exact hk

end Operations

theorem wt_of_bind_pure {c : Code P α} {Q : α → Own P → Prop}
    (h : (c >>= pure).wt rules g Q) : c.wt rules g Q := by
  rwa [bind_pure] at h

/-! ## Records -/

namespace Own

/-- A process in a system call: it is alive, and refers to its directory and to the inodes it holds. -/
structure Ok (g : Own P) : Prop where
  alive : g.proc.stage = .alive
  own : ∀ e h, g.held e = some h → h.via = .own → e ∈ g.irefs
  cwd : ∀ ip, g.proc.cwd = some ip → ip ∈ g.irefs

theorem Ok.ref (hg : g.Ok) : (g.ref e).Ok :=
  ⟨hg.alive, fun x h hx hv => Multiset.mem_cons_of_mem (hg.own x h hx hv),
    fun x hx => Multiset.mem_cons_of_mem (hg.cwd x hx)⟩

theorem Ok.hold (hg : g.Ok) (hv : h.via = .own → e ∈ g.irefs) : (g.hold e h).Ok := by
  refine ⟨hg.alive, fun x k hx hk => ?_, hg.cwd⟩
  by_cases hxe : x = e
  · subst hxe
    simp only [Own.hold, update_self, Option.some.injEq] at hx
    exact hv (hx ▸ hk)
  · rw [show (g.hold e h).held x = g.held x from update_of_ne hxe _ _] at hx
    exact hg.own x k hx hk

@[simp] theorem hold_held : (g.hold e h).held e = some h := update_self ..

theorem hold_held_of_ne {x : Nat} (hx : x ≠ e) : (g.hold e h).held x = g.held x :=
  update_of_ne hx _ _

@[simp] theorem hold_hold {k : Held} : (g.hold e h).hold e k = g.hold e k := by
  simp only [Own.hold, update_idem]

@[simp] theorem hold_release : (g.hold e h).release e = g.release e := by
  simp only [Own.hold, Own.release, update_idem]

@[simp] theorem release_held : (g.release e).held e = none := update_self ..

theorem release_of_none (h : g.held e = none) : g.release e = g := by
  rw [Own.release, ← h, update_eq_self]

theorem hold_of_some (hp : g.held e = some h) : g.hold e h = g := by
  rw [Own.hold, ← hp, update_eq_self]

@[simp] theorem ref_drop : (g.ref e).drop e = g := by
  simp only [Own.ref, Own.drop, Multiset.erase_cons_head]

theorem ref_ref_drop {x : Nat} : ((g.ref e).ref x).drop e = g.ref x := by
  have hx : (x ::ₘ e ::ₘ g.irefs).erase e = x ::ₘ g.irefs := by
    rw [Multiset.cons_swap, Multiset.erase_cons_head]
  simp only [Own.ref, Own.drop, hx]

end Own

/-- The inode is locked, as `ilock` leaves it. -/
def Own.Locks (g : Own P) (e : Nat) (g' : Own P) : Prop :=
  g.held e = none ∧ ∃ h : Held, h.Clean ∧ (e ∈ g.irefs → h.via = .own) ∧
    (h.via = .own → e ∈ g.irefs) ∧ g' = g.hold e h

/-- The holder has changed the inode and written it back. -/
def Own.Edits (g : Own P) (e : Nat) (h : Held) (g' : Own P) : Prop :=
  ∃ h' : Held, h'.Clean ∧ h'.via = h.via ∧ g' = g.hold e h'

theorem Own.Edits.refl (hp : g.held e = some h) (hc : h.Clean) : g.Edits e h g :=
  ⟨h, hc, rfl, (Own.hold_of_some hp).symm⟩

/-! ## Inodes -/

theorem ilock_wt (hg : g.Ok) (he : g.Refd e) : (ilock e).wt rules g fun _ g' => g.Locks e g' := by
  refine wt_skip hg.alive he (fun _ _ hr => hr) fun _ => ?_
  refine wt_op hg.alive he ?_
  rintro _ _ ⟨hnone, h, rfl, hclean, hvia, hown⟩
  refine wt_getInode hg.alive fun i _ hi => ?_
  have hi := hi h Own.hold_held
  refine wt_ite (fun hv => ?_) fun hv => ?_
  · exact ⟨hnone, h, hclean (hi.1 ▸ hv), hvia, hown, rfl⟩
  · have hv' : h.valid = false := by
      rw [← hi.1]
      exact Bool.not_eq_true _ ▸ hv
    refine wt_op hg.alive ⟨h, Own.hold_held, hv'⟩ ?_
    rintro _ _ ⟨h0, k, hp, rfl, hkvia, hkv, -, hkclean⟩
    obtain rfl := Option.some.inj (Own.hold_held.symm.trans hp)
    rw [Own.hold_hold]
    refine wt_getInode hg.alive fun j _ hj => ?_
    have hj := (hj k Own.hold_held).2 hkv
    refine wt_ite (fun _ => wt_panic hg.alive (by decide)) fun ht => ?_
    exact ⟨hnone, k, hkclean (hj ▸ ht), fun hm => hkvia.trans (hvia hm),
      fun hm => hown (hkvia ▸ hm), rfl⟩

/-- A locked inode that is being emptied. -/
def Emptying (g : Own P) (e : Nat) (h : Held) (g' : Own P) : Prop :=
  ∃ addrs : Nat → Nat, g' = g.hold e { h with d := { h.d with addrs := addrs } }

theorem itruncAddr_wt (ha : g.proc.stage = .alive) (hv : h.valid = true) {i : Nat}
    (he : Emptying g e h g') : (itruncAddr e i).wt rules g' fun _ => Emptying g e h := by
  obtain ⟨addrs, rfl⟩ := he
  refine wt_getInode ha fun ino _ _ => ?_
  refine wt_ite (fun _ => ?_) fun _ => ⟨addrs, rfl⟩
  refine wt_free ha rfl fun _ => ?_
  refine wt_of_bind_pure (wt_setInode ha Own.hold_held hv ?_)
  rw [Own.hold_hold]
  exact ⟨_, rfl⟩

theorem itruncSlot_wt (ha : g.proc.stage = .alive) {j : Nat} :
    (itruncSlot e j).wt rules g fun _ g' => g' = g := by
  refine wt_free ha rfl fun b => ?_
  exact wt_ite (fun _ => wt_last ha trivial fun _ _ hr => hr) fun _ => rfl

theorem itruncRest_wt (ha : g.proc.stage = .alive) (hv : h.valid = true) (he : Emptying g e h g') :
    (itruncRest e).wt rules g' fun _ => Emptying g e h := by
  have ha' : g'.proc.stage = .alive := by
    obtain ⟨addrs, rfl⟩ := he
    exact ha
  refine wt_getInode ha' fun ino _ _ => ?_
  refine wt_ite (fun _ => ?_) fun _ => he
  have hloop : (Prog.times NINDIRECT (itruncSlot e)).wt rules g' fun _ => Emptying g e h :=
    wt_times (J := fun _ => Emptying g e h) he fun i g1 _ hi => by
      have ha1 : g1.proc.stage = .alive := by
        obtain ⟨addrs, rfl⟩ := hi
        exact ha
      refine wt_mono (itruncSlot_wt ha1) ?_
      rintro _ _ rfl
      exact hi
  exact wt_seq hloop fun _ g1 h1 => itruncAddr_wt ha hv h1

theorem itrunc_wt (ha : g.proc.stage = .alive) (hp : g.held e = some h) (hc : h.Clean) :
    (itrunc e).wt rules g fun _ g' => ∃ h' : Held, h'.Clean ∧ h'.via = h.via ∧
      h'.d.nlink = h.d.nlink ∧ h'.d.type = h.d.type ∧ g' = g.hold e h' := by
  have h0 : Emptying g e h g := ⟨h.d.addrs, (Own.hold_of_some hp).symm⟩
  have hloop : (Prog.times NDIRECT (itruncAddr e)).wt rules g fun _ => Emptying g e h :=
    wt_times (J := fun _ => Emptying g e h) h0 fun i g' _ hi => itruncAddr_wt ha hc.valid hi
  refine wt_seq hloop fun _ g1 h1 => ?_
  refine wt_seq (itruncRest_wt ha hc.valid h1) ?_
  rintro _ _ ⟨addrs, rfl⟩
  refine wt_setInode ha Own.hold_held hc.valid ?_
  rw [Own.hold_hold]
  refine wt_of_bind_pure (wt_iupdate ha Own.hold_held hc.valid (hc.disk ▸ hc.type) ?_)
  rw [Own.hold_hold]
  refine ⟨_, ?_, ?_, ?_, ?_, rfl⟩
  · exact ⟨hc.valid, rfl, hc.type, Dinode.full_of_size rfl _⟩
  · rfl
  · rfl
  · rfl

theorem iput_wt (ha : g.proc.stage = .alive) (he : e ∈ g.irefs)
    (hown : ∀ h, g.held e = some h → h.via = .own → e ∈ g.irefs.erase e) :
    (iput e).wt rules g fun _ g' => g' = g.drop e := by
  refine wt_op ha ⟨he, hown⟩ ?_
  rintro last g1 ⟨htrue, hfalse⟩
  refine wt_ite (fun hl => ?_) fun hl => hfalse (Bool.not_eq_true _ ▸ hl)
  obtain ⟨hnone, h, rfl, hc, -⟩ := htrue hl
  refine wt_seq (itrunc_wt ha Own.hold_held hc) ?_
  rintro _ _ ⟨h', hc', -, -, -, rfl⟩
  rw [Own.hold_hold]
  refine wt_setInode ha Own.hold_held hc'.valid ?_
  rw [Own.hold_hold]
  refine wt_iupdate ha Own.hold_held hc'.valid (hc'.disk ▸ hc'.type) ?_
  rw [Own.hold_hold]
  refine wt_clearValid ha Own.hold_held hc'.valid rfl ?_
  rw [Own.hold_hold]
  refine wt_op ha ⟨_, Own.hold_held, nofun⟩ ?_
  rintro _ _ rfl
  rw [Own.hold_release, Own.release_of_none hnone]
  exact wt_last ha ⟨he, hnone⟩ fun _ _ hr => hr

theorem iput_ref_wt (hg : g.Ok) : (iput e).wt rules (g.ref e) fun _ g' => g' = g := by
  refine wt_mono (iput_wt (g := g.ref e) hg.alive (Multiset.mem_cons_self e g.irefs)
    fun h hp hv => ?_) ?_
  · rw [show (g.ref e).irefs = e ::ₘ g.irefs from rfl, Multiset.erase_cons_head]
    exact hg.own e h hp hv
  · rintro _ _ rfl
    exact Own.ref_drop

theorem iunlock_wt (ha : g.proc.stage = .alive) (hp : g.held e = some h) (hc : h.Clean) :
    (atomic (.iunlock e) : Code P Unit).wt rules g fun _ g' => g' = g.release e :=
  wt_last ha ⟨h, hp, fun _ => hc⟩ fun _ _ hr => hr

theorem iunlockput_wt (ha : g.proc.stage = .alive) (hp : g.held e = some h) (hc : h.Clean)
    (he : e ∈ g.irefs) : (iunlockput e).wt rules g fun _ g' => g' = (g.release e).drop e := by
  refine wt_seq (iunlock_wt ha hp hc) ?_
  rintro _ _ rfl
  refine iput_wt (g := g.release e) ha he fun k hk => ?_
  rw [Own.release_held] at hk
  cases hk

theorem iallocLoop_wt (ha : g.proc.stage = .alive) {type : FileType} (ht : type ≠ .none)
    {n inum : Nat} : (iallocLoop ROOTDEV type n inum).wt rules g fun r g' =>
      match r with
      | none => g' = g
      | some ip => g' = g.ref ip := by
  induction n generalizing inum with
  | zero => rfl
  | succ n ih =>
    refine wt_skip ha ht (fun _ _ hr => hr) fun free => ?_
    refine wt_ite (fun _ => ?_) fun _ => ih
    refine wt_op ha rfl ?_
    rintro ip _ rfl
    rfl

theorem written_wt (ha : g.proc.stage = .alive) (hp : g.held e = some h) (hc : h.Clean) {r : Int}
    (hw : (r = -1 → g' = g) ∧
      (r ≠ -1 → ∃ h h', g.held e = some h ∧ g' = g.hold e h' ∧ h.Written h')) :
    (if r = (-1 : Int) then pure (-1) else do
      atomic (.iupdate e)
      pure r : Code P Int).wt rules g' fun _ g'' => g.Edits e h g'' := by
  refine wt_ite (fun hr => ?_) fun hr => ?_
  · rw [hw.1 hr]
    exact .refl hp hc
  · obtain ⟨h0, h', hp', rfl, addrs, ind, size, slot, rfl, hfull⟩ := hw.2 hr
    rw [hp] at hp'
    cases hp'
    refine wt_iupdate ha Own.hold_held hc.valid (hc.disk ▸ hc.type) ?_
    rw [Own.hold_hold]
    refine ⟨_, ?_, ?_, rfl⟩
    · exact ⟨hc.valid, rfl, hc.type, hfull⟩
    · rfl

/-! ## Directories -/

def Found (g : Own P) : Option (Nat × α) → Own P → Prop
  | none, g' => g' = g
  | some (ip, _), g' => g' = g.ref ip

/-- What `dirlookup` returns: the offset is that of an entry. -/
def FoundAt (g : Own P) (r : Option (Nat × Nat)) (g' : Own P) : Prop :=
  Found g r g' ∧ ∀ x, r = some x → DIRENT ∣ x.2

section Locked

variable (ha : g.proc.stage = .alive) (hp : g.held dp = some h) (hc : h.Clean)

include ha hp hc

theorem dirlookupLoop_wt {name : Name} {n off : Nat} (hoff : DIRENT ∣ off) :
    (dirlookupLoop dp ROOTDEV name n off).wt rules g fun r g' => FoundAt g r g' := by
  induction n generalizing off with
  | zero => exact ⟨rfl, nofun⟩
  | succ n ih =>
    refine wt_skip ha ⟨h, hp, hc⟩ (fun _ _ hr => hr.1) fun de => ?_
    cases de with
    | none => exact wt_panic ha (by decide)
    | some de =>
      refine wt_ite (fun _ => ?_) fun _ => ih (Nat.dvd_add hoff (Nat.dvd_refl DIRENT))
      refine wt_op ha rfl fun ip g1 h1 => ⟨h1, fun x hx => ?_⟩
      cases hx
      exact hoff

theorem dirlookup_wt (hdp : dp ∈ g.irefs) {name : Name} :
    (dirlookup dp name).wt rules g fun r g' => FoundAt g r g' := by
  refine wt_getInode ha fun d hdev _ => ?_
  refine wt_ite (fun _ => wt_panic ha (by decide)) fun _ => ?_
  rw [hdev hdp]
  exact dirlookupLoop_wt ha hp hc (Nat.dvd_zero DIRENT)

theorem dirlinkLoop_wt {n off : Nat} (hoff : DIRENT ∣ off) :
    (dirlinkLoop dp n off).wt rules g fun r g' => g' = g ∧ DIRENT ∣ r := by
  induction n generalizing off with
  | zero => exact ⟨rfl, hoff⟩
  | succ n ih =>
    refine wt_skip ha ⟨h, hp, hc⟩ (fun _ _ hr => hr.1) fun de => ?_
    cases de with
    | none => exact wt_panic ha (by decide)
    | some de =>
      refine wt_ite (fun _ => ⟨rfl, hoff⟩) fun _ => ih ?_
      exact Nat.dvd_add hoff (Nat.dvd_refl DIRENT)

theorem writeDirent_wt {off inum : Nat} {name : Name} (hoff : DIRENT ∣ off) :
    (writeDirent dp off inum name).wt rules g fun _ g' => g.Edits dp h g' :=
  wt_op ha ⟨hoff, h, hp, hc⟩ fun _ _ hw => written_wt ha hp hc hw

theorem isdiremptyLoop_wt {n off : Nat} :
    (isdiremptyLoop dp n off).wt rules g fun _ g' => g' = g := by
  induction n generalizing off with
  | zero => rfl
  | succ n ih =>
    refine wt_skip ha ⟨h, hp, hc⟩ (fun _ _ hr => hr.1) fun de => ?_
    cases de with
    | none => exact wt_panic ha (by decide)
    | some de => exact wt_ite (fun _ => rfl) fun _ => ih

theorem isdirempty_wt : (isdirempty dp).wt rules g fun _ g' => g' = g :=
  wt_getInode ha fun _ _ _ => isdiremptyLoop_wt ha hp hc

end Locked

theorem dirlink_wt (hg : g.Ok) (hp : g.held dp = some h) (hc : h.Clean) (hdp : dp ∈ g.irefs)
    {name : Name} {inum : Nat} :
    (dirlink dp name inum).wt rules g fun _ g' => g.Edits dp h g' := by
  refine wt_seq (dirlookup_wt hg.alive hp hc hdp) ?_
  rintro (_ | ⟨ip, off⟩) g1 ⟨h1, -⟩
  · rw [show g1 = g from h1]
    refine wt_getInode hg.alive fun d _ _ => ?_
    refine wt_seq (dirlinkLoop_wt hg.alive hp hc (Nat.dvd_zero DIRENT)) ?_
    rintro off g2 ⟨h2, hoff⟩
    rw [h2]
    refine wt_seq (writeDirent_wt hg.alive hp hc hoff) fun r g3 h3 => ?_
    exact wt_ite (fun _ => h3) fun _ => h3
  · rw [show g1 = g.ref ip from h1]
    refine wt_seq_eq (iput_ref_wt hg) fun _ => ?_
    exact .refl hp hc

/-! ## Paths -/

theorem iunlockput_ref_wt (hg : g.Ok) (hnone : g.held e = none) (hc : h.Clean) :
    (iunlockput e).wt rules ((g.ref e).hold e h) fun _ g' => g' = g := by
  refine wt_mono (iunlockput_wt (g := (g.ref e).hold e h) hg.alive Own.hold_held hc
    (Multiset.mem_cons_self e g.irefs)) ?_
  rintro _ _ rfl
  rw [Own.hold_release, Own.release_of_none (g := g.ref e) hnone, Own.ref_drop]

theorem namexEnd_wt (hg : g.Ok) {parent : Bool} {name : Name} :
    (namexEnd parent ip name).wt rules (g.ref ip) fun r g' => Found g r g' := by
  refine wt_ite (fun _ => ?_) fun _ => rfl
  exact wt_seq (iput_ref_wt hg) fun _ _ hr => hr

theorem namexLoop_wt (hg : g.Ok) {parent : Bool} {n : Nat} {path : Path} {name : Name} :
    (namexLoop parent n ip path name).wt rules (g.ref ip) fun r g' => Found g r g' := by
  induction n generalizing ip path name with
  | zero => exact namexEnd_wt hg
  | succ n ih =>
    unfold namexLoop
    cases skipelem path with
    | none => exact namexEnd_wt hg
    | some ns =>
      have hmem : ip ∈ (g.ref ip).irefs := Multiset.mem_cons_self ip g.irefs
      refine wt_seq (ilock_wt hg.ref (.inl hmem)) ?_
      rintro _ _ ⟨hnone, h, hc, hvia, -, rfl⟩
      refine wt_getInode hg.alive fun i _ _ => ?_
      refine wt_ite (fun _ => ?_) fun _ => wt_ite (fun _ => ?_) fun _ => ?_
      · exact wt_seq (iunlockput_ref_wt hg hnone hc) fun _ _ hr => hr
      · refine wt_seq (iunlock_wt hg.alive Own.hold_held hc) fun _ g1 h1 => ?_
        show g1 = g.ref ip
        rw [h1, Own.hold_release, Own.release_of_none hnone]
      · refine wt_seq (dirlookup_wt (g := (g.ref ip).hold ip h) hg.alive Own.hold_held hc hmem) ?_
        rintro (_ | ⟨next, off⟩) g1 ⟨h1, -⟩
        · rw [show g1 = (g.ref ip).hold ip h from h1]
          exact wt_seq (iunlockput_ref_wt hg hnone hc) fun _ _ hr => hr
        · rw [show g1 = ((g.ref ip).hold ip h).ref next from h1]
          refine wt_seq (iunlockput_wt (g := ((g.ref ip).hold ip h).ref next) (h := h) hg.alive
            Own.hold_held hc (Multiset.mem_cons_of_mem hmem)) fun _ g2 h2 => ?_
          rw [h2, show (((g.ref ip).hold ip h).ref next).release ip =
              (((g.ref ip).hold ip h).release ip).ref next from rfl,
            Own.hold_release, Own.release_of_none hnone, Own.ref_ref_drop]
          exact ih

theorem idupCwd_wt (hg : g.Ok) : (idupCwd : Code P Nat).wt rules g fun ip g' => g' = g.ref ip := by
  refine wt_op hg.alive trivial fun p g1 h1 => ?_
  rw [h1.1, h1.2]
  cases hcwd : g.proc.cwd with
  | none => exact wt_panic hg.alive (by decide)
  | some ip =>
    exact wt_op hg.alive (hg.cwd ip hcwd) fun _ _ hr => hr

theorem namexStart_wt (hg : g.Ok) {path : Path} :
    (namexStart path).wt rules g fun ip g' => g' = g.ref ip :=
  wt_ite (fun _ => wt_last hg.alive rfl fun _ _ hr => hr) fun _ => idupCwd_wt hg

/-- **`namex`** returns nothing, or one reference, and holds no lock. -/
theorem namex_wt (hg : g.Ok) {path : Path} {parent : Bool} :
    (namex path parent).wt rules g fun r g' => Found g r g' := by
  refine wt_seq (namexStart_wt hg) ?_
  rintro ip _ rfl
  exact namexLoop_wt hg

theorem namei_wt (hg : g.Ok) {path : Path} : (namei path).wt rules g fun r g' =>
    match r with
    | none => g' = g
    | some ip => g' = g.ref ip := by
  refine wt_seq (namex_wt hg) ?_
  rintro (_ | ⟨ip, name⟩) g1 h1
  · exact h1
  · exact h1

end Xv6Freezer.Files
