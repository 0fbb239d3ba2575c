import Xv6Freezer.Files.Inv

/-! # References to inodes and files, and the ends of pipes

How the parts of the invariant that count references change when a process takes, drops or hands on a
reference, and when a file gets its contents or loses them. -/

namespace Xv6Freezer.Files

open Lib
open Function (update update_self update_of_ne update_eq_self forall_update_iff)

variable {P : Type} [DecidableEq P]

/-! ## Files that look the same -/

/-- Two contents of a file that refer to the same thing. -/
structure File.Same (F F' : File) : Prop where
  type : F'.type = F.type
  ip : F'.ip = F.ip
  pipe : F'.pipe = F.pipe
  writable : F'.writable = F.writable

theorem File.Same.on {F F' : File} (h : F.Same F') (e : Nat) : F'.On e ↔ F.On e := by
  unfold File.On
  rw [h.type, h.ip]

theorem File.Same.end {F F' : File} (h : F.Same F') (pi : Nat) (w : Bool) :
    F'.End pi w ↔ F.End pi w := by
  unfold File.End
  rw [h.type, h.pipe, h.writable]

section Counts

variable {φ : File → Prop} [DecidablePred φ] {file file' : Nat → File} {f : Nat} {F : File}

theorem countFiles_congr (h : ∀ f, φ (file' f) ↔ φ (file f)) :
    countFiles file' φ = countFiles file φ := by
  unfold countFiles
  simp only [h]

theorem countFiles_update_same (h : φ F ↔ φ (file f)) :
    countFiles (update file f F) φ = countFiles file φ := by
  refine countFiles_congr fun g => ?_
  by_cases hg : g = f
  · subst hg
    rw [update_self, h]
  · rw [update_of_ne hg]

theorem countFiles_update_pos (hf : f < NFILE) (h : ¬ φ (file f)) (h' : φ F) :
    countFiles (update file f F) φ = countFiles file φ + 1 := by
  have := countFiles_update φ file F hf
  simp only [h, h', if_true, if_false] at this
  omega

theorem countFiles_update_neg (hf : f < NFILE) (h : φ (file f)) (h' : ¬ φ F) :
    countFiles (update file f F) φ + 1 = countFiles file φ := by
  have := countFiles_update φ file F hf
  simp only [h, h', if_true, if_false] at this
  omega

end Counts

section Members

variable {α : Type} [DecidableEq α] {m : P → Multiset α} {p q : P} {a b : α}

omit [DecidableEq α] in
theorem mem_update_cons : b ∈ update m p (a ::ₘ m p) q ↔ q = p ∧ b = a ∨ b ∈ m q := by
  by_cases hqp : q = p
  · subst hqp
    simp
  · simp [hqp]

theorem mem_of_mem_update_erase (hb : b ∈ update m p ((m p).erase a) q) : b ∈ m q := by
  by_cases hqp : q = p
  · subst hqp
    rw [update_self] at hb
    exact Multiset.mem_of_mem_erase hb
  · rwa [update_of_ne hqp] at hb

theorem mem_update_erase (hne : q = p → b ≠ a) (hb : b ∈ m q) : b ∈ update m p ((m p).erase a) q := by
  by_cases hqp : q = p
  · subst hqp
    rw [update_self]
    exact (Multiset.mem_erase_of_ne (hne rfl)).mpr hb
  · rwa [update_of_ne hqp]

end Members

/-! ## References to inodes -/

section Irefs

variable [Fintype P] {ref : Nat → Int} {file : Nat → File} {irefs : P → Multiset Nat} {p : P}
  {e f : Nat} {F : File}

theorem IrefInv.add (h : IrefInv ref file irefs) :
    IrefInv (update ref e (ref e + 1)) file (update irefs p (e ::ₘ irefs p)) := by
  intro x
  by_cases hx : x = e
  · subst hx
    rw [update_self, total_cons, h x]
    omega
  · rw [update_of_ne hx, total_cons_of_ne hx]
    exact h x

theorem IrefInv.drop (h : IrefInv ref file irefs) (he : e ∈ irefs p) :
    IrefInv (update ref e (ref e - 1)) file (update irefs p ((irefs p).erase e)) := by
  intro x
  by_cases hx : x = e
  · subst hx
    have ht := total_erase he
    rw [update_self, h x]
    omega
  · rw [update_of_ne hx, total_erase_of_ne hx]
    exact h x

omit [DecidableEq P] in
theorem IrefInv.same (h : IrefInv ref file irefs) (hF : ∀ e, F.On e ↔ (file f).On e) :
    IrefInv ref (update file f F) irefs := by
  intro x
  rw [countFiles_update_same (hF x)]
  exact h x

theorem IrefInv.fill (h : IrefInv ref file irefs) (hf : f < NFILE) (he : e ∈ irefs p)
    (h0 : (file f).type = .none) (hF : F.On e) :
    IrefInv ref (update file f F) (update irefs p ((irefs p).erase e)) := by
  intro x
  have hnot : ¬ (file f).On x := fun hon => hon.type_ne h0
  by_cases hx : x = e
  · subst hx
    have ht := total_erase he
    rw [countFiles_update_pos hf hnot hF, h x]
    omega
  · have hFx : ¬ F.On x := fun hon => hx (hon.2.symm.trans hF.2)
    rw [countFiles_update_same (iff_of_false hFx hnot), total_erase_of_ne hx]
    exact h x

theorem IrefInv.unfill (h : IrefInv ref file irefs) (hf : f < NFILE) (hon : (file f).On e)
    (hF : F.type = .none) :
    IrefInv ref (update file f F) (update irefs p (e ::ₘ irefs p)) := by
  intro x
  have hnot : ∀ x, ¬ F.On x := fun _ hon => hon.type_ne hF
  by_cases hx : x = e
  · subst hx
    have hc := countFiles_update_neg (φ := (File.On · x)) hf hon (hnot x)
    rw [total_cons, h x]
    omega
  · have hfx : ¬ (file f).On x := fun hon' => hx (hon'.2.symm.trans hon.2)
    rw [countFiles_update_same (iff_of_false (hnot x) hfx), total_cons_of_ne hx]
    exact h x

end Irefs

/-! ## References to files -/

section Frefs

variable [Fintype P] {file : Nat → File} {frefs : P → Multiset Nat} {new : P → Finset Nat}
  {seen : P → Nat → Option File} {p q : P} {f : Nat} {F : File}

theorem FileInv.new_uniq (h : FileInv file frefs new seen) (hp : f ∈ new p) (hq : f ∈ frefs q) :
    p = q := by
  by_contra hpq
  obtain ⟨hmem, hone, -⟩ := h.new p f hp
  have h2 := two_le_total hpq hmem hq
  have h3 := h.ref f
  omega

theorem FileInv.new_erase (h : FileInv file frefs new seen) (hp : f ∈ frefs p) {g : Nat}
    (hq : g ∈ update new p ((new p).erase f) q) : g ≠ f ∧ g ∈ new q := by
  by_cases hqp : q = p
  · subst hqp
    rw [update_self] at hq
    exact Finset.mem_erase.mp hq
  · rw [update_of_ne hqp] at hq
    exact ⟨fun hg => hqp (h.new_uniq (hg ▸ hq) hp), hq⟩

omit [DecidableEq P] in
theorem FileInv.set {frefs' : P → Multiset Nat} {new' : P → Finset Nat} {seen' : P → Nat → Option File}
    (h : FileInv file frefs new seen) (href : F.ref = total frefs' f)
    (hrefs : ∀ g, g ≠ f → total frefs' g = total frefs g) (hclosed : F.ref = 0 → F.type = .none)
    (hbound : 0 < F.ref → f < NFILE)
    (hnew : ∀ q g, g ∈ new' q → g ∈ frefs' q ∧
      (g ≠ f ∧ g ∈ new q ∨ g = f ∧ F.ref = 1 ∧ F.type = .none))
    (hseen : ∀ q g G, seen' q g = some G → g ∈ frefs' q → seen q g = some G ∧ g ∈ frefs q ∧
      (g = f → F.type = (file f).type ∧ F.ip = (file f).ip)) :
    FileInv (update file f F) frefs' new' seen' := by
  refine ⟨fun g => ?_, ?_, ?_, fun q g hq => ?_, fun q g G hG hq => ?_⟩
  · by_cases hg : g = f
    · subst hg
      rw [update_self, href]
    · rw [update_of_ne hg, hrefs g hg]
      exact h.ref g
  · exact (forall_update_iff file fun _ F => F.ref = 0 → F.type = .none).mpr ⟨hclosed, fun g _ => h.closed g⟩
  · exact (forall_update_iff file fun g F => 0 < F.ref → g < NFILE).mpr ⟨hbound, fun g _ => h.bound g⟩
  · obtain ⟨hmem, ⟨hg, hn⟩ | ⟨rfl, h1⟩⟩ := hnew q g hq
    · rw [update_of_ne hg]
      exact ⟨hmem, (h.new q g hn).2⟩
    · rw [update_self]
      exact ⟨hmem, h1⟩
  · obtain ⟨hG, hq, hf⟩ := hseen q g G hG hq
    by_cases hg : g = f
    · subst hg
      rw [update_self, (hf rfl).1, (hf rfl).2]
      exact h.seen q g G hG hq
    · rw [update_of_ne hg]
      exact h.seen q g G hG hq

theorem FileInv.alloc (h : FileInv file frefs new seen) (h0 : (file f).ref = 0) (hf : f < NFILE) :
    FileInv (update file f { file f with ref := 1 }) (update frefs p (f ::ₘ frefs p))
      (update new p (insert f (new p))) (update seen p (update (seen p) f none)) := by
  have hnotnew : ∀ q g, g ∈ new q → g ≠ f := by
    rintro q g hq rfl
    have := (h.new q g hq).2.1
    omega
  have hnotmem : ∀ q, f ∉ frefs q := fun q hq => by
    have := h.ref_pos hq
    omega
  refine h.set ?_ (fun g hg => total_cons_of_ne hg) (fun h1 => absurd h1 Int.one_ne_zero) (fun _ => hf)
    (fun q g hq => ?_) fun q g G hG hq => ?_
  · have := h.ref f
    rw [total_cons]
    simp only
    omega
  · by_cases hqp : q = p
    · subst hqp
      rw [update_self] at hq ⊢
      rcases Finset.mem_insert.mp hq with rfl | hq
      · exact ⟨Multiset.mem_cons_self _ _, .inr ⟨rfl, rfl, h.closed _ h0⟩⟩
      · exact ⟨Multiset.mem_cons_of_mem (h.new q g hq).1, .inl ⟨hnotnew q g hq, hq⟩⟩
    · rw [update_of_ne hqp] at hq ⊢
      exact ⟨(h.new q g hq).1, .inl ⟨hnotnew q g hq, hq⟩⟩
  · by_cases hqp : q = p
    · subst hqp
      rw [update_self] at hG hq
      have hg : g ≠ f := by
        rintro rfl
        rw [update_self] at hG
        cases hG
      rw [update_of_ne hg] at hG
      exact ⟨hG, (Multiset.mem_cons.mp hq).resolve_left hg, fun e => absurd e hg⟩
    · rw [update_of_ne hqp] at hG hq
      exact ⟨hG, hq, fun hg => absurd (hg ▸ hq) (hnotmem q)⟩

theorem FileInv.dup (h : FileInv file frefs new seen) (hp : f ∈ frefs p) :
    FileInv (update file f { file f with ref := (file f).ref + 1 })
      (update frefs p (f ::ₘ frefs p)) (update new p ((new p).erase f)) seen := by
  have hpos := h.ref_pos hp
  refine h.set ?_ (fun g hg => total_cons_of_ne hg) ?_ (fun _ => h.bound f hpos) (fun q g hq => ?_)
    fun q g G hG hq => ⟨hG, ?_, fun _ => ⟨rfl, rfl⟩⟩
  · have := h.ref f
    rw [total_cons]
    simp only
    omega
  · simp only
    omega
  · obtain ⟨hg, hq⟩ := h.new_erase hp hq
    exact ⟨mem_update_cons.mpr (.inr (h.new q g hq).1), .inl ⟨hg, hq⟩⟩
  · rcases mem_update_cons.mp hq with ⟨rfl, rfl⟩ | hq
    exacts [hp, hq]

theorem FileInv.close (h : FileInv file frefs new seen) (hp : f ∈ frefs p)
    (href : F.ref = (file f).ref - 1) (hlast : F.ref = 0 → F.type = .none)
    (hsame : 0 < F.ref → F.type = (file f).type ∧ F.ip = (file f).ip) :
    FileInv (update file f F) (update frefs p ((frefs p).erase f))
      (update new p ((new p).erase f)) seen := by
  have hreff : F.ref = total (update frefs p ((frefs p).erase f)) f := by
    have h1 := total_erase hp
    have h2 := h.ref f
    omega
  refine h.set hreff (fun g hg => total_erase_of_ne hg) hlast (fun _ => h.bound f (h.ref_pos hp))
    (fun q g hq => ?_) fun q g G hG hq => ⟨hG, mem_of_mem_update_erase hq, ?_⟩
  · obtain ⟨hg, hq⟩ := h.new_erase hp hq
    exact ⟨mem_update_erase (fun _ => hg) (h.new q g hq).1, .inl ⟨hg, hq⟩⟩
  · -- somebody still refers to the file
    rintro rfl
    refine hsame ?_
    rw [hreff]
    exact_mod_cast total_pos hq

theorem FileInv.fill (h : FileInv file frefs new seen) (hp : f ∈ new p)
    (href : F.ref = (file f).ref) :
    FileInv (update file f F) frefs (update new p ((new p).erase f))
      (update seen p (update (seen p) f none)) := by
  obtain ⟨hmem, hone, -⟩ := h.new p f hp
  refine h.set (href.trans (h.ref f)) (fun _ _ => rfl) (by omega) (fun _ => h.bound f (h.ref_pos hmem))
    (fun q g hq => ?_) fun q g G hG hq => ?_
  · obtain ⟨hg, hq⟩ := h.new_erase hmem hq
    exact ⟨(h.new q g hq).1, .inl ⟨hg, hq⟩⟩
  · by_cases hqp : q = p
    · subst hqp
      rw [update_self] at hG
      have hg : g ≠ f := by
        rintro rfl
        rw [update_self] at hG
        cases hG
      rw [update_of_ne hg] at hG
      exact ⟨hG, hq, fun e => absurd e hg⟩
    · rw [update_of_ne hqp] at hG
      exact ⟨hG, hq, fun hg => absurd (h.new_uniq hp (hg ▸ hq)).symm hqp⟩

omit [DecidableEq P] in
theorem FileInv.same (h : FileInv file frefs new seen) (href : F.ref = (file f).ref)
    (hF : (file f).Same F) : FileInv (update file f F) frefs new seen := by
  refine h.set (href.trans (h.ref f)) (fun _ _ => rfl) ?_ (href ▸ h.bound f) (fun q g hq => ?_)
    fun q g G hG hq => ⟨hG, hq, fun _ => ⟨hF.type, hF.ip⟩⟩
  · rw [href, hF.type]
    exact h.closed f
  · refine ⟨(h.new q g hq).1, ?_⟩
    by_cases hg : g = f
    · subst hg
      rw [href, hF.type]
      exact .inr ⟨rfl, (h.new q g hq).2⟩
    · exact .inl ⟨hg, hq⟩

theorem FileInv.look (h : FileInv file frefs new seen) :
    FileInv file frefs new (update seen p (update (seen p) f (some (file f)))) := by
  refine ⟨h.ref, h.closed, h.bound, h.new, fun q g G hG hq => ?_⟩
  by_cases hqp : q = p
  · subst hqp
    rw [update_self] at hG
    by_cases hg : g = f
    · subst hg
      rw [update_self] at hG
      cases hG
      exact ⟨rfl, rfl⟩
    · rw [update_of_ne hg] at hG
      exact h.seen q g G hG hq
  · rw [update_of_ne hqp] at hG
    exact h.seen q g G hG hq

theorem FileInv.move {new' : P → Finset Nat} {seen' : P → Nat → Option File}
    (h : FileInv file frefs new seen) (hpq : p ≠ q) (hp : f ∈ frefs p)
    (hnew : ∀ r g, g ∈ new' r → g ∈ new r ∧ (r = p → g ≠ f))
    (hseen : ∀ r g G, seen' r g = some G → seen r g = some G ∧ (r = q → g ≠ f)) :
    FileInv file (update (update frefs q (f ::ₘ frefs q)) p ((frefs p).erase f)) new' seen' := by
  have hp' : frefs p = update frefs q (f ::ₘ frefs q) p := (update_of_ne hpq _ _).symm
  refine ⟨fun g => ?_, h.closed, h.bound, fun r g hr => ?_, fun r g G hG hr => ?_⟩
  · rw [total_move hpq hp]
    exact h.ref g
  · obtain ⟨hr, hne⟩ := hnew r g hr
    refine ⟨?_, (h.new r g hr).2⟩
    rw [hp']
    exact mem_update_erase hne (mem_update_cons.mpr (.inr (h.new r g hr).1))
  · obtain ⟨hG, hne⟩ := hseen r g G hG
    rw [hp'] at hr
    refine h.seen r g G hG ((mem_update_cons.mp (mem_of_mem_update_erase hr)).resolve_left fun hc => ?_)
    exact hne hc.1 hc.2

end Frefs

/-! ## Pipes -/

section Pipes

variable [Fintype P] {pipe : Nat → PipePage} {file : Nat → File} {ends : P → Multiset (Nat × Bool)}
  {p : P} {f pi : Nat} {w : Bool} {F : File}

omit [DecidableEq P] in
theorem PipeInv.same (h : PipeInv pipe file ends) (hF : ∀ pi w, F.End pi w ↔ (file f).End pi w) :
    PipeInv pipe (update file f F) ends :=
  ⟨fun pi w => by rw [countFiles_update_same (hF pi w)]; exact h.ends pi w, h.allocs, h.live⟩

theorem PipeInv.fill (h : PipeInv pipe file ends) (hf : f < NFILE) (he : (pi, w) ∈ ends p)
    (h0 : (file f).type = .none) (hF : F.End pi w) :
    PipeInv pipe (update file f F) (update ends p ((ends p).erase (pi, w))) := by
  refine ⟨fun pj v => ?_, h.allocs, h.live⟩
  have hnot : ¬ (file f).End pj v := fun hend => by
    rw [hend.1] at h0
    cases h0
  have hj := h.ends pj v
  by_cases hx : (pj, v) = (pi, w)
  · obtain ⟨rfl, rfl⟩ := Prod.mk.inj hx
    have ht := total_erase he
    rw [countFiles_update_pos hf hnot hF]
    omega
  · have hFx : ¬ F.End pj v := fun hend => hx (by rw [← hend.2.1, ← hend.2.2, hF.2.1, hF.2.2])
    rw [countFiles_update_same (iff_of_false hFx hnot), total_erase_of_ne hx]
    exact hj

theorem PipeInv.unfill (h : PipeInv pipe file ends) (hf : f < NFILE) (hend : (file f).End pi w)
    (hF : F.type = .none) :
    PipeInv pipe (update file f F) (update ends p ((pi, w) ::ₘ ends p)) := by
  refine ⟨fun pj v => ?_, h.allocs, h.live⟩
  have hnot : ¬ F.End pj v := fun hend => by
    rw [hend.1] at hF
    cases hF
  have hj := h.ends pj v
  by_cases hx : (pj, v) = (pi, w)
  · obtain ⟨rfl, rfl⟩ := Prod.mk.inj hx
    have hc := countFiles_update_neg (φ := (File.End · pj v)) hf hend hnot
    rw [total_cons]
    omega
  · have hfx : ¬ (file f).End pj v := fun hend' =>
      hx (by rw [← hend'.2.1, ← hend'.2.2, hend.2.1, hend.2.2])
    rw [countFiles_update_same (iff_of_false hnot hfx), total_cons_of_ne hx]
    exact hj

omit [DecidableEq P] in
theorem PipeInv.set {ends' : P → Multiset (Nat × Bool)} {g : PipePage} (h : PipeInv pipe file ends)
    (hends : ∀ pj v, countFiles file (File.End · pj v) + total ends' (pj, v) =
      if (update pipe pi g pj).isOpen v then 1 else 0)
    (hal : g.allocs = g.frees ∨ g.allocs = g.frees + 1)
    (hlive : g.live = true → g.isOpen false = true ∨ g.isOpen true = true) :
    PipeInv (update pipe pi g) file ends' :=
  ⟨hends, (forall_update_iff pipe fun _ g => g.allocs = g.frees ∨ g.allocs = g.frees + 1).mpr
      ⟨hal, fun pj _ => h.allocs pj⟩,
    (forall_update_iff pipe fun _ g => g.live = true → g.isOpen false = true ∨ g.isOpen true = true).mpr
      ⟨hlive, fun pj _ => h.live pj⟩⟩

theorem PipeInv.alloc (h : PipeInv pipe file ends) (h0 : (pipe pi).allocs = (pipe pi).frees) :
    PipeInv (update pipe pi { pipe pi with
        readopen := true, writeopen := true, allocs := (pipe pi).allocs + 1 }) file
      (update ends p ((pi, false) ::ₘ (pi, true) ::ₘ ends p)) := by
  have hdead : ∀ w, (pipe pi).isOpen w = false := fun w => by
    simp [PipePage.isOpen, PipePage.live, h0]
  refine h.set (fun pj v => ?_) ?_ ?_
  · have hj := h.ends pj v
    have ht := total_update (m := ends) (p := p) (M := (pi, false) ::ₘ (pi, true) ::ₘ ends p)
      (a := (pj, v))
    by_cases hx : pj = pi
    · subst hx
      have hopen : (update pipe pj { pipe pj with
          readopen := true, writeopen := true, allocs := (pipe pj).allocs + 1 } pj).isOpen v = true := by
        simp [PipePage.isOpen, PipePage.live, h0]
      rw [hopen]
      rw [hdead v] at hj
      cases v <;> simp at ht hj ⊢ <;> omega
    · rw [update_of_ne hx]
      simp [hx] at ht
      omega
  · simp only
    omega
  · simp [PipePage.isOpen, PipePage.live, h0]

def PipePage.close (g : PipePage) (w : Bool) : PipePage :=
  let g := if w then { g with writeopen := false } else { g with readopen := false }
  if g.readopen = false ∧ g.writeopen = false then { g with frees := g.frees + 1 } else g

section

variable {g : PipePage} (hal : g.allocs = g.frees ∨ g.allocs = g.frees + 1) (hw : g.isOpen w = true)

include hal hw

theorem PipePage.allocs_of_isOpen : g.allocs = g.frees + 1 := by
  refine hal.resolve_left fun heq => ?_
  simp [isOpen, live, heq] at hw

theorem PipePage.isOpen_close (v : Bool) : (g.close w).isOpen v = (g.isOpen v && v != w) := by
  have heq := allocs_of_isOpen hal hw
  cases w <;> cases v <;> cases hr : g.readopen <;> cases hwo : g.writeopen <;>
    simp_all [isOpen, close, live]

theorem PipePage.close_allocs :
    (g.close w).allocs = (g.close w).frees ∨ (g.close w).allocs = (g.close w).frees + 1 := by
  have heq := allocs_of_isOpen hal hw
  cases w <;> cases hr : g.readopen <;> cases hwo : g.writeopen <;>
    simp_all [isOpen, close, live]

theorem PipePage.close_live :
    (g.close w).live = true → (g.close w).isOpen false = true ∨ (g.close w).isOpen true = true := by
  have heq := allocs_of_isOpen hal hw
  cases w <;> cases hr : g.readopen <;> cases hwo : g.writeopen <;>
    simp_all [isOpen, close, live]

end

theorem PipeInv.close (h : PipeInv pipe file ends) (he : (pi, w) ∈ ends p) :
    PipeInv (update pipe pi ((pipe pi).close w)) file
      (update ends p ((ends p).erase (pi, w))) := by
  have hw : (pipe pi).isOpen w = true := by
    have h1 := h.ends pi w
    have h2 := total_pos he
    by_contra hc
    rw [if_neg hc] at h1
    omega
  refine h.set (fun pj v => ?_) (PipePage.close_allocs (h.allocs pi) hw)
    (PipePage.close_live (h.allocs pi) hw)
  · have hj := h.ends pj v
    by_cases hx : (pj, v) = (pi, w)
    · obtain ⟨rfl, rfl⟩ := Prod.mk.inj hx
      have ht := total_erase he
      rw [update_self, PipePage.isOpen_close (h.allocs pj) hw]
      rw [hw] at hj
      simp at hj ⊢
      omega
    · rw [total_erase_of_ne hx]
      by_cases hpj : pj = pi
      · subst hpj
        have hv : (v != w) = true := by
          simp only [bne_iff_ne, ne_eq]
          rintro rfl
          exact hx rfl
        rw [update_self, PipePage.isOpen_close (h.allocs pj) hw, hv, Bool.and_true]
        exact hj
      · rw [update_of_ne hpj]
        exact hj

end Pipes

/-! ## Sleep-locks -/

section Locks

variable {lock : Nat → Option P} {file file' : Nat → File} {irefs irefs' frefs frefs' : P → Multiset Nat}
  {held : P → Nat → Option Held} {p : P} {e : Nat} {h' : Held}

omit [DecidableEq P] in
theorem LockInv.refs (h : LockInv lock file irefs frefs held)
    (hv : ∀ q e h, held q e = some h → h.via.Holds file (irefs q) (frefs q) e →
      h.via.Holds file' (irefs' q) (frefs' q) e) :
    LockInv lock file' irefs' frefs' held :=
  ⟨h.lock, fun q e h' hq => hv q e h' hq (h.via q e h' hq)⟩

theorem LockInv.set {l : Option P} {k : Option Held} (h : LockInv lock file irefs frefs held)
    (hl : ∀ q, l = some q ↔ ∃ h', (if q = p then k else held q e) = some h')
    (hv : ∀ h', k = some h' → h'.via.Holds file (irefs p) (frefs p) e) :
    LockInv (update lock e l) file irefs frefs (update held p (update (held p) e k)) := by
  constructor
  · intro x q
    by_cases hx : x = e
    · subst hx
      rw [update_self, hl q]
      by_cases hq : q = p
      · subst hq
        simp
      · simp [hq]
    · rw [update_of_ne hx, h.lock x q]
      by_cases hq : q = p
      · subst hq
        rw [update_self, update_of_ne hx]
      · rw [update_of_ne hq]
  · intro q x h'' hq
    by_cases hqp : q = p
    · subst hqp
      rw [update_self] at hq
      by_cases hx : x = e
      · subst hx
        rw [update_self] at hq
        exact hv h'' hq
      · rw [update_of_ne hx] at hq
        exact h.via q x h'' hq
    · rw [update_of_ne hqp] at hq
      exact h.via q x h'' hq

theorem LockInv.acquire (h : LockInv lock file irefs frefs held) (h0 : lock e = none)
    (hv : h'.via.Holds file (irefs p) (frefs p) e) :
    LockInv (update lock e (some p)) file irefs frefs
      (update held p (update (held p) e (some h'))) := by
  refine h.set (fun q => ?_) fun k hk => Option.some.inj hk ▸ hv
  by_cases hq : q = p
  · simp [hq]
  · rw [if_neg hq, ← h.lock e q, h0]
    simp [Ne.symm hq]

theorem LockInv.release (h : LockInv lock file irefs frefs held) (hp : held p e = some h') :
    LockInv (update lock e none) file irefs frefs (update held p (update (held p) e none)) := by
  refine h.set (fun q => ?_) fun k hk => by cases hk
  by_cases hq : q = p
  · simp [hq]
  · rw [if_neg hq, ← h.lock e q, (h.lock e p).mpr ⟨h', hp⟩]
    simp [Ne.symm hq]

theorem LockInv.change (h : LockInv lock file irefs frefs held) {h'' : Held} (hp : held p e = some h')
    (hv : h''.via = h'.via) :
    LockInv lock file irefs frefs (update held p (update (held p) e (some h''))) := by
  rw [← update_eq_self e lock]
  refine h.set (fun q => ?_) fun k hk => ?_
  · rw [h.lock e q]
    by_cases hq : q = p
    · simp [hq, hp]
    · rw [if_neg hq]
  · cases hk
    rw [hv]
    exact h.via p e h' hp

end Locks

end Xv6Freezer.Files
