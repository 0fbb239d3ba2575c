import Mathlib

/-! # Circular doubly linked lists

Links in memory, `next` and `prev`, that run through a head and the elements of a list (`Ring`): how an
element is taken out and put behind the head, and what a scan of the links finds.
-/

namespace Xv6Freezer.Lib

open Function

variable {α : Type*}

structure Links (α : Type*) where
  next : α → α
  prev : α → α

namespace Links

def flip (L : Links α) : Links α := ⟨L.prev, L.next⟩

section Assignments

variable [DecidableEq α]

/-- `b->next->prev = b->prev; b->prev->next = b->next;` -/
def unlink (L : Links α) (b : α) : Links α :=
  let L := { L with prev := update L.prev (L.next b) (L.prev b) }
  { L with next := update L.next (L.prev b) (L.next b) }

/-- `b->next = h->next; b->prev = h; h->next->prev = b; h->next = b;` -/
def pushFront (L : Links α) (h b : α) : Links α :=
  let L := { L with next := update L.next b (L.next h) }
  let L := { L with prev := update L.prev b h }
  let L := { L with prev := update L.prev (L.next h) b }
  { L with next := update L.next h b }

end Assignments

/-- The links run from `a` through the elements of the list to `b`, and back. -/
def Seg (L : Links α) (a : α) : List α → α → Prop
  | [], b => L.next a = b ∧ L.prev b = a
  | x :: l, b => (L.next a = x ∧ L.prev x = a) ∧ Seg L x l b

variable {L L' : Links α} {a b c h : α} {l l' : List α}

theorem seg_append {x : α} : Seg L a (l ++ x :: l') b ↔ Seg L a l x ∧ Seg L x l' b := by
  induction l generalizing a with
  | nil => rfl
  | cons y l ih => simp only [List.cons_append, Seg, ih, and_assoc]

theorem Seg.flip (h : Seg L a l b) : Seg L.flip b l.reverse a := by
  induction l generalizing a with
  | nil => exact ⟨h.2, h.1⟩
  | cons x l ih =>
    rw [List.reverse_cons, seg_append]
    exact ⟨ih h.2, h.1.2, h.1.1⟩

theorem Seg.congr (h : Seg L a l b) (hnext : ∀ x ∈ a :: l, L'.next x = L.next x)
    (hprev : ∀ x ∈ b :: l, L'.prev x = L.prev x) : Seg L' a l b := by
  induction l generalizing a with
  | nil =>
    exact ⟨(hnext a (.head _)).trans h.1, (hprev b (.head _)).trans h.2⟩
  | cons x l ih =>
    refine ⟨⟨(hnext a (.head _)).trans h.1.1, (hprev x (by simp)).trans h.1.2⟩,
      ih h.2 (fun y hy => hnext y (.tail _ hy)) fun y hy => hprev y ?_⟩
    rcases List.mem_cons.mp hy with rfl | hy
    · exact .head _
    · exact .tail _ (.tail _ hy)

theorem Seg.prev_mem (h : Seg L a l b) : L.prev b ∈ a :: l := by
  induction l generalizing a with
  | nil => rw [h.2]; exact .head _
  | cons x l ih => exact .tail _ (ih h.2)

theorem Seg.next_mem (h : Seg L a l b) : L.next a ∈ b :: l := by
  cases l with
  | nil => rw [h.1]; exact .head _
  | cons x l => rw [h.1.1]; simp

/-! ## Rings -/

/-- The links form one ring through `h` and the elements of the list, each of them once. -/
def Ring (L : Links α) (h : α) (l : List α) : Prop := Seg L h l h ∧ (h :: l).Nodup

theorem Ring.flip (hr : Ring L h l) : Ring L.flip h l.reverse :=
  ⟨hr.1.flip, by simpa [List.nodup_reverse] using hr.2⟩

section Assignments

variable [DecidableEq α]

theorem Seg.unlink (h1 : Seg L a l b) (h2 : Seg L b l' c) (hnd : (a :: (l ++ b :: l')).Nodup)
    (hc : c ∉ l ++ b :: l') : Seg (L.unlink b) a (l ++ l') c := by
  induction l generalizing a with
  | nil =>
    obtain ⟨hab, hba⟩ := h1
    simp only [List.nil_append, List.nodup_cons, List.mem_cons, not_or] at hnd hc
    cases l' with
    | nil =>
      obtain ⟨hbc, hcb⟩ := h2
      have hne : b ≠ c := Ne.symm hc.1
      simp [Seg, Links.unlink, hbc, hba, update_of_ne hne]
    | cons y l' =>
      obtain ⟨⟨hby, hyb⟩, hy⟩ := h2
      simp only [List.nodup_cons, List.mem_cons, not_or] at hnd hc
      have hne : b ≠ y := hnd.2.1.1
      refine ⟨by simp [Links.unlink, hby, hba, update_of_ne hne], hy.congr ?_ ?_⟩
      · intro x hx
        have hxa : x ≠ a := by
          rintro rfl
          rcases List.mem_cons.mp hx with rfl | hx
          · exact hnd.1.2.1 rfl
          · exact hnd.1.2.2 hx
        simp [Links.unlink, hby, hba, update_of_ne hne, update_of_ne hxa]
      · intro x hx
        have hxy : x ≠ y := by
          rintro rfl
          rcases List.mem_cons.mp hx with rfl | hx
          · exact hc.2.1 rfl
          · exact hnd.2.2.1 hx
        simp [Links.unlink, hby, update_of_ne hxy]
  | cons x l ih =>
    obtain ⟨⟨hax, hxa⟩, hx⟩ := h1
    have hnd' := (List.nodup_cons.mp hnd).2
    have hc' : c ∉ l ++ b :: l' := fun hm => hc (.tail _ hm)
    -- neither of the two assignments touches the links between `a` and `x`
    have hbn : b ≠ L.next b := by
      intro e
      have := h2.next_mem
      rw [← e] at this
      rcases List.mem_cons.mp this with rfl | hm
      · exact hc (by simp)
      · exact (List.nodup_cons.mp (List.nodup_append.mp hnd').2.1).1 hm
    have hap : a ≠ L.prev b := by
      intro e
      have := hx.prev_mem
      rw [← e] at this
      exact (List.nodup_cons.mp hnd).1 (by
        rcases List.mem_cons.mp this with rfl | hm
        · simp
        · simp [hm])
    have hxn : x ≠ L.next b := by
      intro e
      have := h2.next_mem
      rw [← e] at this
      rcases List.mem_cons.mp this with rfl | hm
      · exact hc (by simp)
      · exact (List.nodup_cons.mp hnd').1 (by simp [hm])
    refine ⟨⟨?_, ?_⟩, ih hx hnd' hc'⟩
    · simp [Links.unlink, update_of_ne hbn, update_of_ne hap, hax]
    · simp [Links.unlink, update_of_ne hxn, hxa]

theorem Ring.unlink (hr : Ring L h (l ++ b :: l')) : Ring (L.unlink b) h (l ++ l') := by
  obtain ⟨hs, hnd⟩ := hr
  rw [seg_append] at hs
  refine ⟨hs.1.unlink hs.2 hnd (List.nodup_cons.mp hnd).1, hnd.sublist ?_⟩
  exact List.Sublist.cons_cons h (List.Sublist.append_left (List.sublist_cons_self b l') l)

theorem Ring.pushFront (hr : Ring L h l) (hb : b ∉ h :: l) : Ring (L.pushFront h b) h (b :: l) := by
  obtain ⟨hs, hnd⟩ := hr
  have hbh : b ≠ h := fun e => hb (by simp [e])
  have hbn : b ≠ L.next h := fun e => hb (e ▸ hs.next_mem)
  refine ⟨⟨⟨by simp [Links.pushFront], ?_⟩, ?_⟩, ?_⟩
  · simp [Links.pushFront, update_of_ne hbh.symm, update_of_ne hbn]
  · cases l with
    | nil =>
      obtain ⟨hn, -⟩ := hs
      simp [Seg, Links.pushFront, update_of_ne hbh, update_of_ne hbh.symm, hn]
    | cons x l =>
      obtain ⟨⟨hx, -⟩, hseg⟩ := hs
      simp only [List.nodup_cons, List.mem_cons, not_or] at hnd hb
      refine ⟨by simp [Links.pushFront, update_of_ne hbh,
        update_of_ne hbh.symm, hx], hseg.congr (fun y hy => ?_) fun y hy => ?_⟩
      · have hyh : y ≠ h := by
          rintro rfl
          rcases List.mem_cons.mp hy with rfl | hy
          · exact hnd.1.1 rfl
          · exact hnd.1.2 hy
        have hyb : y ≠ b := by
          rintro rfl
          rcases List.mem_cons.mp hy with rfl | hy
          · exact hb.2.1 rfl
          · exact hb.2.2 hy
        simp [Links.pushFront, update_of_ne hyh, update_of_ne hyb]
      · have hyx : y ≠ x := by
          rintro rfl
          rcases List.mem_cons.mp hy with rfl | hy
          · exact hnd.1.1 rfl
          · exact hnd.2.1 hy
        have hyb : y ≠ b := by
          rintro rfl
          rcases List.mem_cons.mp hy with rfl | hy
          · exact hb.1 rfl
          · exact hb.2.2 hy
        simp [Links.pushFront, update_of_ne hbh.symm, hx, update_of_ne hyx,
          update_of_ne hyb]
  · refine List.nodup_cons.mpr ⟨?_, List.nodup_cons.mpr ⟨fun hm => hb (.tail _ hm),
      (List.nodup_cons.mp hnd).2⟩⟩
    intro hm
    rcases List.mem_cons.mp hm with rfl | hm
    · exact hbh rfl
    · exact (List.nodup_cons.mp hnd).1 hm

end Assignments

/-! ## Scans -/

section Scan

variable [DecidableEq α] {link : α → α} {test : α → Bool}

/-- `for(b = ...; b != h; b = link(b)) if(test(b)) return b;`: the node found, nothing at `h`, or no answer
after so many rounds. -/
def scan (link : α → α) (h : α) (test : α → Bool) : Nat → α → Option (Option α)
  | 0, _ => none
  | n + 1, b => if b = h then some none else if test b then some (some b) else
    scan link h test n (link b)

theorem Seg.scan (hs : Seg L a l h) (hh : h ∉ l) {n : Nat} (hn : l.length < n) :
    scan L.next h test n (L.next a) = some (l.find? test) := by
  induction l generalizing a n with
  | nil =>
    obtain ⟨n, rfl⟩ : ∃ m, n = m + 1 := ⟨n - 1, by simp at hn; omega⟩
    simp [Links.scan, hs.1]
  | cons x l ih =>
    obtain ⟨n, rfl⟩ : ∃ m, n = m + 1 := ⟨n - 1, by simp at hn; omega⟩
    have hx : x ≠ h := fun e => hh (by simp [e])
    have hrest := ih hs.2 (fun hm => hh (.tail _ hm)) (by simpa using hn)
    rw [hs.1.1, Links.scan, if_neg hx, hrest]
    cases hx : test x <;> simp [hx]

/-- **A scan of a ring** from the head finds the first match in the list. -/
theorem Ring.scan_next (hr : Ring L h l) (test : α → Bool) {n : Nat} (hn : l.length < n) :
    scan L.next h test n (L.next h) = some (l.find? test) :=
  hr.1.scan (List.nodup_cons.mp hr.2).1 hn

/-- **A scan of a ring backwards** finds the last match. -/
theorem Ring.scan_prev (hr : Ring L h l) (test : α → Bool) {n : Nat} (hn : l.length < n) :
    scan L.prev h test n (L.prev h) = some (l.reverse.find? test) :=
  Ring.scan_next hr.flip test (by simpa using hn)

end Scan

end Links

end Xv6Freezer.Lib
