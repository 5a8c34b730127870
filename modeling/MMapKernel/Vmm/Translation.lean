import MMapKernel.Vmm.FrameCalls
import MMapKernel.Vmm.PageTable

/-!
# Page tables as words

`map`, `user_map` and `unmap` of `kernel/vmm.cc` on the words of physical memory. A page is looked up as
the hardware does it: the directory entry leads to a table, whose entry has the frame and its flags.
-/

namespace MMapKernel.Vmm
open LinkedList

def frameOf (w : UInt32) : UInt32 := w &&& 0xFFFFF000

def tableAt (words : UInt32 → Content) (pd : UInt32) (i : Fin 1024) : Option UInt32 :=
  if words pd i &&& 1 = 0 then none else some (frameOf (words pd i))

def lookup (words : UInt32 → Content) (pd : UInt32) (g : Page) : Option UInt32 :=
  (tableAt words pd g.1).bind fun pt => if words pt g.2 &&& 1 = 0 then none else some (words pt g.2)

namespace FrameMemory

def setWord (m : FrameMemory) (p : UInt32) (i : Fin 1024) (w : UInt32) : FrameMemory :=
  m.store p (Function.update (m.words p) i w)

def install (flags : UInt32) (m : FrameMemory) (pd va pa : UInt32) : Except FramePanic FrameMemory :=
  let g := pageOf va
  let pde := m.words pd g.1
  if pde &&& 1 = 0 then
    match m.allocFrame with
    | .error e => .error e
    | .ok (p, m) =>
      let pde := p ||| 7
      .ok ((m.setWord pd g.1 pde).setWord (frameOf pde) g.2 (pa ||| flags))
  else .ok (m.setWord (frameOf pde) g.2 (pa ||| flags))

def map (m : FrameMemory) (pd va pa : UInt32) : Except FramePanic FrameMemory := m.install 3 pd va pa

def userMap (m : FrameMemory) (pd va pa : UInt32) : Except FramePanic FrameMemory := m.install 7 pd va pa

def unmap (m : FrameMemory) (pd va : UInt32) (physical : Bool) : Except FramePanic FrameMemory :=
  let g := pageOf va
  let pde := m.words pd g.1
  if pde &&& 1 = 0 then .ok m
  else
    let pte := m.words (frameOf pde) g.2
    if pte &&& 1 = 0 then .ok m
    else
      let cleared := m.setWord (frameOf pde) g.2 0
      if physical then cleared.deallocFrame (frameOf pte) else .ok cleared

def IsFree (m : FrameMemory) (p : UInt32) : Prop :=
  OnList (link m.words) (pointer m.firstFree) p ∨
    ∃ k, p = m.avail + UInt32.ofNat (4096 * k) ∧ ∀ j ≤ k, m.avail + UInt32.ofNat (4096 * j) ≠ m.limit

end FrameMemory

theorem and_or_left (a b c : UInt32) : a &&& (b ||| c) = a &&& b ||| a &&& c :=
  UInt32.toBitVec_inj.mp BitVec.and_or_distrib_left

theorem or_and_right (a b c : UInt32) : (a ||| b) &&& c = a &&& c ||| b &&& c :=
  UInt32.toBitVec_inj.mp BitVec.and_or_distrib_right

theorem or_seven_present (p : UInt32) : (p ||| 7) &&& 1 ≠ 0 := by
  rw [or_and_right]
  intro h
  exact absurd (UInt32.or_eq_zero_iff.mp h).2 (by decide)

theorem frameOf_of_aligned {p : UInt32} (h : offset p = 0) : frameOf p = p := by
  have hall : p &&& (0xFFFFF000 ||| 0xFFF) = p := by
    rw [show (0xFFFFF000 ||| 0xFFF : UInt32) = -1 from by decide, UInt32.and_neg_one]
  rw [and_or_left, show p &&& 0xFFF = 0 from h, UInt32.or_zero] at hall
  exact hall

theorem frameOf_or_seven {p : UInt32} (h : offset p = 0) : frameOf (p ||| 7) = p := by
  rw [frameOf, or_and_right, show (7 &&& 0xFFFFF000 : UInt32) = 0 from by decide, UInt32.or_zero]
  exact frameOf_of_aligned h

theorem offset_frameOf (w : UInt32) : offset (frameOf w) = 0 := by
  rw [offset, frameOf, UInt32.and_assoc, show (0xFFFFF000 &&& 0xFFF : UInt32) = 0 from by decide,
    UInt32.and_zero]

theorem tableAt_of_present {words : UInt32 → Content} {pd : UInt32} {i : Fin 1024}
    (h : words pd i &&& 1 ≠ 0) : tableAt words pd i = some (frameOf (words pd i)) := if_neg h

theorem tableAt_of_absent {words : UInt32 → Content} {pd : UInt32} {i : Fin 1024}
    (h : words pd i &&& 1 = 0) : tableAt words pd i = none := if_pos h

theorem lookup_of_table {words : UInt32 → Content} {pd t : UInt32} {g : Page}
    (h : tableAt words pd g.1 = some t) :
    lookup words pd g = if words t g.2 &&& 1 = 0 then none else some (words t g.2) := by
  rw [lookup, h]
  rfl

theorem lookup_of_no_table {words : UInt32 → Content} {pd : UInt32} {g : Page}
    (h : tableAt words pd g.1 = none) : lookup words pd g = none := by
  rw [lookup, h]
  rfl

section
variable (words : UInt32 → Content) (D : Set UInt32)

def UserTable (t : UInt32) : Prop := ∃ pd ∈ D, ∃ i : Fin 1024, 512 ≤ i ∧ tableAt words pd i = some t

def KernelTable (t : UInt32) : Prop := ∃ pd ∈ D, ∃ i : Fin 1024, i < 512 ∧ tableAt words pd i = some t

def UserData (p : UInt32) : Prop :=
  ∃ pd ∈ D, ∃ g : Page, 512 ≤ g.1 ∧ ∃ pte, lookup words pd g = some pte ∧ frameOf pte = p

end

/-- The tables of the user halves of these directories each have one place, and their frames have no
other use. -/
structure Distinct (m : FrameMemory) (D : Set UInt32) : Prop where
  one : ∀ pd ∈ D, ∀ pd' ∈ D, ∀ i i' : Fin 1024, 512 ≤ i → 512 ≤ i' → ∀ t,
    tableAt m.words pd i = some t → tableAt m.words pd' i' = some t → pd = pd' ∧ i = i'
  own : ∀ t, UserTable m.words D t →
    t ∉ D ∧ ¬ KernelTable m.words D t ∧ ¬ UserData m.words D t ∧ ¬ m.IsFree t

/-- Besides, neither a directory nor a frame that is mapped at a user address is a table of a kernel
half, and no directory is mapped at a user address. -/
structure Apart (m : FrameMemory) (D : Set UInt32) : Prop extends Distinct m D where
  dirs : ∀ pd ∈ D, ¬ KernelTable m.words D pd
  data : ∀ p, UserData m.words D p → p ∉ D ∧ ¬ KernelTable m.words D p

structure DataFrame (m : FrameMemory) (D : Set UInt32) (pa : UInt32) : Prop where
  aligned : offset pa = 0
  notDir : pa ∉ D
  notUser : ¬ UserTable m.words D pa
  notKernel : ¬ KernelTable m.words D pa

/-- A frame that `alloc_frame` returns here is not in use, and is not free after that. -/
def Fresh (m : FrameMemory) (D : Set UInt32) (pa : UInt32) : Prop :=
  ∀ p m', m.allocFrame = .ok (p, m') → p ≠ pa ∧ p ∉ D ∧ ¬ UserTable m.words D p ∧
    ¬ KernelTable m.words D p ∧ ¬ UserData m.words D p ∧ ¬ m'.IsFree p

variable {m m' : FrameMemory} {D : Set UInt32} {pd pa p t w : UInt32} {i : Fin 1024} {g : Page}
  {words words' : UInt32 → Content}

def SameTables (words words' : UInt32 → Content) (D : Set UInt32) : Prop :=
  ∀ pd ∈ D, words' pd = words pd ∧ ∀ i t, tableAt words pd i = some t → words' t = words t

theorem mem_userTable_or_kernelTable (hpd : pd ∈ D) (h : tableAt words pd i = some t) :
    UserTable words D t ∨ KernelTable words D t := by
  rcases lt_or_ge i 512 with hlow | hhigh
  · exact .inr ⟨pd, hpd, i, hlow, h⟩
  · exact .inl ⟨pd, hpd, i, hhigh, h⟩

theorem sameTables_update (hdir : p ∉ D) (huser : ¬ UserTable words D p) (hkernel : ¬ KernelTable words D p)
    (content : Content) : SameTables words (Function.update words p content) D := by
  intro pd hpd
  have hne : pd ≠ p := fun he => hdir (he ▸ hpd)
  refine ⟨Function.update_of_ne hne .., fun i t ht => Function.update_of_ne ?_ ..⟩
  intro he
  rw [he] at ht
  exact (mem_userTable_or_kernelTable hpd ht).elim huser hkernel

namespace SameTables

theorem tableAt_eq (h : SameTables words words' D) (hpd : pd ∈ D) (i : Fin 1024) :
    tableAt words' pd i = tableAt words pd i := by
  rw [tableAt, (h pd hpd).1]
  rfl

theorem lookup_eq (h : SameTables words words' D) (hpd : pd ∈ D) (g : Page) :
    lookup words' pd g = lookup words pd g := by
  have htable := h.tableAt_eq hpd g.1
  cases ht : tableAt words pd g.1 with
  | none =>
    rw [ht] at htable
    rw [lookup_of_no_table ht, lookup_of_no_table htable]
  | some t =>
    rw [ht] at htable
    rw [lookup_of_table ht, lookup_of_table htable, (h pd hpd).2 g.1 t ht]

theorem userTable_iff (h : SameTables words words' D) : UserTable words' D t ↔ UserTable words D t := by
  refine exists_congr fun pd => and_congr_right fun hpd => exists_congr fun i => ?_
  rw [h.tableAt_eq hpd]

theorem kernelTable_iff (h : SameTables words words' D) :
    KernelTable words' D t ↔ KernelTable words D t := by
  refine exists_congr fun pd => and_congr_right fun hpd => exists_congr fun i => ?_
  rw [h.tableAt_eq hpd]

theorem userData_iff (h : SameTables words words' D) : UserData words' D p ↔ UserData words D p := by
  refine exists_congr fun pd => and_congr_right fun hpd => exists_congr fun g => ?_
  rw [h.lookup_eq hpd]

end SameTables

theorem Apart.of_same (h : Apart m D) (hsame : SameTables m.words m'.words D)
    (hfree : ∀ t, UserTable m.words D t → ¬ m'.IsFree t) : Apart m' D where
  one pd hpd pd' hpd' i i' hi hi' t ht ht' := by
    rw [hsame.tableAt_eq hpd] at ht
    rw [hsame.tableAt_eq hpd'] at ht'
    exact h.one pd hpd pd' hpd' i i' hi hi' t ht ht'
  own t ht := by
    rw [hsame.userTable_iff] at ht
    obtain ⟨hdir, hkernel, hdata, -⟩ := h.own t ht
    rw [hsame.kernelTable_iff, hsame.userData_iff]
    exact ⟨hdir, hkernel, hdata, hfree t ht⟩
  dirs pd hpd := by
    rw [hsame.kernelTable_iff]
    exact h.dirs pd hpd
  data p hp := by
    rw [hsame.userData_iff] at hp
    rw [hsame.kernelTable_iff]
    exact h.data p hp

namespace FrameMemory

theorem setWord_at (m : FrameMemory) (p : UInt32) (i : Fin 1024) (w : UInt32) :
    (m.setWord p i w).words p i = w := by
  rw [setWord, store_self, Function.update_self]

theorem setWord_other (m : FrameMemory) {p : UInt32} {i j : Fin 1024} (w : UInt32) (h : j ≠ i) :
    (m.setWord p i w).words p j = m.words p j := by
  rw [setWord, store_self, Function.update_of_ne h]

theorem setWord_frame (m : FrameMemory) {p q : UInt32} (i : Fin 1024) (w : UInt32) (h : q ≠ p) :
    (m.setWord p i w).words q = m.words q := store_of_ne m _ h

theorem IsFree.of_setWord (h : (m.setWord t i w).IsFree p) (hlink : i ≠ 0 ∨ ¬ m.IsFree t) : m.IsFree p := by
  rcases h with hlist | hbump
  · refine .inl (hlist.rec_on_next (fun a ha => .head ha) fun a b _ ha hab => ha.next ?_)
    rw [← hab, link, link]
    by_cases hat : a = t
    · rcases hlink with hi | hfree
      · rw [hat, setWord_other m w hi.symm]
      · exact absurd (.inl (hat ▸ ha)) hfree
    · rw [setWord_frame m i w hat]
  · exact .inr hbump

theorem allocFrame_cases (h : m.allocFrame = .ok (p, m')) :
    m'.words = Function.update m.words p (fun _ => 0) ∧ m'.limit = m.limit ∧ offset p = 0 ∧
    ((m.firstFree = p ∧ p ≠ 0 ∧ m'.firstFree = m.words p 0 ∧ m'.avail = m.avail) ∨
      (m'.firstFree = m.firstFree ∧ p = m.avail ∧ m.avail ≠ m.limit ∧
        m'.avail = m.avail + FRAME_SIZE)) := by
  obtain ⟨taken, htake, haligned, rfl⟩ := allocFrame_eq_ok h
  obtain ⟨words, firstFree, avail, limit⟩ := m
  unfold takeFrame at htake
  split at htake
  case isTrue hfree =>
    cases htake
    exact ⟨rfl, rfl, haligned, .inl ⟨rfl, hfree, rfl, rfl⟩⟩
  case isFalse =>
    split at htake
    case isTrue => cases htake
    case isFalse hlimit =>
      cases htake
      exact ⟨rfl, rfl, haligned, .inr ⟨rfl, rfl, hlimit, rfl⟩⟩

theorem IsFree.of_alloc {f : UInt32} (h : m'.IsFree f) (halloc : m.allocFrame = .ok (p, m')) : m.IsFree f := by
  obtain ⟨hwords, hlimit, -, hcases⟩ := allocFrame_cases halloc
  have hlink : ∀ a b, link m'.words a = some b → link m.words a = some b := by
    intro a b hab
    rw [link, hwords] at hab
    by_cases hap : a = p
    · rw [hap, Function.update_self] at hab
      cases hab
    · rwa [Function.update_of_ne hap] at hab
  rcases h with hlist | ⟨k, hk, hbelow⟩
  · refine .inl (hlist.rec_on_next (fun a ha => ?_) fun a b _ ha hab => ha.next (hlink a b hab))
    rcases hcases with ⟨hfirst, hzero, hnext, -⟩ | ⟨hfirst, -, -, -⟩
    · rw [hnext] at ha
      exact .next (.head (pointer_eq_some.mpr ⟨hfirst, hzero⟩)) ha
    · rw [hfirst] at ha
      exact .head ha
  · right
    rw [hlimit] at hbelow
    rcases hcases with ⟨-, -, -, havail⟩ | ⟨-, -, hne, havail⟩
    · rw [havail] at hk hbelow
      exact ⟨k, hk, hbelow⟩
    · have hstep : ∀ j, m'.avail + UInt32.ofNat (4096 * j) = m.avail + UInt32.ofNat (4096 * (j + 1)) := by
        intro j
        rw [havail, UInt32.add_assoc, Nat.mul_succ, Nat.add_comm, UInt32.ofNat_add]
        rfl
      refine ⟨k + 1, by rw [hk, hstep], fun j hj => ?_⟩
      cases j with
      | zero =>
        rw [Nat.mul_zero, show UInt32.ofNat 0 = 0 from rfl, UInt32.add_zero]
        exact hne
      | succ j =>
        rw [← hstep]
        exact hbelow j (Nat.le_of_succ_le_succ hj)

theorem IsFree.of_dealloc {f : UInt32} (h : m'.IsFree f) (hp : offset p = 0)
    (hdealloc : m.deallocFrame p = .ok m') : m.IsFree f ∨ f = p := by
  obtain ⟨_, hok, hfirst, havail, hlimit, hwords⟩ := m.deallocFrame_eq_ok hp
  rw [hok] at hdealloc
  cases hdealloc
  rcases h with hlist | hbump
  · have hon : OnList (link m.words) (pointer m.firstFree) f ∨ f = p := by
      refine hlist.rec_on_next (P := fun a => OnList (link m.words) (pointer m.firstFree) a ∨ a = p)
        (fun a ha => ?_) fun a b _ ha hab => ?_
      · rw [hfirst] at ha
        exact .inr (pointer_eq_some.mp ha).1.symm
      · rw [link, hwords] at hab
        by_cases hap : a = p
        · rw [hap, Function.update_self, Function.update_self] at hab
          exact .inl (.head hab)
        · rw [Function.update_of_ne hap] at hab
          exact .inl ((ha.resolve_right hap).next hab)
    exact hon.imp .inl id
  · rw [havail, hlimit] at hbump
    exact .inl (.inr hbump)

end FrameMemory

namespace Portioned
variable {start size : UInt32} {s : Held} {free : List UInt32} {n : ℕ}

theorem not_isFree (h : Portioned start size s free n) (hb : FrameBounds start size) (hp : p ∈ s.out) :
    ¬ s.mem.IsFree p := by
  have hinside := h.inside
  have haligned := offset_eq_zero.mp hb.size_aligned
  rintro (hlist | ⟨k, hk, hbelow⟩)
  · exact h.notMem_free hb hp (h.list.mem_of_onList hlist)
  · have hplace : ∀ j, s.mem.avail + UInt32.ofNat (4096 * j) = start + UInt32.ofNat (4096 * (n + j)) := by
      intro j
      rw [h.avail, UInt32.add_assoc, Nat.mul_add, UInt32.ofNat_add]
    have hroom : 4096 * (n + k) < size.toNat := by
      by_contra hnot
      apply hbelow (size.toNat / 4096 - n) (by omega)
      rw [hplace, h.limit, show 4096 * (n + (size.toNat / 4096 - n)) = size.toNat by omega,
        UInt32.ofNat_toNat]
    have hlast := (hb.mem_frameRange hinside (h.mem_range (List.mem_append_right free hp))).2.2
    rw [hk, hplace, hb.toNat_frame hroom.le] at hlast
    omega

theorem fresh (h : Portioned start size s free n) (hb : FrameBounds start size) (hpa : pa ∈ s.out)
    (hdirs : ∀ pd ∈ D, pd ∈ s.out) (huser : ∀ t, UserTable s.mem.words D t → t ∈ s.out)
    (hkernel : ∀ t, KernelTable s.mem.words D t → t ∈ s.out)
    (hdata : ∀ p, UserData s.mem.words D p → p ∈ s.out) : Fresh s.mem D pa := by
  intro p m' halloc
  obtain ⟨taken, htake, -, -⟩ := FrameMemory.allocFrame_eq_ok halloc
  obtain ⟨hout, -⟩ := h.take hb htake
  obtain ⟨free', n', hafter⟩ := h.alloc hb halloc
  have hused : ¬ m'.IsFree p := hafter.not_isFree hb List.mem_cons_self
  exact ⟨fun he => hout (he ▸ hpa), mt (hdirs p) hout, mt (huser p) hout, mt (hkernel p) hout,
    mt (hdata p) hout, hused⟩

end Portioned

end MMapKernel.Vmm
