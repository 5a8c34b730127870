import MMapKernel.Lib.LinkedList
import MMapKernel.Vmm.PhysMem

/-!
# The memory under the frame allocator

`kernel/physmem.cc` with the words that it stores: the link to the next free frame is the first word of
a free frame, and 0 is the null pointer. A frame is named by its physical address, and its contents are
1024 words. All that is read or stored lies in one frame, since a frame that is not aligned fails the
assertion.

`PhysMem` keeps the free list as a sequence and forgets the links; `Refines` says how they agree.
-/

namespace MMapKernel.Vmm
open LinkedList (Chain)

abbrev Content := Fin 1024 → UInt32

def FRAME_SIZE : UInt32 := (1 : UInt32) <<< 12

def offset (pa : UInt32) : UInt32 := pa &&& 0xFFF

inductive FramePanic where
  | noMoreFrames
  | assertion
deriving DecidableEq

structure FrameMemory where
  words : UInt32 → Content
  firstFree : UInt32
  avail : UInt32
  limit : UInt32

namespace FrameMemory

def store (m : FrameMemory) (p : UInt32) (content : Content) : FrameMemory :=
  { m with words := Function.update m.words p content }

def bzero (m : FrameMemory) (p : UInt32) : FrameMemory := m.store p fun _ => 0

def takeFrame (m : FrameMemory) : Except FramePanic (UInt32 × FrameMemory) :=
  if m.firstFree ≠ 0 then .ok (m.firstFree, { m with firstFree := m.words m.firstFree 0 })
  else if m.avail = m.limit then .error .noMoreFrames
  else .ok (m.avail, { m with avail := m.avail + FRAME_SIZE })

def allocFrame (m : FrameMemory) : Except FramePanic (UInt32 × FrameMemory) :=
  match m.takeFrame with
  | .error e => .error e
  | .ok (p, m) => if offset p = 0 then .ok (p, m.bzero p) else .error .assertion

def deallocFrame (m : FrameMemory) (p : UInt32) : Except FramePanic FrameMemory :=
  if offset p = 0 then
    .ok { m.store p (Function.update (m.words p) 0 m.firstFree) with firstFree := p }
  else .error .assertion

def init (m : FrameMemory) (start size : UInt32) : Except FramePanic FrameMemory :=
  if offset start = 0 then
    if offset size = 0 then .ok { m with avail := start, limit := start + size } else .error .assertion
  else .error .assertion

def boot (words : UInt32 → Content) : FrameMemory := ⟨words, 0, 0, 0⟩

@[simp] theorem store_self (m : FrameMemory) (p : UInt32) (c : Content) : (m.store p c).words p = c :=
  Function.update_self ..

theorem store_of_ne {p q : UInt32} (m : FrameMemory) (c : Content) (h : q ≠ p) :
    (m.store p c).words q = m.words q := Function.update_of_ne h ..

@[simp] theorem store_firstFree (m : FrameMemory) (p : UInt32) (c : Content) :
    (m.store p c).firstFree = m.firstFree := rfl

@[simp] theorem store_avail (m : FrameMemory) (p : UInt32) (c : Content) :
    (m.store p c).avail = m.avail := rfl

@[simp] theorem store_limit (m : FrameMemory) (p : UInt32) (c : Content) :
    (m.store p c).limit = m.limit := rfl

def pointer (w : UInt32) : Option UInt32 := if w = 0 then none else some w

theorem pointer_eq_some {w p : UInt32} : pointer w = some p ↔ w = p ∧ p ≠ 0 := by
  unfold pointer
  split
  case isTrue h => exact iff_of_false nofun fun ⟨he, hne⟩ => hne (he ▸ h)
  case isFalse h =>
    rw [Option.some.injEq]
    exact ⟨fun he => ⟨he, he ▸ h⟩, And.left⟩

theorem pointer_eq_none {w : UInt32} : pointer w = none ↔ w = 0 := by
  unfold pointer
  split
  case isTrue h => exact iff_of_true rfl h
  case isFalse h => exact iff_of_false nofun h

def link (words : UInt32 → Content) (p : UInt32) : Option UInt32 := pointer (words p 0)

def FreeList (m : FrameMemory) (free : List UInt32) : Prop :=
  Chain (link m.words) (pointer m.firstFree) free

theorem FreeList.store {m : FrameMemory} {free : List UInt32} {p : UInt32} (h : m.FreeList free)
    (hp : p ∉ free) (c : Content) : (m.store p c).FreeList free := by
  refine h.congr fun q hq => ?_
  have hne : q ≠ p := fun he => hp (he ▸ hq)
  rw [link, m.store_of_ne c hne]
  rfl

theorem takeFrame_cases {m m' : FrameMemory} {free : List UInt32} {p : UInt32} (hl : m.FreeList free)
    (h : m.takeFrame = .ok (p, m')) :
    (∃ rest, free = p :: rest ∧ m'.FreeList rest ∧ m'.avail = m.avail ∧ m'.words = m.words ∧
      m'.limit = m.limit) ∨
    (free = [] ∧ m.avail ≠ m.limit ∧ p = m.avail ∧ m'.FreeList [] ∧ m'.avail = m.avail + FRAME_SIZE ∧
      m'.words = m.words ∧ m'.limit = m.limit) := by
  obtain ⟨words, firstFree, avail, limit⟩ := m
  unfold takeFrame at h
  split at h
  case isTrue hfree =>
    left
    cases h
    have hhead : pointer firstFree = some firstFree := pointer_eq_some.mpr ⟨rfl, hfree⟩
    cases free with
    | nil =>
      have hnone : pointer firstFree = none := hl
      rw [hnone] at hhead
      cases hhead
    | cons f rest =>
      obtain ⟨hf, hrest⟩ := hl
      change pointer firstFree = some f at hf
      rw [hhead] at hf
      cases hf
      exact ⟨rest, rfl, hrest, rfl, rfl, rfl⟩
  case isFalse hfree =>
    rw [not_not] at hfree
    change firstFree = 0 at hfree
    subst hfree
    split at h
    case isTrue => cases h
    case isFalse hlimit =>
      right
      cases h
      cases free with
      | nil => exact ⟨rfl, hlimit, rfl, rfl, rfl, rfl, rfl⟩
      | cons f rest =>
        have hhead : pointer 0 = some f := hl.1
        rw [pointer_eq_none.mpr rfl] at hhead
        cases hhead

theorem takeFrame_error {m : FrameMemory} {free : List UInt32} {e : FramePanic} (hl : m.FreeList free)
    (h : m.takeFrame = .error e) : e = .noMoreFrames ∧ free = [] ∧ m.avail = m.limit := by
  unfold takeFrame at h
  split at h
  case isTrue => cases h
  case isFalse hfree =>
    rw [not_not] at hfree
    split at h
    case isFalse => cases h
    case isTrue hlimit =>
      cases h
      refine ⟨rfl, ?_, hlimit⟩
      cases free with
      | nil => rfl
      | cons f rest =>
        have hhead : pointer m.firstFree = some f := hl.1
        rw [hfree, pointer_eq_none.mpr rfl] at hhead
        cases hhead

theorem allocFrame_eq_ok {m m' : FrameMemory} {p : UInt32} (h : m.allocFrame = .ok (p, m')) :
    ∃ taken, m.takeFrame = .ok (p, taken) ∧ offset p = 0 ∧ m' = taken.bzero p := by
  unfold allocFrame at h
  split at h
  case h_1 => cases h
  case h_2 q taken htaken =>
    split at h
    case isTrue hq =>
      cases h
      exact ⟨taken, htaken, hq, rfl⟩
    case isFalse => cases h

theorem allocFrame_eq_error {m : FrameMemory} {e : FramePanic} (h : m.allocFrame = .error e) :
    m.takeFrame = .error e ∨ e = .assertion ∧ ∃ p taken, m.takeFrame = .ok (p, taken) ∧ offset p ≠ 0 := by
  unfold allocFrame at h
  split at h
  case h_1 htaken =>
    cases h
    exact .inl htaken
  case h_2 p taken htaken =>
    split at h
    case isTrue => cases h
    case isFalse hp =>
      cases h
      exact .inr ⟨rfl, p, taken, htaken, hp⟩

theorem deallocFrame_eq_ok {m : FrameMemory} {p : UInt32} (hp : offset p = 0) : ∃ m',
    m.deallocFrame p = .ok m' ∧ m'.firstFree = p ∧ m'.avail = m.avail ∧ m'.limit = m.limit ∧
      m'.words = Function.update m.words p (Function.update (m.words p) 0 m.firstFree) := by
  refine ⟨_, if_pos hp, ?_⟩
  cases m
  exact ⟨rfl, rfl, rfl, rfl⟩

theorem FreeList.dealloc {m m' : FrameMemory} {free : List UInt32} {p : UInt32} (hl : m.FreeList free)
    (hzero : p ≠ 0) (hp : p ∉ free) (h : m.deallocFrame p = .ok m') : m'.FreeList (p :: free) := by
  by_cases haligned : offset p = 0
  · obtain ⟨_, hok, hfirst, -, -, hwords⟩ := m.deallocFrame_eq_ok haligned
    rw [hok] at h
    cases h
    have hlink : link m'.words p = pointer m.firstFree := by
      rw [link, hwords, Function.update_self, Function.update_self]
    refine ⟨by rw [hfirst]; exact pointer_eq_some.mpr ⟨rfl, hzero⟩, ?_⟩
    rw [hlink]
    refine Chain.congr hl fun q hq => ?_
    have hne : q ≠ p := fun he => hp (he ▸ hq)
    rw [link, hwords, Function.update_of_ne hne]
    rfl
  · rw [deallocFrame, if_neg haligned] at h
    cases h

def byteOf (w : UInt32) (k : ℕ) : UInt8 := UInt8.ofNat (w.toNat / 256 ^ k)

structure Refines (m : FrameMemory) (free : List UInt32) (a : PhysMem) : Prop where
  list : m.FreeList free
  same : a.free = free.map UInt32.toNat
  avail : a.avail = m.avail.toNat
  limit : a.limit = m.limit.toNat
  bytes : ∀ p ∉ free, ∀ (i : Fin 1024) (k : Fin 4),
    a.bytes p.toNat (4 * i + k) = byteOf (m.words p i) k

namespace Refines
variable {m m' : FrameMemory} {free : List UInt32} {a : PhysMem} {p : UInt32}

theorem of_bzero (hlist : m.FreeList free) (hp : p ∉ free) (hsame : a.free = free.map UInt32.toNat)
    (havail : a.avail = m.avail.toNat) (hlimit : a.limit = m.limit.toNat)
    (hbytes : ∀ q ∉ free, q ≠ p → ∀ (i : Fin 1024) (k : Fin 4),
      a.bytes q.toNat (4 * i + k) = byteOf (m.words q i) k) :
    Refines (m.bzero p) free (a.fill p.toNat fun _ => 0) := by
  refine ⟨hlist.store hp _, hsame, havail, hlimit, fun q hq i k => ?_⟩
  change Function.update a.bytes p.toNat (fun _ => 0) q.toNat (4 * i + k) = _
  by_cases hqp : q = p
  · rw [hqp, bzero, store_self, Function.update_self, byteOf, UInt32.toNat_zero, Nat.zero_div]
    rfl
  · have hne : q.toNat ≠ p.toNat := fun he => hqp (UInt32.toNat_inj.mp he)
    rw [bzero, store_of_ne _ _ hqp, Function.update_of_ne hne]
    exact hbytes q hq hqp i k

theorem alloc (h : Refines m free a) (hnodup : free.Nodup)
    (hroom : m.avail ≠ m.limit → m.avail.toNat + 4096 < 2 ^ 32) (halloc : m.allocFrame = .ok (p, m')) :
    ∃ free' a', a.allocFrame = some (p.toNat, a') ∧ Refines m' free' a' := by
  obtain ⟨taken, htake, -, rfl⟩ := allocFrame_eq_ok halloc
  rcases takeFrame_cases h.list htake with
    ⟨rest, rfl, hlist, havail, hwords, hlimit⟩ | ⟨rfl, hne, rfl, hlist, havail, hwords, hlimit⟩
  · obtain ⟨hp, -⟩ := List.nodup_cons.mp hnodup
    have hsame : a.free = p.toNat :: rest.map UInt32.toNat := h.same
    refine ⟨rest, { a with free := rest.map UInt32.toNat }.fill p.toNat fun _ => 0, ?_, ?_⟩
    · rw [PhysMem.allocFrame, hsame]
    · refine of_bzero hlist hp rfl ?_ ?_ fun q hq hqp => ?_
      · rw [havail]
        exact h.avail
      · rw [hlimit]
        exact h.limit
      · rw [hwords]
        exact h.bytes q (List.not_mem_cons_of_ne_of_not_mem hqp hq)
  · have hsame : a.free = [] := h.same
    have hnat : m.avail.toNat + 4096 = taken.avail.toNat := by
      have hsize : FRAME_SIZE.toNat = 4096 := rfl
      rw [havail, UInt32.toNat_add, hsize, Nat.mod_eq_of_lt (hroom hne)]
    have hlimits : a.avail ≠ a.limit := by
      rw [h.avail, h.limit]
      exact fun he => hne (UInt32.toNat_inj.mp he)
    refine ⟨[], { a with avail := a.avail + 4096 }.fill a.avail fun _ => 0, ?_, ?_⟩
    · rw [PhysMem.allocFrame, hsame, ← h.avail]
      exact if_neg hlimits
    · rw [h.avail]
      refine of_bzero hlist List.not_mem_nil hsame hnat ?_ fun q hq _ => ?_
      · rw [hlimit]
        exact h.limit
      · rw [hwords]
        exact h.bytes q hq

theorem alloc_none (h : Refines m free a) (hfail : m.takeFrame = .error .noMoreFrames) :
    a.allocFrame = none := by
  obtain ⟨-, rfl, hlimit⟩ := takeFrame_error h.list hfail
  have hsame : a.free = [] := h.same
  have hlimits : a.avail = a.limit := by rw [h.avail, h.limit, hlimit]
  rw [PhysMem.allocFrame, hsame]
  exact if_pos hlimits

theorem dealloc (h : Refines m free a) (hzero : p ≠ 0) (hp : p ∉ free) (hdealloc : m.deallocFrame p = .ok m') :
    Refines m' (p :: free) (a.deallocFrame p.toNat) := by
  have hlist := h.list.dealloc hzero hp hdealloc
  have haligned : offset p = 0 := by
    by_contra hne
    rw [deallocFrame, if_neg hne] at hdealloc
    cases hdealloc
  obtain ⟨_, hok, -, havail, hlimit, hwords⟩ := m.deallocFrame_eq_ok haligned
  rw [hok] at hdealloc
  cases hdealloc
  refine ⟨hlist, congrArg (p.toNat :: ·) h.same, ?_, ?_, fun q hq i k => ?_⟩
  · rw [havail]
    exact h.avail
  · rw [hlimit]
    exact h.limit
  · obtain ⟨hqp, hqfree⟩ := not_or.mp fun hm => hq (List.mem_cons.mpr hm)
    rw [hwords, Function.update_of_ne hqp]
    exact h.bytes q hqfree i k

end Refines
end FrameMemory

def frameRange (start : UInt32) (n : ℕ) : List UInt32 :=
  (List.range n).map fun i => start + UInt32.ofNat (4096 * i)

structure FrameBounds (start size : UInt32) : Prop where
  start_aligned : offset start = 0
  size_aligned : offset size = 0
  no_wrap : start.toNat + size.toNat < 2 ^ 32

theorem offset_eq_zero {p : UInt32} : offset p = 0 ↔ p.toNat % 4096 = 0 := by
  have hand : (offset p).toNat = p.toNat % 4096 := by
    rw [offset, UInt32.toNat_and]
    exact Nat.and_two_pow_sub_one_eq_mod p.toNat 12
  rw [← UInt32.toNat_inj, hand]
  rfl

theorem frameRange_succ (start : UInt32) (n : ℕ) :
    frameRange start (n + 1) = frameRange start n ++ [start + UInt32.ofNat (4096 * n)] := by
  rw [frameRange, List.range_succ, List.map_append]
  rfl

namespace FrameBounds
variable {start size p : UInt32} {n : ℕ}

theorem toNat_frame (h : FrameBounds start size) {i : ℕ} (hi : 4096 * i ≤ size.toNat) :
    (start + UInt32.ofNat (4096 * i)).toNat = start.toNat + 4096 * i := by
  have hwrap := h.no_wrap
  rw [UInt32.toNat_add, UInt32.toNat_ofNat', Nat.mod_eq_of_lt (by omega : 4096 * i < 2 ^ 32),
    Nat.mod_eq_of_lt (by omega)]

theorem mem_frameRange (h : FrameBounds start size) (hn : 4096 * n ≤ size.toNat)
    (hp : p ∈ frameRange start n) :
    offset p = 0 ∧ start.toNat ≤ p.toNat ∧ p.toNat + 4096 ≤ start.toNat + 4096 * n := by
  obtain ⟨i, hi, rfl⟩ := List.mem_map.mp hp
  rw [List.mem_range] at hi
  have haligned := offset_eq_zero.mp h.start_aligned
  rw [offset_eq_zero, h.toNat_frame (by omega)]
  omega

theorem nodup_frameRange (h : FrameBounds start size) (hn : 4096 * n ≤ size.toNat) :
    (frameRange start n).Nodup := by
  refine List.nodup_range.map_on fun i hi j hj he => ?_
  rw [List.mem_range] at hi hj
  have hnat := congrArg UInt32.toNat he
  rw [h.toNat_frame (by omega), h.toNat_frame (by omega)] at hnat
  omega

end FrameBounds

end MMapKernel.Vmm
