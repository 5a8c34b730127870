import MMapKernel.Lib.Transition
import MMapKernel.Vmm.FrameMemory

/-!
# Histories of the frame allocator

Calls one after another, as the lock of the allocator has it. Only frames that are handed out are given
back, and only these are written to. The frames of the free list and those that are handed out are
together the first frames of the range, each of them once.

Frame 0 cannot be on the free list, whose pointer would then be null: the range is taken to start
behind it.
-/

namespace MMapKernel.Vmm
open Transition FrameMemory

structure Held where
  mem : FrameMemory
  out : List UInt32

inductive FrameCall where
  | alloc
  | dealloc (p : UInt32)
  | write (p : UInt32) (content : Content)

def Held.call (s : Held) : FrameCall → Option Held
  | .alloc =>
    match s.mem.allocFrame with
    | .ok (p, m) => some ⟨m, p :: s.out⟩
    | .error _ => none
  | .dealloc p =>
    if p ∈ s.out then
      match s.mem.deallocFrame p with
      | .ok m => some ⟨m, s.out.erase p⟩
      | .error _ => none
    else none
  | .write p content => if p ∈ s.out then some ⟨s.mem.store p content, s.out⟩ else none

def frameCalls (start size : UInt32) : System Held FrameCall where
  init s := s.out = [] ∧ ∃ words, (boot words).init start size = .ok s.mem
  step s i t := s.call i = some t

/-- The free list and the frames that are handed out share out the first `n` frames of the range. -/
structure Portioned (start size : UInt32) (s : Held) (free : List UInt32) (n : ℕ) : Prop where
  list : s.mem.FreeList free
  perm : (free ++ s.out).Perm (frameRange start n)
  avail : s.mem.avail = start + UInt32.ofNat (4096 * n)
  limit : s.mem.limit = start + size
  inside : 4096 * n ≤ size.toNat

namespace Portioned
variable {start size p : UInt32} {s t : Held} {m : FrameMemory} {free : List UInt32} {n : ℕ}

theorem nodup (h : Portioned start size s free n) (hb : FrameBounds start size) : (free ++ s.out).Nodup :=
  h.perm.nodup_iff.mpr (hb.nodup_frameRange h.inside)

theorem mem_range (h : Portioned start size s free n) (hp : p ∈ free ++ s.out) : p ∈ frameRange start n :=
  h.perm.mem_iff.mp hp

theorem notMem_free (h : Portioned start size s free n) (hb : FrameBounds start size) (hp : p ∈ s.out) :
    p ∉ free := fun hm => (List.nodup_append.mp (h.nodup hb)).2.2 p hm p hp rfl

theorem of_init (hb : FrameBounds start size) {words : UInt32 → Content}
    (h : (boot words).init start size = .ok m) : Portioned start size ⟨m, []⟩ [] 0 := by
  rw [FrameMemory.init, if_pos hb.start_aligned, if_pos hb.size_aligned] at h
  cases h
  exact ⟨rfl, List.Perm.nil, (UInt32.add_zero start).symm, rfl, Nat.zero_le _⟩

theorem room (h : Portioned start size s free n) (hb : FrameBounds start size)
    (hne : s.mem.avail ≠ s.mem.limit) : 4096 * (n + 1) ≤ size.toNat := by
  have hinside := h.inside
  have haligned := offset_eq_zero.mp hb.size_aligned
  have hsize : 4096 * n ≠ size.toNat := by
    intro he
    rw [h.avail, h.limit, he, UInt32.ofNat_toNat] at hne
    exact hne rfl
  omega

theorem take (h : Portioned start size s free n) (hb : FrameBounds start size)
    (htake : s.mem.takeFrame = .ok (p, m)) : p ∉ s.out ∧ p ∈ frameRange start (size.toNat / 4096) ∧
      m.words = s.mem.words ∧ ∃ free' n', p ∉ free' ∧ Portioned start size ⟨m, p :: s.out⟩ free' n' := by
  have hnodup := h.nodup hb
  have hinside := h.inside
  rcases takeFrame_cases h.list htake with
    ⟨rest, rfl, hlist, havail, hwords, hlimit⟩ | ⟨rfl, hne, rfl, hlist, havail, hwords, hlimit⟩
  · obtain ⟨hp, -⟩ := List.nodup_cons.mp hnodup
    have hout : p ∉ s.out := fun hm => hp (List.mem_append_right rest hm)
    have hrest : p ∉ rest := fun hm => hp (List.mem_append_left s.out hm)
    have hmem := h.mem_range (p := p) List.mem_cons_self
    obtain ⟨i, hi, hip⟩ := List.mem_map.mp hmem
    rw [List.mem_range] at hi
    refine ⟨hout, List.mem_map.mpr ⟨i, List.mem_range.mpr (by omega), hip⟩, hwords, rest, n, hrest, ?_⟩
    exact ⟨hlist, List.perm_middle.trans h.perm, havail.trans h.avail, hlimit.trans h.limit, hinside⟩
  · have hroom := h.room hb hne
    have hfresh : s.mem.avail ∉ frameRange start n := by
      intro hm
      have hlast := (hb.mem_frameRange hinside hm).2.2
      rw [h.avail, hb.toNat_frame hinside] at hlast
      omega
    have hout : s.mem.avail ∉ s.out := fun hm => hfresh (h.mem_range hm)
    refine ⟨hout, ?_, hwords, [], n + 1, List.not_mem_nil, hlist, ?_, ?_, hlimit.trans h.limit, hroom⟩
    · rw [h.avail]
      exact List.mem_map.mpr ⟨n, List.mem_range.mpr (by omega), rfl⟩
    · rw [frameRange_succ, ← h.avail]
      exact (List.perm_append_singleton _ _).symm.trans (h.perm.append_right _)
    · rw [havail, h.avail, UInt32.add_assoc, Nat.mul_succ, UInt32.ofNat_add]
      rfl

theorem aligned (h : Portioned start size s free n) (hb : FrameBounds start size) (hp : p ∈ s.out) :
    offset p = 0 := (hb.mem_frameRange h.inside (h.mem_range (List.mem_append_right free hp))).1

theorem store (h : Portioned start size s free n) (hp : p ∉ free) (content : Content) :
    Portioned start size ⟨s.mem.store p content, s.out⟩ free n :=
  ⟨h.list.store hp content, h.perm, h.avail, h.limit, h.inside⟩

theorem alloc (h : Portioned start size s free n) (hb : FrameBounds start size)
    (halloc : s.mem.allocFrame = .ok (p, m)) :
    ∃ free' n', Portioned start size ⟨m, p :: s.out⟩ free' n' := by
  obtain ⟨taken, htake, -, rfl⟩ := allocFrame_eq_ok halloc
  obtain ⟨-, -, -, free', n', hp, hportioned⟩ := h.take hb htake
  exact ⟨free', n', hportioned.store hp _⟩

theorem ne_zero (h : Portioned start size s free n) (hb : FrameBounds start size) (hstart : start ≠ 0)
    (hp : p ∈ s.out) : p ≠ 0 := by
  obtain ⟨-, hlow, -⟩ := hb.mem_frameRange h.inside (h.mem_range (List.mem_append_right free hp))
  intro hzero
  rw [hzero] at hlow
  exact hstart (UInt32.toNat_inj.mp (Nat.le_zero.mp hlow))

theorem dealloc (h : Portioned start size s free n) (hb : FrameBounds start size) (hstart : start ≠ 0)
    (hp : p ∈ s.out) (hdealloc : s.mem.deallocFrame p = .ok m) :
    Portioned start size ⟨m, s.out.erase p⟩ (p :: free) n := by
  obtain ⟨_, hok, -, havail, hlimit, -⟩ := s.mem.deallocFrame_eq_ok (h.aligned hb hp)
  have hlist := h.list.dealloc (h.ne_zero hb hstart hp) (h.notMem_free hb hp) hdealloc
  rw [hok] at hdealloc
  cases hdealloc
  refine ⟨hlist, ?_, havail.trans h.avail, hlimit.trans h.limit, h.inside⟩
  have hperm : (p :: (free ++ s.out.erase p)).Perm (free ++ s.out) :=
    List.perm_middle.symm.trans ((List.perm_cons_erase hp).symm.append_left free)
  exact hperm.trans h.perm

theorem call (h : Portioned start size s free n) (hb : FrameBounds start size) (hstart : start ≠ 0)
    {i : FrameCall} (hcall : s.call i = some t) : ∃ free' n', Portioned start size t free' n' := by
  cases i with
  | alloc =>
    simp only [Held.call] at hcall
    split at hcall
    case h_1 halloc =>
      cases hcall
      exact h.alloc hb halloc
    case h_2 => cases hcall
  | dealloc p =>
    simp only [Held.call] at hcall
    split at hcall
    case isTrue hp =>
      split at hcall
      case h_1 hdealloc =>
        cases hcall
        exact ⟨_, _, h.dealloc hb hstart hp hdealloc⟩
      case h_2 => cases hcall
    case isFalse => cases hcall
  | write p content =>
    simp only [Held.call] at hcall
    split at hcall
    case isTrue hp =>
      cases hcall
      exact ⟨free, n, h.store (h.notMem_free hb hp) content⟩
    case isFalse => cases hcall

theorem alloc_error (h : Portioned start size s free n) (hb : FrameBounds start size) {e : FramePanic}
    (herror : s.mem.allocFrame = .error e) :
    e = .noMoreFrames ∧ s.out.Perm (frameRange start (size.toNat / 4096)) := by
  rcases allocFrame_eq_error herror with htake | ⟨-, p, taken, htake, hp⟩
  · obtain ⟨rfl, rfl, hlimit⟩ := takeFrame_error h.list htake
    refine ⟨rfl, ?_⟩
    have hinside := h.inside
    have hwrap := hb.no_wrap
    have hend : (UInt32.ofNat (4096 * n)).toNat = size.toNat := by
      rw [h.avail, h.limit, UInt32.add_right_inj] at hlimit
      exact congrArg UInt32.toNat hlimit
    rw [UInt32.toNat_ofNat', Nat.mod_eq_of_lt (by omega)] at hend
    obtain rfl : n = size.toNat / 4096 := by omega
    exact h.perm
  · obtain ⟨-, hmem, -⟩ := h.take hb htake
    exact absurd (hb.mem_frameRange (Nat.mul_div_le _ _) hmem).1 hp

theorem refines (h : Portioned start size s free n) (hb : FrameBounds start size) (hstart : start ≠ 0)
    {a : PhysMem} (hr : Refines s.mem free a) :
    (∀ p m, s.mem.allocFrame = .ok (p, m) →
      ∃ free' a', a.allocFrame = some (p.toNat, a') ∧ Refines m free' a') ∧
    (∀ e, s.mem.allocFrame = .error e → a.allocFrame = none) ∧
    ∀ p ∈ s.out, ∀ m, s.mem.deallocFrame p = .ok m → Refines m (p :: free) (a.deallocFrame p.toNat) := by
  refine ⟨fun p m halloc => ?_, fun e herror => ?_, fun p hp m hdealloc => ?_⟩
  · refine hr.alloc (List.nodup_append.mp (h.nodup hb)).1 (fun hne => ?_) halloc
    have hroom := h.room hb hne
    have hwrap := hb.no_wrap
    rw [h.avail, hb.toNat_frame h.inside]
    omega
  · rcases allocFrame_eq_error herror with htake | ⟨-, p, taken, htake, hp⟩
    · obtain ⟨rfl, -⟩ := takeFrame_error h.list htake
      exact hr.alloc_none htake
    · obtain ⟨-, hmem, -⟩ := h.take hb htake
      exact absurd (hb.mem_frameRange (Nat.mul_div_le _ _) hmem).1 hp
  · exact hr.dealloc (h.ne_zero hb hstart hp) (h.notMem_free hb hp) hdealloc

end Portioned

theorem portioned_of_reachable {start size : UInt32} (hb : FrameBounds start size) (hstart : start ≠ 0)
    {s : Held} (hs : Reachable (frameCalls start size) s) : ∃ free n, Portioned start size s free n := by
  induction hs with
  | @start s h =>
    obtain ⟨hout, words, hinit⟩ := h
    have hportioned := Portioned.of_init hb hinit
    rw [← hout] at hportioned
    exact ⟨_, _, hportioned⟩
  | next _ hcall ih =>
    obtain ⟨free, n, hportioned⟩ := ih
    exact hportioned.call hb hstart hcall

/-- After every history: a frame that `alloc_frame` returns is aligned, in the range, all zeros and not
in use, the frames in use keep their contents, a frame in use can be given back, and the allocator gives
up only when all frames of the range are in use. -/
theorem frames_fresh (start size : UInt32) (hb : FrameBounds start size) (hstart : start ≠ 0) (s : Held)
    (hs : Reachable (frameCalls start size) s) :
    (∀ p m, s.mem.allocFrame = .ok (p, m) → offset p = 0 ∧ start.toNat ≤ p.toNat ∧
      p.toNat < start.toNat + size.toNat ∧ (m.words p = fun _ => 0) ∧ p ∉ s.out ∧
      ∀ q ∈ s.out, m.words q = s.mem.words q) ∧
    (∀ p ∈ s.out, ∃ m, s.mem.deallocFrame p = .ok m) ∧
    ∀ e, s.mem.allocFrame = .error e →
      e = .noMoreFrames ∧ s.out.Perm (frameRange start (size.toNat / 4096)) := by
  obtain ⟨free, n, hportioned⟩ := portioned_of_reachable hb hstart hs
  refine ⟨fun p m halloc => ?_, fun p hp => ?_, fun e herror => hportioned.alloc_error hb herror⟩
  · obtain ⟨taken, htake, haligned, rfl⟩ := allocFrame_eq_ok halloc
    obtain ⟨hout, hmem, hwords, -⟩ := hportioned.take hb htake
    have hfull := Nat.mul_div_le size.toNat 4096
    obtain ⟨-, hlow, hhigh⟩ := hb.mem_frameRange hfull hmem
    refine ⟨haligned, hlow, by omega, store_self .., hout, fun q hq => ?_⟩
    have hne : q ≠ p := fun he => hout (he ▸ hq)
    rw [bzero, store_of_ne _ _ hne, hwords]
  · obtain ⟨m, hok, -⟩ := s.mem.deallocFrame_eq_ok (hportioned.aligned hb hp)
    exact ⟨m, hok⟩

def fresh (start size : UInt32) : Held := ⟨⟨fun _ _ => 0, 0, start, start + size⟩, []⟩

theorem fresh_reachable {start size : UInt32} (hb : FrameBounds start size) :
    Reachable (frameCalls start size) (fresh start size) := by
  refine .start ⟨rfl, fun _ _ => 0, ?_⟩
  rw [FrameMemory.init, if_pos hb.start_aligned, if_pos hb.size_aligned]
  rfl

def Held.stuckWith (s : Held) (out : List UInt32) : Bool :=
  match s.mem.allocFrame with
  | .ok _ => false
  | .error e => e == .noMoreFrames && s.out == out

theorem Held.stuckWith_eq {s : Held} {out : List UInt32} (h : s.stuckWith out) :
    s.mem.allocFrame = .error .noMoreFrames ∧ s.out = out := by
  unfold stuckWith at h
  split at h
  case h_1 => cases h
  case h_2 e he =>
    rw [Bool.and_eq_true, beq_iff_eq, beq_iff_eq] at h
    exact ⟨h.1 ▸ he, h.2⟩

theorem stuck_of_run {start size : UInt32} (hb : FrameBounds start size) (calls : List FrameCall)
    (out : List UInt32)
    (h : (run Held.call (fun _ _ => true) (fresh start size) calls).any (Held.stuckWith · out)) :
    ∃ s, Reachable (frameCalls start size) s ∧ s.mem.allocFrame = .error .noMoreFrames ∧ s.out = out := by
  obtain ⟨s, hrun, hstuck⟩ := (Option.any_eq_true _ _).mp h
  exact ⟨s, run_reachable (fun _ _ _ _ hcall => hcall) (fresh_reachable hb) hrun, Held.stuckWith_eq hstuck⟩

theorem two_frames_used_up : ∃ s, Reachable (frameCalls 0x600000 0x2000) s ∧
    s.mem.allocFrame = .error .noMoreFrames ∧ s.out.Perm (frameRange 0x600000 2) := by
  have hb : FrameBounds 0x600000 0x2000 := ⟨by decide, by decide, by decide⟩
  obtain ⟨s, hs, hstuck, -⟩ :=
    stuck_of_run hb [.alloc, .alloc] [0x601000, 0x600000] (by decide +kernel)
  exact ⟨s, hs, hstuck, ((frames_fresh _ _ hb (by decide) s hs).2.2 _ hstuck).2⟩

theorem frame_zero_is_lost : ¬ ∀ start size, FrameBounds start size →
    ∀ s, Reachable (frameCalls start size) s → s.mem.allocFrame = .error .noMoreFrames →
      s.out.Perm (frameRange start (size.toNat / 4096)) := by
  intro h
  have hb : FrameBounds 0 4096 := ⟨by decide, by decide, by decide⟩
  obtain ⟨s, hs, hstuck, hout⟩ :=
    stuck_of_run hb [.alloc, .dealloc 0] [] (by decide +kernel)
  have hperm := h 0 4096 hb s hs hstuck
  rw [hout] at hperm
  exact absurd hperm.length_eq (by decide +kernel)

end MMapKernel.Vmm
