import MMapKernel.Vmm.EntryList

/-!
# Ranges of user memory

A store loop of the kernel writes consecutive addresses from a pointer on, modulo `2 ^ 32`. Such a
range stays in the user pages exactly if its start does, it does not run over the top of the
address space and it meets neither device page.

A store to a page that is not present enters the fault handler first, which may end the process;
the loop then stops there. The lists here are those of a loop that is not stopped.
-/

namespace MMapKernel.Sys

def addresses (p : UInt32) (n : ℕ) : List UInt32 := (List.range n).map fun i => p + UInt32.ofNat i

def InPage (base a : UInt32) : Prop := base.toNat ≤ a.toNat ∧ a.toNat < base.toNat + 4096

instance (base a : UInt32) : Decidable (InPage base a) := inferInstanceAs (Decidable (_ ∧ _))

structure UserByte (cfg : Config) (a : UInt32) : Prop where
  user : 0x80000000 ≤ a
  io : ¬ InPage cfg.ioAPIC a
  apic : ¬ InPage cfg.localAPIC a

def Misses (base p : UInt32) (n : ℕ) : Prop :=
  p.toNat + n ≤ base.toNat ∨ base.toNat + 4096 ≤ p.toNat

def Clear (cfg : Config) (p : UInt32) (n : ℕ) : Prop :=
  n = 0 ∨ 0x80000000 ≤ p ∧ p.toNat + n ≤ 2 ^ 32 ∧ Misses cfg.ioAPIC p n ∧ Misses cfg.localAPIC p n

theorem mem_addresses {p a : UInt32} {n : ℕ} :
    a ∈ addresses p n ↔ ∃ i < n, a.toNat = (p.toNat + i) % 2 ^ 32 := by
  simp only [addresses, List.mem_map, List.mem_range]
  refine exists_congr fun i => and_congr_right fun _ => ?_
  rw [← UInt32.toNat_inj, UInt32.toNat_add, UInt32.toNat_ofNat', Nat.add_mod_mod]
  exact eq_comm

theorem mem_addresses_of_le {p a : UInt32} {n : ℕ} (hp : p.toNat ≤ a.toNat)
    (ha : a.toNat < p.toNat + n) : a ∈ addresses p n := by
  have := a.toNat_lt
  exact mem_addresses.mpr ⟨a.toNat - p.toNat, by omega, by omega⟩

theorem addresses_zero (p : UInt32) : addresses p 0 = [] := rfl

theorem Misses.notMem {base p a : UInt32} {n : ℕ} (h : Misses base p n) (hw : p.toNat + n ≤ 2 ^ 32)
    (ha : a ∈ addresses p n) : ¬ InPage base a := by
  obtain ⟨i, hi, hai⟩ := mem_addresses.mp ha
  rintro ⟨hlo, hhi⟩
  rcases h with h | h
  · omega
  · omega

theorem misses_of_notMem {base p : UInt32} {n : ℕ} (hn : 0 < n)
    (h : ∀ a ∈ addresses p n, ¬ InPage base a) : Misses base p n := by
  by_contra hm
  unfold Misses at hm
  -- the first byte of the range that lies in the page
  rcases le_total base.toNat p.toNat with hle | hle
  · exact h p (mem_addresses_of_le le_rfl (by omega)) ⟨hle, by omega⟩
  · exact h base (mem_addresses_of_le hle (by omega)) ⟨le_rfl, by omega⟩

theorem Clear.userByte {cfg : Config} {p a : UInt32} {n : ℕ} (h : Clear cfg p n)
    (ha : a ∈ addresses p n) : UserByte cfg a := by
  rcases h with rfl | ⟨hp, hw, hio, hlocal⟩
  · simp [addresses_zero] at ha
  · refine ⟨?_, hio.notMem hw ha, hlocal.notMem hw ha⟩
    obtain ⟨i, hi, hai⟩ := mem_addresses.mp ha
    rw [UInt32.le_iff_toNat_le] at hp ⊢
    omega

theorem addresses_user_iff (cfg : Config) (p : UInt32) (n : ℕ) :
    (∀ a ∈ addresses p n, UserByte cfg a) ↔ Clear cfg p n := by
  refine ⟨fun h => ?_, fun h a ha => h.userByte ha⟩
  rcases Nat.eq_zero_or_pos n with hn | hn
  · exact .inl hn
  refine .inr ⟨?_, ?_, misses_of_notMem hn fun a ha => (h a ha).io,
    misses_of_notMem hn fun a ha => (h a ha).apic⟩
  · exact (h p (mem_addresses_of_le le_rfl (by omega))).user
  · -- a range over the top stores at address 0
    by_contra hw
    have hp := p.toNat_lt
    have hzero : (0 : UInt32) ∈ addresses p n :=
      mem_addresses.mpr ⟨2 ^ 32 - p.toNat, by omega, by simp [Nat.add_sub_cancel' hp.le]⟩
    exact absurd (h 0 hzero).user (by decide)

theorem Clear.mono {cfg : Config} {p : UInt32} {m n : ℕ} (h : Clear cfg p n) (hm : m ≤ n) :
    Clear cfg p m := by
  rw [← addresses_user_iff]
  intro a ha
  obtain ⟨i, hi, hai⟩ := mem_addresses.mp ha
  exact h.userByte (mem_addresses.mpr ⟨i, hi.trans_le hm, hai⟩)

end MMapKernel.Sys
