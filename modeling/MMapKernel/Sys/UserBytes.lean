import MMapKernel.Lib.Ram
import MMapKernel.Sys.ExecSafe

/-!
# Bytes of user memory

What a process finds at an address, and what the kernel changes when it stores a byte on behalf of
the process. As long as the regions of the process are anonymous, each page has a frame of its own,
so that a store changes one byte.
-/

namespace MMapKernel.Vmm
namespace Kernel

def frameOf (k : Kernel) (pid : ℕ) (x : UInt32) : Option ℕ :=
  if x < 0x80000000 then some (x.toNat / 4096 * 4096)
  else (k.procs[pid]?).bind fun p => (p.pd.lookup (pageOf x)).map Pte.frame

def byteAt (k : Kernel) (pid : ℕ) (x : UInt32) : Option UInt8 :=
  (k.frameOf pid x).map fun f => k.phys.bytes f (x.toNat % 4096)

def setByte (k : Kernel) (pid : ℕ) (x : UInt32) (b : UInt8) : Kernel :=
  match k.frameOf pid x with
  | none => k
  | some f => { k with phys := k.phys.fill f (Function.update (k.phys.bytes f) (x.toNat % 4096) b) }

end Kernel
end MMapKernel.Vmm

namespace MMapKernel.Sys
open Fs Vmm

structure Write where
  held : Bool
  address : UInt32
  byte : UInt8

def Write.transfer (w : Write) : Bool × UInt32 := (w.held, w.address)

def Write.entry (w : Write) : UInt32 × UInt8 := (w.address, w.byte)

def Write.perform (inode : ℕ → Node) (pid : ℕ) (k : Kernel) (w : Write) : Option Kernel :=
  (store inode pid w.held k w.address).map fun k => k.setByte pid w.address w.byte

def writeAll (inode : ℕ → Node) (pid : ℕ) (k : Kernel) (ws : List Write) : Option Kernel :=
  ws.foldlM (Write.perform inode pid) k

section
variable {cfg : Config} {files : FileSystem} {inode : ℕ → Node} {pid total : ℕ} {maps : List VMEntry}
  {r : Residency} {k k' : Kernel} {p : Process} {x y : UInt32} {b c : UInt8} {w : Write} {ws : List Write}

theorem Resides.setByte (h : Resides pid maps total r k) (x : UInt32) (b : UInt8) :
    Resides pid maps total r (k.setByte pid x b) := by
  unfold Kernel.setByte
  split
  case h_1 => exact h
  case h_2 => exact ⟨h.running, h.nodes, h.named, ⟨h.whole.bound, h.whole.frames⟩, h.room⟩

theorem write_spec (inode : ℕ → Node) (h : Resides pid maps total r k) (w : Write) :
    ComesTo pid maps total (r.touch maps w.address) (r.Serves maps w.address ∧ r.Quiet inode maps w.transfer)
      (w.perform inode pid k) := by
  obtain ⟨hiff, hnext⟩ := store_spec inode h w.transfer
  unfold Write.perform
  refine ⟨?_, fun k' hk' => ?_⟩
  · refine Iff.trans ?_ hiff
    simp [Option.map_eq_some_iff, Write.transfer]
  · obtain ⟨k₁, hk₁, rfl⟩ := Option.map_eq_some_iff.mp hk'
    exact (hnext k₁ hk₁).setByte w.address w.byte

theorem writeAll_spec (inode : ℕ → Node) (h : Resides pid maps total r k) (ws : List Write) :
    ComesTo pid maps total ((ws.map Write.address).foldl (Residency.touch maps) r)
      ((∀ x ∈ ws.map Write.address, r.Serves maps x) ∧ r.QuietAll inode maps (ws.map Write.transfer))
      (writeAll inode pid k ws) :=
  @foldlM_comesTo pid total maps r k Write inode (fun k w => w.perform inode pid k) Write.transfer
    (fun _ _ w h => write_spec inode h w) h ws

/-- The process has no file mapped, and each of its user pages is in a frame of its own that the
allocator does not have to give. -/
structure Owns (cfg : Config) (p : Process) (m : PhysMem) : Prop where
  anonymous : ∀ e ∈ p.entryList, e.file = none
  kept : ∀ g pte, UserPage cfg g → p.pd.lookup g = some pte → ¬m.Available pte.frame
  distinct : ∀ g g' pte pte', UserPage cfg g → UserPage cfg g' → p.pd.lookup g = some pte →
    p.pd.lookup g' = some pte' → pte.frame = pte'.frame → g = g'
  whole : m.Whole
  ledger : Ledger m []

def Owning (cfg : Config) (pid : ℕ) (k : Kernel) : Prop :=
  ∃ p, k.procs[pid]? = some p ∧ p.status = .live ∧ Owns cfg p k.phys

def Keeps (cfg : Config) (pid : ℕ) (k k' : Kernel) (P : UInt32 → Prop) : Prop :=
  ∀ y, UserByte cfg y → P y → ∀ c, k.byteAt pid y = some c → k'.byteAt pid y = some c

theorem frameOf_user (hx : UserByte cfg x) (hp : k.procs[pid]? = some p) :
    k.frameOf pid x = (p.pd.lookup (pageOf x)).map Pte.frame := by
  rw [Kernel.frameOf, if_neg (UInt32.not_lt.mpr hx.user), hp, Option.bind_some]

theorem Owns.fault {m m₁ m' : PhysMem} {f : ℕ} {pd : PageDir} (h : Owns cfg p m)
    (ha : m.allocFrame = some (f, m₁))
    (hmap : p.pd.userMap m₁ (framedown x) f = some (pd, m')) :
    Owns cfg { p with pd := pd } m' ∧ (∀ g, ¬m.Available g → m'.bytes g = m.bytes g) ∧
      ∀ g, pd.lookup g = if g = pageOf x then some ⟨f, true⟩ else p.pd.lookup g := by
  obtain ⟨hf, hdraws, -⟩ := PhysMem.draws_alloc h.whole ha
  have hledger := h.ledger.alloc ha
  obtain ⟨hlook, htable⟩ := PageDir.install_spec hmap
  simp only [pageOf_framedown] at hlook
  obtain ⟨hboth, hledger'⟩ : PhysMem.Draws m m' ∧ Ledger m' [f] := by
    rcases htable with ⟨rfl, -⟩ | ⟨t, ht, -⟩
    · exact ⟨hdraws, hledger⟩
    · refine ⟨hdraws.trans (PhysMem.draws_alloc hdraws.whole ht).2.1, (hledger.alloc ht).forget ?_⟩
      exact (List.sublist_cons_self t [f]).subperm
  have hold : ∀ g pte, UserPage cfg g → p.pd.lookup g = some pte → pte.frame ≠ f :=
    fun g pte hg hpte heq => h.kept g pte hg hpte (heq ▸ hf)
  refine ⟨⟨h.anonymous, fun g pte hg hpte => ?_, fun g g' pte pte' hg hg' hpte hpte' heq => ?_,
    hboth.whole, hledger'.forget (List.nil_subperm)⟩, hboth.kept, hlook⟩
  · rw [hlook] at hpte
    split at hpte
    case isTrue =>
      cases hpte
      exact hledger'.unavailable List.mem_cons_self
    case isFalse => exact fun hav => h.kept g pte hg hpte (hboth.fewer _ hav)
  · rw [hlook] at hpte hpte'
    split at hpte
    case isTrue hgx =>
      cases hpte
      split at hpte'
      case isTrue hgx' => exact hgx.trans hgx'.symm
      case isFalse => exact absurd heq.symm (hold g' pte' hg' hpte')
    case isFalse =>
      split at hpte'
      case isTrue =>
        cases hpte'
        exact absurd heq (hold g pte hg hpte)
      case isFalse => exact h.distinct g g' pte pte' hg hg' hpte hpte' heq

theorem pageIn_cases (hx : ¬x < 0x80000000) (hp : k.procs[pid]? = some p)
    (hanon : ∀ e ∈ p.entryList, e.file = none) (hs : pageIn files pid k x = some k') :
    ((p.pd.lookup (pageOf x)).isSome ∧ k' = k) ∨
    ∃ f m pd m', p.pd.lookup (pageOf x) = none ∧ k.phys.allocFrame = some (f, m) ∧
      p.pd.userMap m (framedown x) f = some (pd, m') ∧
      k' = { k with phys := m' }.put pid { p with pd := pd } := by
  rw [pageIn, if_neg hx, hp, Option.bind_some] at hs
  split at hs
  case isTrue hpresent =>
    cases hs
    exact Or.inl ⟨hpresent, rfl⟩
  case isFalse habsent =>
    rw [Bool.not_eq_true, Option.isSome_eq_false_iff, Option.isNone_iff_eq_none] at habsent
    obtain ⟨k₁, hfault, hk⟩ := Option.bind_eq_some_iff.mp hs
    rw [Option.ite_none_right_eq_some, Option.some.injEq] at hk
    obtain ⟨hany, rfl⟩ := hk
    have hlt := (List.getElem?_eq_some_iff.mp hp).1
    obtain ⟨-, rfl⟩ | ⟨front, e, back, pa, e', k₂, pd, m, hes, -, -, hres, hmap, rfl⟩ := pageFault_cases hfault
    · rw [Kernel.put, List.getElem?_set_self hlt] at hany
      simp [Process.stopped] at hany
    · have hfile : e.sharedFile = none := by
        rw [VMEntry.sharedFile, hanon e (by simp [hes]), ite_self]
      obtain ⟨-, rfl, m₁, ha, rfl⟩ | ⟨_, _, _, hs, -⟩ | ⟨_, _, hs, -⟩ := resolve_cases hres
      · refine Or.inr ⟨pa, m₁, pd, m, habsent, ha, hmap, ?_⟩
        rw [← hes]
      · rw [hfile] at hs
        cases hs
      · rw [hfile] at hs
        cases hs

theorem Owning.pageIn (h : Owning cfg pid k) (hx : UserByte cfg x) (hs : Sys.pageIn files pid k x = some k') :
    Owning cfg pid k' ∧ (k'.frameOf pid x).isSome ∧ Keeps cfg pid k k' fun _ => True := by
  obtain ⟨p, hp, hlive, hown⟩ := h
  have hlt := (List.getElem?_eq_some_iff.mp hp).1
  obtain ⟨hpresent, rfl⟩ | ⟨f, m, pd, m', hnone, ha, hmap, rfl⟩ :=
    pageIn_cases (UInt32.not_lt.mpr hx.user) hp hown.anonymous hs
  · refine ⟨⟨p, hp, hlive, hown⟩, ?_, fun _ _ _ _ hc => hc⟩
    rw [frameOf_user hx hp, Option.isSome_map]
    exact hpresent
  · obtain ⟨hown', hbytes, hlook⟩ := hown.fault ha hmap
    have hget : ({ k with phys := m' }.put pid { p with pd := pd }).procs[pid]? = some { p with pd := pd } :=
      List.getElem?_set_self hlt
    refine ⟨⟨_, hget, hlive, hown'⟩, ?_, fun y hy _ c hc => ?_⟩
    · rw [frameOf_user hx hget, hlook, if_pos rfl]
      rfl
    · rw [Kernel.byteAt, frameOf_user hy hp, Option.map_map, Option.map_eq_some_iff] at hc
      obtain ⟨pte, hpte, hc⟩ := hc
      have hne : pageOf y ≠ pageOf x := fun heq => by
        rw [heq, hnone] at hpte
        cases hpte
      rw [Kernel.byteAt, frameOf_user hy hget, hlook, if_neg hne, hpte, Option.map_some, Option.map_some]
      exact congrArg some ((congrFun (hbytes _ (hown.kept _ pte hy.userPage hpte)) _).trans hc)

theorem eq_of_page_offset (hg : pageOf x = pageOf y) (ho : x.toNat % 4096 = y.toNat % 4096) : x = y := by
  have haddr := congrArg (fun g => (addressOf g).toNat) hg
  simp only [addressOf_pageOf_eq, framedown_toNat] at haddr
  exact UInt32.toNat_inj.mp (by omega)

theorem Owning.setByte (h : Owning cfg pid k) (hx : UserByte cfg x) (hframe : (k.frameOf pid x).isSome) (b : UInt8) :
    Owning cfg pid (k.setByte pid x b) ∧ (k.setByte pid x b).byteAt pid x = some b ∧
      Keeps cfg pid k (k.setByte pid x b) (· ≠ x) := by
  obtain ⟨p, hp, hlive, hown⟩ := h
  obtain ⟨f, hf⟩ := Option.isSome_iff_exists.mp hframe
  have hset : k.setByte pid x b =
      { k with phys := k.phys.fill f (Function.update (k.phys.bytes f) (x.toNat % 4096) b) } := by
    simp only [Kernel.setByte, hf]
  have hsame : ∀ y, (k.setByte pid x b).frameOf pid y = k.frameOf pid y := fun y => by
    rw [hset]
    rfl
  have hphys : (k.setByte pid x b).phys.bytes =
      Function.update k.phys.bytes f (Function.update (k.phys.bytes f) (x.toNat % 4096) b) := by
    rw [hset]
    rfl
  refine ⟨?_, ?_, fun y hy hne c hc => ?_⟩
  · rw [hset]
    exact ⟨p, hp, hlive, hown.anonymous, hown.kept, hown.distinct, ⟨hown.whole.bound, hown.whole.frames⟩,
      hown.ledger.fill _ _⟩
  · rw [Kernel.byteAt, hsame, hf, hphys]
    simp
  · rw [Kernel.byteAt, Option.map_eq_some_iff] at hc
    obtain ⟨f', hf', hc⟩ := hc
    rw [Kernel.byteAt, hsame, hf', hphys, Option.map_some, Option.some.injEq, ← hc]
    by_cases hff : f' = f
    · have hpage : pageOf y = pageOf x := by
        rw [frameOf_user hx hp, Option.map_eq_some_iff] at hf
        rw [frameOf_user hy hp, Option.map_eq_some_iff] at hf'
        obtain ⟨pte, hpte, rfl⟩ := hf
        obtain ⟨pte', hpte', rfl⟩ := hf'
        exact hown.distinct _ _ pte' pte hy.userPage hx.userPage hpte' hpte hff
      have hoff : y.toNat % 4096 ≠ x.toNat % 4096 := fun ho => hne (eq_of_page_offset hpage ho)
      rw [hff, Function.update_self, Function.update_of_ne hoff]
    · rw [Function.update_of_ne hff]

theorem Owning.write (h : Owning cfg pid k) (hx : UserByte cfg w.address) (hs : w.perform inode pid k = some k') :
    Owning cfg pid k' ∧ k'.byteAt pid w.address = some w.byte ∧ Keeps cfg pid k k' (· ≠ w.address) := by
  obtain ⟨k₁, hk₁, rfl⟩ := Option.map_eq_some_iff.mp hs
  obtain ⟨hown, hframe, hkeep⟩ := h.pageIn hx (store_some_iff.mp hk₁).2
  obtain ⟨hown', hbyte, hkeep'⟩ := hown.setByte hx hframe w.byte
  exact ⟨hown', hbyte, fun y hy hne c hc => hkeep' y hy hne c (hkeep y hy trivial c hc)⟩

theorem Owning.replay (h : Owning cfg pid k) (hx : ∀ w ∈ ws, UserByte cfg w.address) (byte : UInt32 → UInt8)
    (hs : Sys.writeAll inode pid k ws = some k') : Owning cfg pid k' ∧
      (∀ y ∈ ws.map Write.address, k'.byteAt pid y = some (Ram.replay byte (ws.map Write.entry) y)) ∧
      Keeps cfg pid k k' fun y => y ∉ ws.map Write.address := by
  induction ws generalizing k byte with
  | nil =>
    cases hs
    exact ⟨h, by simp, fun _ _ _ _ hc => hc⟩
  | cons w ws ih =>
    rw [List.forall_mem_cons] at hx
    obtain ⟨k₁, hk₁, hrest⟩ := Option.bind_eq_some_iff.mp ((List.foldlM_cons ..).symm.trans hs)
    obtain ⟨hown₁, hbyte, hkeep₁⟩ := h.write hx.1 hk₁
    obtain ⟨hown, hbytes, hkeep⟩ := ih hown₁ hx.2 (Function.update byte w.address w.byte) hrest
    have hmap : (ws.map Write.entry).map Prod.fst = ws.map Write.address := List.map_map
    refine ⟨hown, fun y hy => ?_, fun y hy hout c hc => ?_⟩
    · by_cases hlater : y ∈ ws.map Write.address
      · exact hbytes y hlater
      · obtain rfl | hy := List.mem_cons.mp hy
        · have hlast : Ram.replay (Function.update byte w.address w.byte) (ws.map Write.entry) w.address = w.byte := by
            rw [Ram.replay_of_notMem (hmap.symm ▸ hlater), Function.update_self]
          rw [hkeep w.address hx.1 hlater w.byte hbyte]
          exact congrArg some hlast.symm
        · exact absurd hy hlater
    · rw [List.map_cons, List.mem_cons, not_or] at hout
      exact hkeep y hy hout.2 c (hkeep₁ y hy hout.1 c hc)

theorem Owning.writeAll (h : Owning cfg pid k) (hx : ∀ w ∈ ws, UserByte cfg w.address)
    (hnd : (ws.map Write.address).Nodup) (hs : Sys.writeAll inode pid k ws = some k') :
    Owning cfg pid k' ∧ (∀ w ∈ ws, k'.byteAt pid w.address = some w.byte) ∧
      Keeps cfg pid k k' fun y => y ∉ ws.map Write.address := by
  obtain ⟨hown, hbytes, hkeep⟩ := h.replay hx (fun _ => 0) hs
  have hmap : (ws.map Write.entry).map Prod.fst = ws.map Write.address := List.map_map
  refine ⟨hown, fun w hw => ?_, hkeep⟩
  rw [hbytes w.address (List.mem_map_of_mem hw)]
  exact congrArg some (Ram.replay_of_nodup (hmap ▸ hnd) (List.mem_map_of_mem (f := Write.entry) hw))

end
end MMapKernel.Sys
