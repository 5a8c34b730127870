import MMapKernel.Fs.DiskLock
import MMapKernel.Fs.FileRead
import MMapKernel.Sys.Exec
import MMapKernel.Sys.Handler
import MMapKernel.Vmm.Content

/-!
# The disk lock during a read

The kernel has one disk. A read stores whole blocks into the caller's buffer while it has the lock of
the driver. A store to a page that is not there enters the fault handler, and for the first page of a
shared file the handler reads that file, which takes the lock again: the thread then waits for itself.

A turn is an action of the reading thread, with the fault it takes, or a call of another thread.
-/

open Transition
namespace MMapKernel.Sys
open Fs Vmm

def File.readActions (buf : UInt32) : File → UInt32 → List Action
  | .console, n => if n = 0 then [] else stores (some buf) 1
  | .descriptor node offset, n => node.readAllActions offset n (some buf)

def sysReadActions (cfg : Config) (hs : Handles) (fd buf nbyte : UInt32) : List Action :=
  if fd = 1 then []
  else if isSpecial cfg buf then []
  else match hs.getFile fd with
    | none => []
    | some file => file.readActions buf nbyte

theorem storesOf_sysReadActions {cfg : Config} {hs : Handles} {c : UInt8} {fd buf nbyte : UInt32}
    {r : Served} (h : sysHandler cfg hs c (.read fd buf nbyte) = some r) :
    storesOf (sysReadActions cfg hs fd buf nbyte) = r.stores := by
  simp only [sysHandler, Option.ite_none_left_eq_some, Option.map_eq_some_iff] at h
  obtain ⟨hfd, hbuf, file, hfile, rfl⟩ := h
  rw [sysReadActions, if_neg hfd, if_neg hbuf, hfile]
  dsimp only
  cases file with
  | console =>
    by_cases hn : nbyte = 0
    · simp only [File.readActions, File.read, hn, if_true]
      rfl
    · simp only [File.readActions, File.read, hn, if_false]
      exact storesOf_stores buf 1
  | descriptor node offset =>
    rw [File.readActions, node.storesOf_readAllActions, Served.stores, File.read]
    split <;> rfl

theorem sysReadActions_brackets (cfg : Config) (hs : Handles) (fd buf nbyte : UInt32) :
    Brackets (sysReadActions cfg hs fd buf nbyte) False := by
  unfold sysReadActions
  split
  case isTrue => exact .nil
  case isFalse =>
    split
    case isTrue => exact .nil
    case isFalse =>
      split
      · exact .nil
      · unfold File.readActions
        split
        · split
          case isTrue => exact .nil
          case isFalse => exact .stores _ _
        · exact (Node.io_guards _).readAll _ _ _ |>.mono False.elim

/-- The reading thread: whether it has the lock, what it has to do, and whether it has called
`read_block` with the lock. -/
structure Reader where
  kernel : Kernel
  held : Bool
  todo : List Action
  stuck : Bool

inductive Turn where
  | own
  | other (c : Call)

namespace Reader

/-- `none` where the call has come to its end or the process or the machine stops. -/
def own (inode : ℕ → Node) (pid : ℕ) (s : Reader) : Option Reader :=
  match s.todo with
  | [] => none
  | .store x :: rest =>
    match heldAfter s.held (faultActions inode s.kernel pid x) with
    | none => some { s with stuck := true, todo := [] }
    | some held =>
      if faultReturns inode s.kernel pid x then
        (pageIn (filesOf inode) pid s.kernel x).map fun k => ⟨k, held, rest, s.stuck⟩
      else none
  | action :: rest =>
    match action.held s.held with
    | none => some { s with stuck := true, todo := [] }
    | some held => some { s with held := held, todo := rest }

def step (cfg : Config) (inode : ℕ → Node) (pid : ℕ) (s : Reader) : Turn → Option Reader
  | .own => s.own inode pid
  | .other c => (s.kernel.step cfg (filesOf inode) c).map fun k => { s with kernel := k }

def Quiet (inode : ℕ → Node) (pid : ℕ) (s : Reader) : Turn → Prop
  | .own => ∀ x rest, s.todo = .store x :: rest → s.held = true →
      ∀ number offset, faultRead s.kernel pid x = some (number, offset) →
        ¬ (inode number).ReadsDisk offset
  | .other _ => True

structure Free (s : Reader) : Prop where
  stuck : s.stuck = false
  todo : ∃ h, heldAfter s.held s.todo = some h

variable {cfg : Config} {inode : ℕ → Node} {pid : ℕ} {s t : Reader}

theorem own_store {x : UInt32} {rest : List Action} (htodo : s.todo = .store x :: rest)
    (hquiet : s.Quiet inode pid .own) (h : s.own inode pid = some t) :
    ∃ k, pageIn (filesOf inode) pid s.kernel x = some k ∧ t = { s with kernel := k, todo := rest } := by
  simp only [own, htodo] at h
  cases hafter : heldAfter s.held (faultActions inode s.kernel pid x) with
  | none =>
    -- only a fault with the lock that gets to the disk takes it again
    obtain ⟨hheld, number, offset, hread, hdisk⟩ := heldAfter_fault.mp hafter
    exact absurd hdisk (hquiet x rest htodo hheld number offset hread)
  | some held =>
    rw [hafter] at h
    obtain ⟨hret, h⟩ := Option.ite_none_right_eq_some.mp h
    obtain ⟨k, hk, rfl⟩ := Option.map_eq_some_iff.mp h
    rw [heldAfter_returned hafter hret]
    exact ⟨k, hk, rfl⟩

theorem own_lock {action : Action} {rest : List Action} (htodo : s.todo = action :: rest)
    (hact : ∀ x, action ≠ .store x) (hfree : s.Free) (h : s.own inode pid = some t) :
    ∃ held, action.held s.held = some held ∧ t = { s with held := held, todo := rest } := by
  obtain ⟨b, hb⟩ := hfree.todo
  rw [htodo] at hb
  obtain ⟨held, hheld, -⟩ := Option.bind_eq_some_iff.mp
    (show (action.held s.held).bind (fun h => heldAfter h rest) = some b from hb)
  refine ⟨held, hheld, ?_⟩
  cases action with
  | store x => exact absurd rfl (hact x)
  | lock =>
    simp only [own, htodo, hheld] at h
    exact (Option.some.inj h).symm
  | unlock =>
    simp only [own, htodo, hheld] at h
    exact (Option.some.inj h).symm

theorem step_free {turn : Turn} (hfree : s.Free) (h : s.step cfg inode pid turn = some t)
    (hquiet : s.Quiet inode pid turn) : t.Free := by
  obtain ⟨b, hb⟩ := hfree.todo
  cases turn with
  | other c =>
    obtain ⟨k, -, rfl⟩ := Option.map_eq_some_iff.mp h
    exact ⟨hfree.stuck, b, hb⟩
  | own =>
    cases htodo : s.todo with
    | nil => simp [step, own, htodo] at h
    | cons action rest =>
      rw [htodo] at hb
      by_cases hact : ∃ x, action = .store x
      · obtain ⟨x, rfl⟩ := hact
        obtain ⟨k, -, rfl⟩ := own_store htodo hquiet h
        exact ⟨hfree.stuck, b, hb⟩
      · obtain ⟨held, hheld, rfl⟩ := own_lock htodo (fun x hx => hact ⟨x, hx⟩) hfree h
        refine ⟨hfree.stuck, b, ?_⟩
        have hbind : (action.held s.held).bind (fun h => heldAfter h rest) = some b := hb
        rwa [hheld] at hbind

theorem step_stuck {turn : Turn} (h : s.step cfg inode pid turn = some t) (ht : t.stuck = false) :
    s.Quiet inode pid turn := by
  cases turn with
  | other c => trivial
  | own =>
    intro x rest htodo hs number offset hread hdisk
    have hnone : heldAfter s.held (faultActions inode s.kernel pid x) = none := by
      rw [hs]
      exact (faultActions_first _ _).heldAfter_eq_none.mpr
        (faultActions_ne_nil.mpr ⟨number, offset, hread, hdisk⟩)
    simp only [step, own, htodo, hnone, Option.some.injEq] at h
    rw [← h] at ht
    cases ht

end Reader

theorem findNode_eq_none_iff {k : Kernel} {number : ℕ} :
    k.findNode number = none ↔ ∀ n ∈ k.nodeList, k.fileOf n ≠ some number := by
  simp [Kernel.findNode]

theorem resolve_findNode {files : FileSystem} {k k' : Kernel} {e e' : VMEntry} {va : UInt32} {pa : ℕ}
    (h : k.resolve files e va = some (pa, e', k')) {number : ℕ} (hnone : k'.findNode number = none) :
    k.findNode number = none := by
  rw [findNode_eq_none_iff] at hnone ⊢
  intro n hn hf
  obtain ⟨y, hy, hfile⟩ := Option.map_eq_some_iff.mp hf
  rcases resolve_cases h with ⟨_, _, m, _, rfl⟩ | ⟨_, i, _, _, _, _, _, _, rfl⟩ | ⟨_, m, _, _, _, _, rfl⟩
  · exact hnone n hn hf
  · apply hnone n hn
    rw [Kernel.fileOf, List.getElem?_modify, hy]
    by_cases hi : i = n <;> simp [hi, count, hfile]
  · apply hnone n (List.mem_append_left _ hn)
    have hlt := (List.getElem?_eq_some_iff.mp hy).1
    rw [Kernel.fileOf, List.getElem?_append_left hlt, hy]
    exact congrArg some hfile

theorem resolve_entry {files : FileSystem} {k k' : Kernel} {e e' : VMEntry} {va : UInt32} {pa : ℕ}
    (h : k.resolve files e va = some (pa, e', k')) : ∃ x, e' = { e with node := x } := by
  rcases resolve_cases h with ⟨-, rfl, -⟩ | ⟨-, i, -, -, -, -, -, rfl, -⟩ | ⟨-, -, -, -, -, rfl, -⟩
  · exact ⟨e'.node, rfl⟩
  · exact ⟨_, rfl⟩
  · exact ⟨_, rfl⟩

theorem pageIn_faultRead {files : FileSystem} {k k' : Kernel} {pid : ℕ} {x y : UInt32} {r : ℕ × UInt32}
    (h : pageIn files pid k y = some k') (hr : faultRead k' pid x = some r) :
    faultRead k pid x = some r := by
  unfold pageIn at h
  split at h
  case isTrue => rwa [Option.some.inj h]
  case isFalse =>
    obtain ⟨p, hp, h⟩ := Option.bind_eq_some_iff.mp h
    split at h
    case isTrue => rwa [Option.some.inj h]
    case isFalse =>
      obtain ⟨k₂, hk₂, h⟩ := Option.bind_eq_some_iff.mp h
      obtain ⟨hlive, h⟩ := Option.ite_none_right_eq_some.mp h
      cases h
      have hlt := (List.getElem?_eq_some_iff.mp hp).1
      rcases pageFault_cases hk₂ with ⟨-, rfl⟩ |
        ⟨front, e, back, pa, e', k₁, pd, m, hes, -, -, hres, hmap, rfl⟩
      · -- the process was ended
        simp [Kernel.put, hlt, Process.stopped] at hlive
      · obtain ⟨node, rfl⟩ := resolve_entry hres
        have hprocs := resolve_procs hres
        rw [faultRead_eq_some] at hr ⊢
        obtain ⟨hx, q, hq, hlook, a, ha, number, hnum, ⟨hnone, hprot⟩, hval⟩ := hr
        have hget : q = { p with pd := pd, entryList := front ++ { e with node := node } :: back } := by
          have hlt₁ : pid < k₁.procs.length := by rwa [hprocs]
          simp only [Kernel.put, List.getElem?_set_self hlt₁, Option.some.injEq] at hq
          exact hq.symm
        subst hget
        obtain ⟨b, hb, hcase⟩ := find_exchange ha
        have hsame : b.sharedFile = a.sharedFile ∧ b.prot = a.prot ∧ b.offset = a.offset ∧
            b.startingAddress = a.startingAddress := by
          rcases hcase with rfl | ⟨rfl, rfl⟩
          · exact ⟨rfl, rfl, rfl, rfl⟩
          · exact ⟨rfl, rfl, rfl, rfl⟩
        obtain ⟨hfile, hprot', hoff, hstart⟩ := hsame
        refine ⟨hx, p, hp, ?_, b, by rw [hes, hb], number, by rw [hfile, hnum],
          ⟨resolve_findNode hres hnone, by rw [hprot', hprot]⟩, by rw [hoff, hstart, hval]⟩
        rw [(PageDir.install_spec hmap).1] at hlook
        split at hlook
        case isTrue => cases hlook
        case isFalse => exact hlook

def inPlace : Bool → List Action → List UInt32
  | _, [] => []
  | _, .lock :: xs => inPlace true xs
  | _, .unlock :: xs => inPlace false xs
  | held, .store x :: xs => if held then x :: inPlace held xs else inPlace held xs

namespace Reader
variable {cfg : Config} {inode : ℕ → Node} {pid : ℕ} {s t : Reader}

def Ready (inode : ℕ → Node) (pid : ℕ) (k : Kernel) (s : Reader) : Prop :=
  ∀ x ∈ inPlace s.held s.todo, ∀ number offset, faultRead k pid x = some (number, offset) →
    ¬ (inode number).ReadsDisk offset

theorem Ready.quiet (h : s.Ready inode pid s.kernel) : s.Quiet inode pid .own := by
  intro x rest htodo hs number offset hread
  refine h x ?_ number offset hread
  rw [htodo, hs]
  exact List.mem_cons_self

theorem own_ready (hfree : s.Free) (hready : s.Ready inode pid s.kernel)
    (h : s.own inode pid = some t) : t.Ready inode pid t.kernel := by
  have hquiet := hready.quiet
  cases htodo : s.todo with
  | nil => simp [own, htodo] at h
  | cons action rest =>
    unfold Ready at hready
    rw [htodo] at hready
    by_cases hact : ∃ x, action = .store x
    · obtain ⟨x, rfl⟩ := hact
      obtain ⟨k, hk, rfl⟩ := own_store htodo hquiet h
      intro y hy number offset hread
      refine hready y ?_ number offset (pageIn_faultRead hk hread)
      change y ∈ if s.held then x :: inPlace s.held rest else inPlace s.held rest
      split
      case isTrue => exact List.mem_cons_of_mem _ hy
      case isFalse => exact hy
    · obtain ⟨held, hheld, rfl⟩ := own_lock htodo (fun x hx => hact ⟨x, hx⟩) hfree h
      intro y hy
      apply hready y
      cases action with
      | store x => exact absurd ⟨x, rfl⟩ hact
      | unlock =>
        cases hheld
        exact hy
      | lock =>
        have hheld : held = true := by
          cases hs : s.held with
          | true =>
            rw [hs] at hheld
            cases hheld
          | false =>
            rw [hs] at hheld
            exact (Option.some.inj hheld).symm
        subst hheld
        exact hy

theorem ready_throughout (hfree : s.Free) (hready : s.Ready inode pid s.kernel) (m : ℕ) :
    Throughout (step cfg inode pid) (Quiet inode pid) s (List.replicate m .own) := by
  induction m generalizing s with
  | zero => trivial
  | succ m ih =>
    intro t ht
    have hquiet := hready.quiet
    exact ⟨hquiet, ih (step_free hfree ht hquiet) (own_ready hfree hready ht)⟩

end Reader

def startRead (cfg : Config) (hs : Handles) (k : Kernel) (fd buf nbyte : UInt32) : Reader :=
  ⟨k, false, sysReadActions cfg hs fd buf nbyte, false⟩

/-- In every run of a read with the calls of other threads in between, the thread never calls
`read_block` with the lock exactly if no store with the lock faults into a read of the disk. Without
calls in between it is enough that none would when the read starts. -/
theorem read_never_relocks_iff (cfg : Config) (inode : ℕ → Node) (hs : Handles) (k : Kernel) (pid : ℕ)
    (fd buf nbyte : UInt32) :
    (∀ turns, Always (Reader.step cfg inode pid) (fun s => s.stuck = false)
        (startRead cfg hs k fd buf nbyte) turns ↔
      Throughout (Reader.step cfg inode pid) (Reader.Quiet inode pid)
        (startRead cfg hs k fd buf nbyte) turns) ∧
    ((startRead cfg hs k fd buf nbyte).Ready inode pid k →
      ∀ m, Always (Reader.step cfg inode pid) (fun s => s.stuck = false)
        (startRead cfg hs k fd buf nbyte) (List.replicate m .own)) := by
  have hfree : (startRead cfg hs k fd buf nbyte).Free := by
    obtain ⟨b, hb, -⟩ := sysReadActions_brackets cfg hs fd buf nbyte
    exact ⟨rfl, b, hb⟩
  have hiff : ∀ turns, _ := fun turns =>
    always_iff_throughout (f := Reader.step cfg inode pid) (I := Reader.Free)
      (P := fun s => s.stuck = false) (G := Reader.Quiet inode pid) (fun _ h => h.stuck)
      (fun _ _ _ h hstep hq => Reader.step_free h hstep hq)
      (fun _ _ _ _ hstep ht => Reader.step_stuck hstep ht) hfree turns
  exact ⟨hiff, fun hready m => (hiff _).mpr (Reader.ready_throughout hfree hready m)⟩

def blockNode : Node where
  disk := smallDisk
  number := 5
  blockSize := 1024
  data := ⟨0x8000, 1024, 2, fun _ => 1, 0, 0, 0⟩
  positive := kibibyte_pos

def blockHandles : Handles where
  files i := if i.val = 3 then some (.descriptor blockNode 0) else none
  children _ := none

theorem faultRead_mapped {k : Kernel} {pid : ℕ} {p : Process} {x : UInt32} (hp : k.procs[pid]? = some p)
    (hmapped : (p.pd.lookup (pageOf x)).isSome = true) : faultRead k pid x = none := by
  simp [faultRead, hp, hmapped]

theorem read_never_relocks_iff_touched : ∃ k,
    bootKernel.run qemu (filesOf fun _ => blockNode)
      [.spawn, .mmap 0 twoSharedPages, .pageFault 0 0x80000000] = some k ∧
    (inPlace false (startRead qemu blockHandles k 3 0x80000000 1024).todo).length = 1024 ∧
    ∀ m, Always (Reader.step qemu (fun _ => blockNode) 0) (fun s => s.stuck = false)
      (startRead qemu blockHandles k 3 0x80000000 1024) (List.replicate m .own) := by
  have hrun : (bootKernel.run qemu (filesOf fun _ => blockNode)
      [.spawn, .mmap 0 twoSharedPages, .pageFault 0 0x80000000]).map
        (fun k => k.procs.map fun p => (p.pd.lookup (pageOf 0x80000000)).isSome) = some [true] := by
    decide +kernel
  have hstores : (inPlace false (sysReadActions qemu blockHandles 3 0x80000000 1024)).length = 1024 ∧
      (inPlace false (sysReadActions qemu blockHandles 3 0x80000000 1024)).all fun x =>
        pageOf x = pageOf 0x80000000 := by decide +kernel
  obtain ⟨k, hk, hprocs⟩ := Option.map_eq_some_iff.mp hrun
  obtain ⟨p, hp, hmapped⟩ := List.map_eq_singleton_iff.mp hprocs
  refine ⟨k, hk, hstores.1, (read_never_relocks_iff qemu (fun _ => blockNode) blockHandles k 0 3
    0x80000000 1024).2 fun x hx number offset hread => ?_⟩
  have hpage : pageOf x = pageOf 0x80000000 := of_decide_eq_true (List.all_eq_true.mp hstores.2 x hx)
  have hnone : faultRead k 0 x = none :=
    faultRead_mapped (p := p) (by simp [hp]) (by rw [hpage, hmapped])
  rw [hnone] at hread
  cases hread

/-- A whole block read into a shared page of the file that nobody has touched. -/
theorem block_read_relocks :
    ∃ k, Reachable (kernels qemu (filesOf fun _ => blockNode)) k ∧
      ¬ ∀ turns, Always (Reader.step qemu (fun _ => blockNode) 0) (fun s => s.stuck = false)
        (startRead qemu blockHandles k 3 0x80000000 1024) turns := by
  have hrun : ((bootKernel.run qemu (filesOf fun _ => blockNode) [.spawn, .mmap 0 twoSharedPages]).bind
      fun k => (run (Reader.step qemu (fun _ => blockNode) 0) (fun _ _ => true)
        (startRead qemu blockHandles k 3 0x80000000 1024) [.own, .own]).map Reader.stuck) = some true := by
    decide +kernel
  obtain ⟨k, hk, hstuck⟩ := Option.bind_eq_some_iff.mp hrun
  obtain ⟨s, hs, hstuck⟩ := Option.map_eq_some_iff.mp hstuck
  refine ⟨k, run_reachable hk, fun h => ?_⟩
  have hfree : s.stuck = false := (h [.own, .own]).last hs
  rw [hstuck] at hfree
  cases hfree

end MMapKernel.Sys
