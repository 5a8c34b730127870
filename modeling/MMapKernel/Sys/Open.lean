import MMapKernel.Fs.PathWalk
import MMapKernel.Sys.Handler

/-!
# The system call `open`: `kernel/sys.cc`

`open` resolves its path from the root and then, as long as the node is a symbolic link, the target
of the link, again from the root. The first lookup may find nothing; the loop over the links does
not expect that, and it has no bound.
-/

namespace MMapKernel.Sys
open Fs

def Handles.setFile (hs : Handles) (file : File) : ℤ × Handles :=
  match (List.finRange 10).find? fun i => (hs.files i).isNone with
  | some i => ((i : ℕ), { hs with files := Function.update hs.files i (some file) })
  | none => (-1, hs)

def followLinks (fs : Ext2) (root : Node) : ℕ → Option Node → Outcome Node
  | _, none => .nullNode
  | turns, some node =>
    if node.data.isSymlink then
      match turns with
      | 0 => .running
      | turns + 1 =>
        node.getSymbol.bind fun symbol =>
        (fs.find turns (some root) symbol).bind fun next => followLinks fs root turns next
    else .returned node

def sysOpen (fs : Ext2) (root : Node) (hs : Handles) (turns : ℕ) (filename : UInt32)
    (path : List UInt8) : Outcome (ℤ × Handles) :=
  if filename = 0 ∨ filename < 0x80000000 then .returned (-1, hs)
  else
    (fs.find turns (some root) path).bind fun
      | none => .returned (-1, hs)
      | some node =>
        (followLinks fs root turns (some node)).bind fun node =>
          .returned (hs.setFile (.descriptor node 0))

variable {fs : Ext2} {root node next : Node} {hs hs' : Handles} {turns : ℕ} {filename : UInt32}
  {path : List UInt8}

theorem setFile_result (hs : Handles) (file : File) : (hs.setFile file).1 = -1 ∨
    ∃ i : Fin 10, (hs.setFile file).1 = (i : ℕ) ∧ (hs.setFile file).2.files i = some file := by
  unfold Handles.setFile
  split
  case h_1 i _ => exact .inr ⟨i, rfl, by simp⟩
  case h_2 => exact .inl rfl

theorem followLinks_plain (h : node.data.isSymlink = false) :
    followLinks fs root turns (some node) = .returned node := by
  unfold followLinks
  simp [h]

theorem followLinks_zero (h : node.data.isSymlink) :
    followLinks fs root 0 (some node) = .running := by
  unfold followLinks
  simp [h]

theorem followLinks_succ (h : node.data.isSymlink) :
    followLinks fs root (turns + 1) (some node) =
      node.getSymbol.bind fun symbol =>
        (fs.find turns (some root) symbol).bind fun next => followLinks fs root turns next := by
  rw [followLinks]
  simp [h]

theorem followLinks_none : followLinks fs root turns none = .nullNode := by
  unfold followLinks
  rfl

theorem followLinks_grows (fs : Ext2) (root : Node) (start : Option Node) :
    Outcome.Grows fun turns => followLinks fs root turns start := by
  intro turns
  induction turns generalizing start with
  | zero =>
    cases start with
    | none => exact .inr (by simp only [followLinks_none])
    | some node =>
      cases h : node.data.isSymlink with
      | true => exact .inl (followLinks_zero h)
      | false => exact .inr (by simp only [followLinks_plain h])
  | succ turns ih =>
    cases start with
    | none => exact .inr (by simp only [followLinks_none])
    | some node =>
      cases h : node.data.isSymlink with
      | true =>
        simp only [followLinks_succ h]
        exact (Outcome.Le.refl _).bind fun symbol =>
          (fs.find_grows root symbol turns).bind fun next => ih next
      | false => exact .inr (by simp only [followLinks_plain h])

inductive Resolves (fs : Ext2) (root : Node) : Node → Prop
  | plain {node : Node} : node.data.isSymlink = false → Resolves fs root node
  | link {node next : Node} {symbol : List UInt8} : node.data.isSymlink →
      node.getSymbol = .returned symbol → fs.Passable root (components (cString symbol)) →
      fs.Leads root (components (cString symbol)) next → Resolves fs root next →
      Resolves fs root node

theorem followLinks_returned :
    (∃ turns last, followLinks fs root turns (some node) = .returned last) ↔ Resolves fs root node := by
  constructor
  · intro ⟨turns, last, h⟩
    induction turns generalizing node with
    | zero =>
      cases hl : node.data.isSymlink with
      | true =>
        rw [followLinks_zero hl] at h
        cases h
      | false => exact .plain hl
    | succ turns ih =>
      cases hl : node.data.isSymlink with
      | true =>
        rw [followLinks_succ hl, Outcome.bind_eq_returned] at h
        obtain ⟨symbol, hsymbol, h⟩ := h
        obtain ⟨target, hfind, h⟩ := Outcome.bind_eq_returned.mp h
        obtain ⟨hpass, hleads⟩ := Ext2.find_returned.mp ⟨turns, hfind⟩
        cases target with
        | none =>
          rw [followLinks_none] at h
          cases h
        | some next => exact .link hl hsymbol hpass ((hleads next).mp rfl) (ih h)
      | false => exact .plain hl
  · intro h
    induction h with
    | plain hl => exact ⟨0, _, followLinks_plain hl⟩
    | @link node next symbol hl hsymbol hpass hleads _ ih =>
      obtain ⟨t, last, ht⟩ := ih
      obtain ⟨t', ht'⟩ := Ext2.find_leads hpass hleads
      have hrest := ((followLinks_grows fs root (some next)).le (le_max_left t t')).returned ht
      have hfind := ((fs.find_grows root symbol).le (le_max_right t t')).returned ht'
      refine ⟨max t t' + 1, last, ?_⟩
      simp only [followLinks_succ hl, hsymbol, Outcome.bind_returned, hfind, hrest]

def Opens (fs : Ext2) (root : Node) (hs : Handles) (filename : UInt32) (path : List UInt8) : Prop :=
  ∃ turns fd hs', sysOpen fs root hs turns filename path = .returned (fd, hs') ∧
    (fd = -1 ∨ ∃ (i : Fin 10) (node : Node), fd = (i : ℕ) ∧ hs'.files i = some (.descriptor node 0))

/-- The address is refused, or every component of the path that is looked up fits into the buffer
and is looked up in a directory, and the node that the path leads to, if there is one, is no link
or begins a finite chain of links whose targets have the same property and exist. -/
def Openable (fs : Ext2) (root : Node) (filename : UInt32) (path : List UInt8) : Prop :=
  filename < 0x80000000 ∨
    fs.Passable root (components (cString path)) ∧
      ∀ n, fs.Leads root (components (cString path)) n → Resolves fs root n

theorem sysOpen_refused (h : filename < 0x80000000) :
    sysOpen fs root hs turns filename path = .returned (-1, hs) := by
  rw [sysOpen, if_pos (Or.inr h)]

theorem sysOpen_user (h : ¬filename < 0x80000000) : sysOpen fs root hs turns filename path =
    (fs.find turns (some root) path).bind fun
      | none => .returned (-1, hs)
      | some node =>
        (followLinks fs root turns (some node)).bind fun node =>
          .returned (hs.setFile (.descriptor node 0)) := by
  have hne : ¬(filename = 0 ∨ filename < 0x80000000) := by
    rintro (rfl | hlt)
    · exact h (by decide)
    · exact h hlt
  rw [sysOpen, if_neg hne]

theorem openable_of_opens (h : Opens fs root hs filename path) : Openable fs root filename path := by
  obtain ⟨turns, fd, hs', h, -⟩ := h
  by_cases hf : filename < 0x80000000
  · exact .inl hf
  right
  rw [sysOpen_user hf, Outcome.bind_eq_returned] at h
  obtain ⟨target, hfind, h⟩ := h
  obtain ⟨hpass, hleads⟩ := Ext2.find_returned.mp ⟨turns, hfind⟩
  refine ⟨hpass, fun n hn => ?_⟩
  rw [(hleads n).mpr hn] at h
  obtain ⟨last, hlast, -⟩ := Outcome.bind_eq_returned.mp h
  exact followLinks_returned.mp ⟨turns, last, hlast⟩

theorem opens_missing (hf : ¬filename < 0x80000000)
    (hpass : fs.Passable root (components (cString path)))
    (hnone : ∀ n, ¬fs.Leads root (components (cString path)) n) :
    Opens fs root hs filename path := by
  obtain ⟨t, ht⟩ : ∃ t, fs.find t (some root) path = .returned none :=
    Ext2.find_returned.mpr ⟨hpass, fun n => ⟨nofun, fun hn => absurd hn (hnone n)⟩⟩
  refine ⟨t, -1, hs, ?_, .inl rfl⟩
  simp only [sysOpen_user hf, ht, Outcome.bind_returned]

theorem opens_resolved (hf : ¬filename < 0x80000000)
    (hpass : fs.Passable root (components (cString path)))
    (hn : fs.Leads root (components (cString path)) node) (hr : Resolves fs root node) :
    Opens fs root hs filename path := by
  obtain ⟨t, ht⟩ := Ext2.find_leads hpass hn
  obtain ⟨t', last, ht'⟩ := followLinks_returned.mpr hr
  have hfind := ((fs.find_grows root path).le (le_max_left t t')).returned ht
  have hlast := ((followLinks_grows fs root (some node)).le (le_max_right t t')).returned ht'
  refine ⟨max t t', (hs.setFile (.descriptor last 0)).1, (hs.setFile (.descriptor last 0)).2, ?_, ?_⟩
  · simp only [sysOpen_user hf, hfind, Outcome.bind_returned, hlast]
  · rcases setFile_result hs (.descriptor last 0) with h | ⟨i, hi, hfile⟩
    · exact .inl h
    · exact .inr ⟨i, last, hi, hfile⟩

/-- For every image, every table of files and every path: `open` returns -1 or a file descriptor
exactly if the path is openable. -/
theorem open_returns_iff (fs : Ext2) (root : Node) (hs : Handles) (filename : UInt32)
    (path : List UInt8) : Opens fs root hs filename path ↔ Openable fs root filename path := by
  refine ⟨openable_of_opens, fun h => ?_⟩
  by_cases hf : filename < 0x80000000
  · exact ⟨0, -1, hs, sysOpen_refused hf, .inl rfl⟩
  · obtain ⟨hpass, hresolves⟩ := h.resolve_left hf
    by_cases hex : ∃ n, fs.Leads root (components (cString path)) n
    · obtain ⟨n, hn⟩ := hex
      exact opens_resolved hf hpass hn (hresolves n hn)
    · exact opens_missing hf hpass (not_exists.mp hex)

theorem sysOpen_grows (fs : Ext2) (root : Node) (hs : Handles) (filename : UInt32)
    (path : List UInt8) : Outcome.Grows fun turns => sysOpen fs root hs turns filename path := by
  intro turns
  by_cases hf : filename < 0x80000000
  · simp only [sysOpen_refused hf]
    exact .refl _
  · simp only [sysOpen_user hf]
    refine (fs.find_grows root path turns).bind fun target => ?_
    cases target with
    | none => exact .refl _
    | some node => exact (followLinks_grows fs root (some node) turns).bind fun _ => .refl _

def crashed {α : Type} : Outcome α → Bool
  | .failed | .nullNode => true
  | .returned _ | .running => false

theorem not_opens_of_crashed (h : crashed (sysOpen fs root hs turns filename path)) :
    ¬Opens fs root hs filename path := by
  intro ⟨t, fd, hs', ht, _⟩
  have hrun : sysOpen fs root hs turns filename path ≠ .running := by
    intro hr
    rw [hr] at h
    cases h
  have heq := (sysOpen_grows fs root hs filename path).unique hrun (n := t) (by simp [ht])
  simp only [heq, ht] at h
  cases h

theorem not_resolves_self {symbol : List UInt8} (hl : node.data.isSymlink)
    (hs : node.getSymbol = .returned symbol)
    (hleads : fs.Leads root (components (cString symbol)) node) : ¬Resolves fs root node := by
  intro h
  induction h with
  | plain hp =>
    rw [hp] at hl
    cases hl
  | link _ hs' _ hnext _ ih =>
    rw [hs] at hs'
    cases hs'
    rw [← hleads.unique hnext] at ih
    exact ih hl hs hleads

def selfLinked (fs : Ext2) (root : Node) (turns : ℕ) (path : List UInt8) : Bool :=
  match fs.find turns (some root) path with
  | .returned (some node) => node.data.isSymlink && node.getSymbol == .returned path
  | _ => false

theorem not_opens_of_selfLinked (hf : ¬filename < 0x80000000) (h : selfLinked fs root turns path) :
    ¬Opens fs root hs filename path := by
  unfold selfLinked at h
  split at h
  case h_1 node hfind =>
    rw [Bool.and_eq_true, beq_iff_eq] at h
    have hleads := ((Ext2.find_returned.mp ⟨turns, hfind⟩).2 node).mp rfl
    intro hopens
    obtain ⟨-, hresolves⟩ := (openable_of_opens hopens).resolve_left hf
    exact not_resolves_self h.1 h.2 hleads (hresolves node hleads)
  case h_2 => cases h

/-- The 128 bytes of an i-node; `block` is what stands from the first direct pointer on. -/
def iNodeBytes (mode : List UInt8) (size sectors : UInt32) (block : List UInt8) : List UInt8 :=
  mode ++ [0, 0] ++ wordBytes size ++ List.replicate 18 0 ++ [1, 0] ++ wordBytes sectors ++
    List.replicate 8 0 ++ block ++ List.replicate (88 - block.length) 0

def recordBytes (inode : UInt32) (totalSize : List UInt8) (type : UInt8) (name : List UInt8) :
    List UInt8 :=
  wordBytes inode ++ totalSize ++ [UInt8.ofNat name.length, type] ++ name ++
    List.replicate (4 - name.length) 0

/-- Eight blocks of 1024 bytes: nothing, the superblock, the group table, two bitmaps, two blocks
of i-nodes and the root. The root has a file `f`, a link `d` to `gone` and a link `c` to itself. -/
def linkBytes : List UInt8 :=
  List.replicate 1024 0 ++
  ([16, 8, 0, 0, 3, 1, 0, 0, 8192, 8192, 16, 0, 0].flatMap wordBytes ++
    [0, 0, 0xFF, 0xFF, 0x53, 0xEF, 1, 0, 1, 0, 0, 0] ++ [0, 0, 0, 1, 0, 11].flatMap wordBytes ++
    [128, 0] ++ List.replicate 934 0) ++
  ([3, 4, 5].flatMap wordBytes ++ List.replicate 1012 0) ++
  (0x7F :: List.replicate 1023 0xFF) ++ ([0xFF, 0x1F] ++ List.replicate 1022 0xFF) ++
  (List.replicate 128 0 ++ iNodeBytes [0xED, 0x41] 1024 2 (wordBytes 7) ++ List.replicate 1024 0 ++
    iNodeBytes [0xA4, 0x81] 0 0 [] ++ iNodeBytes [0xFF, 0xA1] 4 0 [103, 111, 110, 101] ++
    iNodeBytes [0xFF, 0xA1] 1 0 [99] ++ List.replicate 384 0) ++
  (recordBytes 2 [12, 0] 2 [46] ++ recordBytes 2 [12, 0] 2 [46, 46] ++ recordBytes 11 [12, 0] 1 [102] ++
    recordBytes 12 [12, 0] 7 [100] ++ recordBytes 13 [0xD0, 3] 7 [99] ++ List.replicate 964 0)

def linkDisk : Disk where
  bytes := linkBytes
  sectors := by decide +kernel

theorem linkDisk_wellFormed {fs : Ext2} {root : Node} (hm : Ext2.mount linkDisk = some (fs, root)) :
    Ext2.WellFormed linkDisk fs root := by
  have himage : (Ext2.mount linkDisk).any (fun p => Ext2.checkImage 5 p.1 p.2) = true := by
    decide +kernel
  rw [hm] at himage
  exact Ext2.wellFormed_of_check hm himage

/-- The path through the file fails the assertion of `entries`, the dangling link leads to a null
node, the link to itself is followed for ever, and a long name does not fit into the buffer. -/
theorem open_brings_kernel_down : ∃ fs root, Ext2.WellFormed linkDisk fs root ∧
    ¬Opens fs root consoleHandles 0x80000000 [102, 47, 120] ∧
    ¬Opens fs root consoleHandles 0x80000000 [100] ∧
    ¬Opens fs root consoleHandles 0x80000000 [99] ∧
    ¬Opens fs root consoleHandles 0x80000000 (List.replicate 257 97) := by
  have hchecks : (Ext2.mount linkDisk).any (fun p =>
      crashed (sysOpen p.1 p.2 consoleHandles 9 0x80000000 [102, 47, 120]) &&
      crashed (sysOpen p.1 p.2 consoleHandles 9 0x80000000 [100]) &&
      selfLinked p.1 p.2 9 [99] &&
      crashed (sysOpen p.1 p.2 consoleHandles 9 0x80000000 (List.replicate 257 97))) = true := by
    decide +kernel
  obtain ⟨⟨fs, root⟩, hm, hchecks⟩ := (Option.any_eq_true _ _).mp hchecks
  simp only [Bool.and_eq_true] at hchecks
  obtain ⟨⟨⟨hfile, hdangling⟩, hcycle⟩, hlong⟩ := hchecks
  exact ⟨fs, root, linkDisk_wellFormed hm, not_opens_of_crashed hfile,
    not_opens_of_crashed hdangling, not_opens_of_selfLinked (by decide) hcycle,
    not_opens_of_crashed hlong⟩

end MMapKernel.Sys
