import MMapKernel.Fs.Ext2
import MMapKernel.Sys.UserMemory
import MMapKernel.Vmm.Placement

/-!
# System calls that store through a user pointer: `kernel/sys.cc`

`read` and `wait` take a pointer from the user stack. Both reject a pointer that is special,
which says nothing about the bytes behind the first: what is stored there depends on how much the
file has left, or is the word of an exit status.
-/

namespace MMapKernel.Sys
open Fs Vmm

inductive File where
  | console
  | descriptor (node : Node) (offset : UInt32)

structure Handles where
  files : Fin 10 → Option File
  children : Fin 10 → Option UInt32

def handleIndex (kind : UInt32) (bound : ℕ) (id : UInt32) : Option (Fin bound) :=
  if id &&& 0xF0000000 ≠ kind then none
  else
    let index := (id &&& 0x0FFFFFFF).toNat
    if h : index < bound then some ⟨index, h⟩ else none

def getFileIndex : UInt32 → Option (Fin 10) := handleIndex 0 10
def getChildIndex : UInt32 → Option (Fin 10) := handleIndex 0x10000000 10

def Handles.getFile (hs : Handles) (fd : UInt32) : Option File := (getFileIndex fd).bind hs.files

/-- `File::read` for both kinds of file. `c` is the next character of the console. -/
def File.read (c : UInt8) : File → UInt32 → Transfer UInt32 × File
  | .console, n => if n = 0 then (.returns [] 0, .console) else (.returns [c] 1, .console)
  | .descriptor node offset, n =>
    let r := node.io.readAll offset n
    match r.result with
    | none => (.fails r.stored, .descriptor node offset)
    | some cnt =>
      -- the count is cut to 32 bits
      let read := UInt32.ofInt cnt
      (.returns r.stored read, .descriptor node (if 0 < read then offset + read else offset))

inductive Request where
  | read (fd buf nbyte : UInt32)
  | wait (id status : UInt32)

/-- A call that got past its checks: the bytes stored from the pointer on, and what it
returned, unless an `ASSERT` failed. -/
structure Served where
  pointer : UInt32
  transfer : Transfer UInt32
deriving DecidableEq, Repr

def Served.stores (r : Served) : List UInt32 := addresses r.pointer r.transfer.stored.length

def sysHandler (cfg : Config) (hs : Handles) (c : UInt8) : Request → Option Served
  | .read fd buf nbyte =>
    if fd = 1 then none
    else if isSpecial cfg buf then none
    else (hs.getFile fd).map fun file => ⟨buf, (file.read c nbyte).1⟩
  | .wait id status =>
    if isSpecial cfg status then none
    else ((getChildIndex id).bind hs.children).map fun v => ⟨status, .returns (wordBytes v) 0⟩

def File.left : File → UInt32 → ℕ
  | .console, n => min n.toNat 1
  | .descriptor node offset, n => min n.toNat (node.data.sizeLow.toNat - offset.toNat)

theorem console_stored (c : UInt8) (n : UInt32) :
    (File.console.read c n).1.stored.length = File.console.left n := by
  by_cases hn : n = 0
  · simp [File.read, File.left, hn, Transfer.returns]
  · have hpos : n.toNat ≠ 0 := fun h => hn (UInt32.toNat_inj.mp h)
    simp only [File.read, hn, if_false, Transfer.returns, List.length_singleton, File.left]
    omega

theorem File.read_stored_le (file : File) (c : UInt8) (n : UInt32) :
    (file.read c n).1.stored.length ≤ file.left n := by
  cases file with
  | console => exact (console_stored c n).le
  | descriptor node offset =>
    have h : (node.io.readAll offset n).stored.length ≤ _ := BlockIO.readAll_stored_le
    simp only [File.read]
    split
    case h_1 => exact h
    case h_2 => exact h

theorem File.read_stored_eq (file : File) (c : UInt8) (n : UInt32)
    (hr : (file.read c n).1.result ≠ none) : (file.read c n).1.stored.length = file.left n := by
  cases file with
  | console => exact console_stored c n
  | descriptor node offset =>
    cases hc : (node.io.readAll offset n).result with
    | none => simp [File.read, hc, Transfer.fails] at hr
    | some cnt =>
      simp only [File.read, hc, Transfer.returns]
      exact BlockIO.readAll_stored_eq hc

def Request.pointer : Request → UInt32
  | .read _ buf _ => buf
  | .wait _ status => status

def Request.demand (hs : Handles) : Request → ℕ
  | .read fd _ nbyte => ((hs.getFile fd).map fun file => file.left nbyte).getD 0
  | .wait _ _ => 4

variable {cfg : Config} {hs : Handles} {c : UInt8} {req : Request} {r : Served}

theorem sysHandler_pointer (h : sysHandler cfg hs c req = some r) : r.pointer = req.pointer := by
  cases req with
  | read fd buf nbyte =>
    simp only [sysHandler, Option.ite_none_left_eq_some, Option.map_eq_some_iff] at h
    obtain ⟨-, -, file, -, rfl⟩ := h
    rfl
  | wait id status =>
    simp only [sysHandler, Option.ite_none_left_eq_some, Option.map_eq_some_iff] at h
    obtain ⟨-, v, -, rfl⟩ := h
    rfl

theorem sysHandler_stored (h : sysHandler cfg hs c req = some r) :
    r.transfer.stored.length ≤ req.demand hs ∧
      (r.transfer.result ≠ none → r.transfer.stored.length = req.demand hs) := by
  cases req with
  | read fd buf nbyte =>
    simp only [sysHandler, Option.ite_none_left_eq_some, Option.map_eq_some_iff] at h
    obtain ⟨-, -, file, hfile, rfl⟩ := h
    simp only [Request.demand, hfile, Option.map_some, Option.getD_some]
    exact ⟨file.read_stored_le c nbyte, file.read_stored_eq c nbyte⟩
  | wait id status =>
    simp only [sysHandler, Option.ite_none_left_eq_some, Option.map_eq_some_iff] at h
    obtain ⟨-, v, -, rfl⟩ := h
    exact ⟨le_rfl, fun _ => rfl⟩

/-- If the bytes that a call has to store fit into the user pages from its pointer on, all it
stores lies there; if they do not, it stores outside, unless it fails an assertion before. -/
theorem user_stores_iff_clear (cfg : Config) (hs : Handles) (c : UInt8) (req : Request) (r : Served)
    (h : sysHandler cfg hs c req = some r) :
    (Clear cfg req.pointer (req.demand hs) → ∀ a ∈ r.stores, UserByte cfg a) ∧
    (r.transfer.result ≠ none →
      ((∀ a ∈ r.stores, UserByte cfg a) ↔ Clear cfg req.pointer (req.demand hs))) := by
  obtain ⟨hle, heq⟩ := sysHandler_stored h
  rw [Served.stores, addresses_user_iff, sysHandler_pointer h]
  exact ⟨fun hc => hc.mono hle, fun hr => by rw [heq hr]⟩

def consoleHandles : Handles where
  files i := if i < 3 then some .console else none
  children i := if i = 0 then some 7 else none

theorem wait_stores_in_user_page :
    ∃ r, sysHandler qemu consoleHandles 0 (.wait 0x10000000 0x80000000) = some r ∧
      ∀ a ∈ r.stores, UserByte qemu a := by
  refine ⟨⟨0x80000000, .returns (wordBytes 7) 0⟩, by decide, ?_⟩
  apply (user_stores_iff_clear qemu consoleHandles 0 (.wait 0x10000000 0x80000000) _ (by decide)).1
  exact .inr ⟨by decide, by decide, .inl (by decide), .inl (by decide)⟩

/-- The pointer is compared with the first address of the page only. -/
theorem read_stores_in_device_page :
    ¬ ∀ (cfg : Config) (hs : Handles) (c : UInt8) (req : Request) (r : Served),
      sysHandler cfg hs c req = some r → ∀ a ∈ r.stores, UserByte cfg a := by
  intro h
  have hbyte := h qemu consoleHandles 65 (.read 0 0xFEC00010 1) ⟨0xFEC00010, .returns [65] 1⟩ (by decide)
    0xFEC00010 (by decide)
  exact hbyte.io ⟨by decide, by decide⟩

end MMapKernel.Sys
