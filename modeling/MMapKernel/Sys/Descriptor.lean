import MMapKernel.Fs.ByteRead
import MMapKernel.Fs.FileRead
import MMapKernel.Sys.Handler

/-!
# Sequential reads, and `cp` of `t0.dir/sbin/libc.c`

A descriptor reads from its own offset on and moves it by what it has read. `cp` reads 100 bytes at
a time into an array on the user stack and hands what came to `write` until nothing is left of it;
the console takes one byte a call.
-/

namespace MMapKernel.Sys
open Fs Vmm
open BlockIO (readAll_bytes)

def ssize (r : UInt32) : ℤ := r.toBitVec.toInt

def File.seek : File → UInt32 → UInt32 × File
  | .console, offset => (offset, .console)
  | .descriptor node _, offset => (offset, .descriptor node offset)

/-- `File::write` of a buffer that starts with `c`, and what the console shows of it. -/
def File.write (c : UInt8) : File → UInt32 → UInt32 × List UInt8
  | .console, n => if n = 0 then (0, []) else (1, [c])
  | .descriptor _ _, _ => (-1, [])

inductive FileCall where
  | read (n : UInt32)
  | seek (offset : UInt32)

def File.call (c : UInt8) (file : File) : FileCall → Option File
  | .read n => (file.read c n).1.result.map fun _ => (file.read c n).2
  | .seek offset => some (file.seek offset).2

def File.calls (c : UInt8) : File → List FileCall → Option File
  | file, [] => some file
  | file, call :: calls => (file.call c call).bind fun file => File.calls c file calls

inductive Complaint where
  | read (fd : UInt32)
  | write (fd : UInt32)

structure User where
  handles : Handles
  ram : Ram
  console : List UInt8
  complaints : List Complaint

def Handles.set (hs : Handles) (i : Fin 10) (file : Option File) : Handles :=
  { hs with files := Function.update hs.files i file }

def Handles.advance (hs : Handles) (c : UInt8) (fd nbyte : UInt32) : Handles :=
  match getFileIndex fd with
  | none => hs
  | some i => hs.set i ((hs.files i).map fun file => (file.read c nbyte).2)

namespace User

/-- The system call `read`; an answer -1 before anything is stored leaves everything as it was. -/
def read (cfg : Config) (c : UInt8) (s : User) (fd buf nbyte : UInt32) : User × Option UInt32 :=
  match sysHandler cfg s.handles c (.read fd buf nbyte) with
  | none => (s, some (-1))
  | some r =>
    ({ s with handles := s.handles.advance c fd nbyte, ram := s.ram.storeBytes r.pointer r.transfer.stored },
      r.transfer.result)

def put (s : User) (cs : List UInt8) : User := { s with console := s.console ++ cs }

def write (cfg : Config) (s : User) (fd buf nbyte : UInt32) : User × UInt32 :=
  if isSpecial cfg buf then (s, -1)
  else
    match s.handles.getFile fd with
    | none => (s, -1)
    | some file =>
      let w := file.write (s.ram.byte buf) nbyte
      (s.put w.2, w.1)

def complain (s : User) (x : Complaint) : User := { s with complaints := s.complaints ++ [x] }

def cpPart (cfg : Config) (toFd : UInt32) : ℕ → User → UInt32 → ℤ → Outcome User
  | turns, s, ptr, n =>
    if ¬ 0 < n then .returned s
    else
      match turns with
      | 0 => .running
      | turns + 1 =>
        let w := s.write cfg toFd ptr (UInt32.ofInt n)
        let m := ssize w.2
        if m < 0 then .returned (w.1.complain (.write toFd))
        else cpPart cfg toFd turns w.1 (ptr + UInt32.ofInt m) (n - m)

/-- `cp`, for a number of turns, with its array at `buf`. Each turn of the inner loop that writes
something makes `n` smaller. -/
def cp (cfg : Config) (c : UInt8) (fromFd toFd buf : UInt32) : ℕ → User → Outcome User
  | 0, _ => .running
  | turns + 1, s =>
    match s.read cfg c fromFd buf 100 with
    | (_, none) => .failed
    | (s, some r) =>
      let n := ssize r
      if n = 0 then .returned s
      else if n < 0 then .returned (s.complain (.read fromFd))
      else (cpPart cfg toFd n.toNat s buf n).bind fun s => cp cfg c fromFd toFd buf turns s

end User

variable {node : Node} {offset n : UInt32} {c : UInt8} {file : File}

theorem ssize_ofNat {k : ℕ} (h : k < 2 ^ 31) : ssize (UInt32.ofNat k) = k := by
  have hk : (UInt32.ofNat k).toBitVec.toNat = k := by
    change (UInt32.ofNat k).toNat = k
    rw [UInt32.toNat_ofNat']
    omega
  rw [ssize, BitVec.toInt_eq_toNat_of_lt (by rw [hk]; omega), hk]

theorem ofInt_natCast (k : ℕ) : UInt32.ofInt k = UInt32.ofNat k := by
  apply UInt32.toNat_inj.mp
  rw [UInt32.ofInt, UInt32.toNat_ofNat', UInt32.toNat_ofNat']
  omega

theorem room_toNat (h : offset ≤ node.data.sizeLow) (n : UInt32) :
    (offset + UInt32.ofNat (node.io.room offset n)).toNat = offset.toNat + node.io.room offset n ∧
      offset.toNat + node.io.room offset n ≤ node.data.sizeLow.toNat := by
  have hle := UInt32.le_iff_toNat_le.mp h
  have hsize := node.data.sizeLow.toNat_lt
  have hroom : node.io.room offset n ≤ node.data.sizeLow.toNat - offset.toNat := min_le_right _ _
  rw [UInt32.toNat_add, UInt32.toNat_ofNat']
  omega

theorem descriptor_read (h : offset ≤ node.data.sizeLow) (hr : node.io.Readable offset n) :
    (File.descriptor node offset).read c n =
      (.returns (node.io.bytesFrom offset.toNat (node.io.room offset n))
          (UInt32.ofNat (node.io.room offset n)),
        .descriptor node (offset + UInt32.ofNat (node.io.room offset n))) := by
  simp only [File.read]
  rw [readAll_bytes h hr]
  simp only [Transfer.returns, ofInt_natCast]
  split
  case isTrue => rfl
  case isFalse hz =>
    have hzero : UInt32.ofNat (node.io.room offset n) = 0 := by
      refine UInt32.toNat_inj.mp (Nat.eq_zero_of_not_pos fun hpos => hz ?_)
      exact UInt32.lt_iff_toNat_lt.mpr hpos
    rw [hzero, UInt32.add_zero]

theorem descriptor_read_returns_iff :
    ((File.descriptor node offset).read c n).1.result ≠ none ↔ node.io.Readable offset n := by
  rw [← BlockIO.readAll_returns_iff]
  simp only [File.read]
  cases h : (node.io.readAll offset n).result with
  | none => simp [Transfer.fails]
  | some cnt => simp [Transfer.returns]

theorem descriptor_call {call : FileCall} (h : offset ≤ node.data.sizeLow)
    (hseek : ∀ o, call = .seek o → o ≤ node.data.sizeLow)
    (hcall : (File.descriptor node offset).call c call = some file) :
    ∃ offset' ≤ node.data.sizeLow, file = .descriptor node offset' := by
  cases call with
  | read n =>
    obtain ⟨r, hres, rfl⟩ := Option.map_eq_some_iff.mp hcall
    have hr : node.io.Readable offset n :=
      descriptor_read_returns_iff.mp (by rw [hres]; exact Option.some_ne_none _)
    rw [descriptor_read h hr]
    refine ⟨_, ?_, rfl⟩
    rw [UInt32.le_iff_toNat_le, (room_toNat h n).1]
    exact (room_toNat h n).2
  | seek o =>
    obtain rfl := Option.some.inj hcall
    exact ⟨o, hseek o rfl, rfl⟩

theorem descriptor_calls {calls : List FileCall} (h : offset ≤ node.data.sizeLow)
    (hseek : ∀ o, .seek o ∈ calls → o ≤ node.data.sizeLow)
    (hcalls : (File.descriptor node offset).calls c calls = some file) :
    ∃ offset' ≤ node.data.sizeLow, file = .descriptor node offset' := by
  induction calls generalizing offset with
  | nil => exact ⟨offset, h, (Option.some.inj hcalls).symm⟩
  | cons call calls ih =>
    obtain ⟨file', hcall, hrest⟩ := Option.bind_eq_some_iff.mp hcalls
    obtain ⟨offset', h', rfl⟩ := descriptor_call h
      (fun o ho => hseek o (ho ▸ List.mem_cons_self)) hcall
    exact ih h' (fun o ho => hseek o (List.mem_cons_of_mem _ ho)) hrest

variable {cfg : Config} {s : User} {fromFd toFd buf ptr : UInt32} {k turns : ℕ}

def Accepted (cfg : Config) (p : UInt32) (n : ℕ) : Prop :=
  ∀ i < n, isSpecial cfg (p + UInt32.ofNat i) = false

theorem Accepted.head (h : Accepted cfg ptr (k + 1)) : isSpecial cfg ptr = false := by
  simpa using h 0 (Nat.succ_pos k)

theorem Accepted.tail (h : Accepted cfg ptr (k + 1)) : Accepted cfg (ptr + 1) k := by
  intro i hi
  rw [← Ram.offset_succ]
  exact h (i + 1) (Nat.succ_lt_succ hi)

theorem Accepted.mono (h : Accepted cfg ptr k) {m : ℕ} (hm : m ≤ k) : Accepted cfg ptr m :=
  fun i hi => h i (hi.trans_le hm)

namespace User

theorem write_console (hto : s.handles.getFile toFd = some .console) (hbuf : isSpecial cfg buf = false)
    (hn : n ≠ 0) :
    s.write cfg toFd buf n = (s.put [s.ram.byte buf], 1) := by
  simp only [write, hbuf, Bool.false_eq_true, if_false, hto, File.write, hn]

theorem cpPart_console (hto : s.handles.getFile toFd = some .console) (hbuf : Accepted cfg ptr k)
    (hk : k < 2 ^ 31) (ht : k ≤ turns) :
    cpPart cfg toFd turns s ptr k = .returned (s.put (s.ram.load ptr k)) := by
  induction k generalizing turns s ptr with
  | zero =>
    unfold cpPart
    simp [Ram.load, put]
  | succ k ih =>
    obtain ⟨turns, rfl⟩ : ∃ t, turns = t + 1 := ⟨turns - 1, by omega⟩
    have hn : UInt32.ofNat (k + 1) ≠ 0 := by
      intro hz
      have := congrArg UInt32.toNat hz
      rw [UInt32.toNat_ofNat', UInt32.toNat_zero] at this
      omega
    have hone : ssize 1 = 1 := by decide
    have hstep : UInt32.ofInt 1 = 1 := by decide
    have hpos : (0 : ℤ) < (k + 1 : ℕ) := Int.natCast_pos.mpr k.succ_pos
    have hrest : ((k + 1 : ℕ) : ℤ) - 1 = (k : ℕ) := by omega
    unfold cpPart
    simp only [hpos, not_true_eq_false, if_false, ofInt_natCast, write_console hto hbuf.head hn, hone,
      hstep, hrest]
    rw [if_neg (by decide), ih (s := s.put _) hto hbuf.tail (by omega) (by omega), Ram.load_succ]
    simp [put]

theorem read_descriptor {i : Fin 10} (hfd : fromFd ≠ 1) (hbuf : isSpecial cfg buf = false)
    (hi : getFileIndex fromFd = some i) (hfile : s.handles.files i = some (.descriptor node offset))
    (h : offset ≤ node.data.sizeLow) (hr : node.io.Readable offset n) :
    ∃ s', s.read cfg c fromFd buf n = (s', some (UInt32.ofNat (node.io.room offset n))) ∧
      s'.handles = s.handles.set i
        (some (.descriptor node (offset + UInt32.ofNat (node.io.room offset n)))) ∧
      s'.ram = s.ram.storeBytes buf (node.io.bytesFrom offset.toNat (node.io.room offset n)) ∧
      s'.console = s.console ∧ s'.complaints = s.complaints := by
  refine ⟨{ s with
    handles := s.handles.set i (some (.descriptor node (offset + UInt32.ofNat (node.io.room offset n))))
    ram := s.ram.storeBytes buf (node.io.bytesFrom offset.toNat (node.io.room offset n)) },
    ?_, rfl, rfl, rfl, rfl⟩
  simp [read, sysHandler, hfd, hbuf, Handles.getFile, Handles.advance, hi, hfile, descriptor_read h hr,
    Transfer.returns]

end User

theorem Handles.getFile_set {hs : Handles} {i : Fin 10} {fd : UInt32} {file' other : File}
    {new : Option File} (hfile : hs.files i = some file') (hother : hs.getFile fd = some other)
    (hne : file' ≠ other) : (hs.set i new).getFile fd = some other := by
  obtain ⟨j, hj, hfj⟩ := Option.bind_eq_some_iff.mp hother
  have hji : j ≠ i := by
    rintro rfl
    exact hne (Option.some.inj (hfile.symm.trans hfj))
  rw [getFile, hj, Option.bind_some]
  exact (Function.update_of_ne hji _ _).trans hfj

theorem readable_later {later : UInt32} (hr : ∀ n, node.io.Readable offset n) (h : offset ≤ later)
    (n : UInt32) : node.io.Readable later n := by
  intro i hi
  have hle := UInt32.le_iff_toNat_le.mp h
  have hroom : node.io.room later n ≤ node.io.sizeInBytes.toNat - later.toNat := min_le_right _ _
  have hsize := node.io.sizeInBytes.toNat_lt
  have hall := hr 0xFFFFFFFF (later.toNat - offset.toNat + i) (by
    change _ < min 4294967295 _
    omega)
  rwa [show offset.toNat + (later.toNat - offset.toNat + i) = later.toNat + i by omega] at hall

namespace User

theorem cp_end {s' : User} (hread : s.read cfg c fromFd buf 100 = (s', some 0)) :
    cp cfg c fromFd toFd buf 1 s = .returned s' := by
  have hz : ssize 0 = 0 := by decide
  simp only [cp, hread, hz, if_true]

theorem cp_turn {s' : User} (hread : s.read cfg c fromFd buf 100 = (s', some (UInt32.ofNat k)))
    (hpos : 0 < k) (hk : k < 2 ^ 31) : cp cfg c fromFd toFd buf (turns + 1) s =
      (cpPart cfg toFd k s' buf k).bind fun s => cp cfg c fromFd toFd buf turns s := by
  have hne : (k : ℤ) ≠ 0 := by omega
  have hneg : ¬ (k : ℤ) < 0 := by omega
  simp only [cp, hread, ssize_ofNat hk, hne, hneg, if_false, Int.toNat_natCast]

theorem cp_emits {i : Fin 10} (hsize : node.data.sizeLow.toNat < 2 ^ 31) (hfd : fromFd ≠ 1)
    (hi : getFileIndex fromFd = some i) (hbuf : Accepted cfg buf 100) {m : ℕ} (s : User)
    (offset : UInt32) (hm : node.data.sizeLow.toNat - offset.toNat = m)
    (h : offset ≤ node.data.sizeLow) (hr : ∀ n, node.io.Readable offset n)
    (hfile : s.handles.files i = some (.descriptor node offset))
    (hto : s.handles.getFile toFd = some .console) :
    ∃ turns s', cp cfg c fromFd toFd buf turns s = .returned s' ∧
      s'.console = s.console ++ node.io.bytesFrom offset.toNat m ∧ s'.complaints = s.complaints ∧
      s'.handles.files i = some (.descriptor node node.data.sizeLow) := by
  induction m using Nat.strong_induction_on generalizing s offset with
  | _ m ih =>
  obtain ⟨hnext, hend⟩ := room_toNat h 100
  have hroom : node.io.room offset 100 = min 100 m := congrArg (min 100) hm
  obtain ⟨s', hread, hhandles, hram, hconsole, hcomplaints⟩ :=
    read_descriptor (c := c) hfd hbuf.head hi hfile h (hr 100)
  rw [hroom] at hnext hend hread hhandles hram
  have hle := UInt32.le_iff_toNat_le.mp h
  have hfile' : s'.handles.files i = some (.descriptor node (offset + UInt32.ofNat (min 100 m))) := by
    rw [hhandles]
    exact Function.update_self _ _ _
  have hto' : s'.handles.getFile toFd = some .console := by
    rw [hhandles]
    exact Handles.getFile_set hfile hto nofun
  rcases Nat.eq_zero_or_pos m with rfl | hpos
  · have hsame : offset + UInt32.ofNat (min 100 0) = node.data.sizeLow := UInt32.toNat_inj.mp (by omega)
    refine ⟨1, s', cp_end hread, by simp [hconsole], hcomplaints, ?_⟩
    rw [hfile', hsame]
  · have hload : s'.ram.load buf (min 100 m) = node.io.bytesFrom offset.toNat (min 100 m) := by
      have hlen : (node.io.bytesFrom offset.toNat (min 100 m)).length = min 100 m :=
        node.io.bytesFrom_length _ _
      have hstored : (s.ram.storeBytes buf (node.io.bytesFrom offset.toNat (min 100 m))).load buf
          (node.io.bytesFrom offset.toNat (min 100 m)).length = node.io.bytesFrom offset.toNat (min 100 m) :=
        Ram.load_storeBytes (by omega)
      rwa [hlen, ← hram] at hstored
    have hpart : cpPart cfg toFd (min 100 m) s' buf (min 100 m : ℕ) =
        .returned (s'.put (node.io.bytesFrom offset.toNat (min 100 m))) := by
      rw [cpPart_console hto' (hbuf.mono (min_le_left _ _)) (by omega) le_rfl, hload]
    have hlater : offset ≤ offset + UInt32.ofNat (min 100 m) := by
      rw [UInt32.le_iff_toNat_le, hnext]
      exact Nat.le_add_right _ _
    obtain ⟨turns, t, hcp, ht, hcomplaints', hfile''⟩ := ih (m - min 100 m) (by omega)
      (s'.put (node.io.bytesFrom offset.toNat (min 100 m))) (offset + UInt32.ofNat (min 100 m)) (by omega)
      (UInt32.le_iff_toNat_le.mpr (hnext ▸ hend)) (fun n => readable_later hr hlater n) hfile' hto'
    refine ⟨turns + 1, t, ?_, ?_, hcomplaints'.trans hcomplaints, hfile''⟩
    · rw [cp_turn hread (by omega) (by omega), hpart]
      exact hcp
    · rw [ht, hnext, put, hconsole, List.append_assoc, ← BlockIO.bytesFrom_add,
        Nat.add_sub_cancel' (min_le_right _ _)]

end User

/-- For every file of less than 2 GiB and every sequence of reads and of seeks to offsets in it:
the offset stays in the file. A read fails an assertion exactly if `read_block` does so for one of
the blocks that it asks for; otherwise it returns the number of bytes asked for that are left, stores
those bytes of the file and moves the offset by as many. Where all blocks from the offset on can be
read, `cp` to the console shows the bytes that are left, in order, without a message, and ends. -/
theorem sequential_reads (node : Node) (hsize : node.data.sizeLow.toNat < 2 ^ 31) (c : UInt8)
    (start : UInt32) (hstart : start ≤ node.data.sizeLow) (calls : List FileCall)
    (hseek : ∀ o, .seek o ∈ calls → o ≤ node.data.sizeLow) (file : File)
    (hcalls : (File.descriptor node start).calls c calls = some file) :
    ∃ offset ≤ node.data.sizeLow, file = .descriptor node offset ∧
      (∀ n, (file.read c n).1.result ≠ none ↔ node.io.Readable offset n) ∧
      (∀ n, node.io.Readable offset n →
        ∃ r, ssize r = min n.toNat (node.data.sizeLow.toNat - offset.toNat) ∧
          file.read c n =
            (.returns (node.io.bytesFrom offset.toNat
              (min n.toNat (node.data.sizeLow.toNat - offset.toNat))) r, .descriptor node (offset + r)) ∧
          (offset + r).toNat = offset.toNat + min n.toNat (node.data.sizeLow.toNat - offset.toNat)) ∧
      ((∀ n, node.io.Readable offset n) → ∀ (cfg : Config) (s : User) (fromFd toFd buf : UInt32),
        fromFd ≠ 1 → s.handles.getFile fromFd = some file → s.handles.getFile toFd = some .console →
        Accepted cfg buf 100 →
        ∃ turns s', User.cp cfg c fromFd toFd buf turns s = .returned s' ∧
          s'.console = s.console ++
            node.io.bytesFrom offset.toNat (node.data.sizeLow.toNat - offset.toNat) ∧
          s'.complaints = s.complaints ∧
          s'.handles.getFile fromFd = some (.descriptor node node.data.sizeLow)) := by
  obtain ⟨offset, h, rfl⟩ := descriptor_calls hstart hseek hcalls
  refine ⟨offset, h, rfl, fun n => descriptor_read_returns_iff, fun n hr => ?_,
    fun hr cfg s fromFd toFd buf hfd hfile hto hbuf => ?_⟩
  · obtain ⟨hnext, hend⟩ := room_toNat h n
    refine ⟨UInt32.ofNat (node.io.room offset n), ?_, descriptor_read h hr, hnext⟩
    rw [ssize_ofNat (by omega)]
    rfl
  · obtain ⟨i, hi, hfile⟩ := Option.bind_eq_some_iff.mp hfile
    obtain ⟨turns, s', hcp, hconsole, hcomplaints, hfile'⟩ :=
      User.cp_emits (c := c) hsize hfd hi hbuf s offset rfl h hr hfile hto
    exact ⟨turns, s', hcp, hconsole, hcomplaints, by rw [Handles.getFile, hi, Option.bind_some, hfile']⟩

theorem allocated_readable (hd : node.disk.bytes.length < 2 ^ 32) (h : node.Allocated)
    (ho : offset ≤ node.data.sizeLow) (n : UInt32) : node.io.Readable offset n := by
  rw [← BlockIO.readAll_returns_iff, Node.readAll_eq hd h ho]
  exact Option.some_ne_none _

def smallShell : User where
  handles :=
    { files := fun i => if i.val < 3 then some .console
        else if i.val = 3 then some (.descriptor (smallFs.node 1 0) 2) else none
      children := fun _ => none }
  ram := ⟨fun _ => 0, []⟩
  console := []
  complaints := []

theorem small_file_copied :
    ∃ turns s', User.cp qemu 0 3 2 0xEFFFDF00 turns smallShell = .returned s' ∧
      s'.console = (smallFs.node 1 0).io.bytesFrom 2 3 := by
  obtain ⟨offset, -, hfile, -, -, hcp⟩ := sequential_reads (smallFs.node 1 0) (by decide) 0 0 (by decide)
    [.seek 2] (fun o ho => by
      obtain rfl : o = 2 := by simpa using ho
      decide) (.descriptor (smallFs.node 1 0) 2) rfl
  obtain ⟨-, rfl⟩ := File.descriptor.inj hfile
  have hread : ∀ n, (smallFs.node 1 0).io.Readable 2 n :=
    allocated_readable (by rw [show (smallFs.node 1 0).disk = smallFs.disk from rfl, smallFs_length]; decide)
      smallFs_allocated (by decide)
  obtain ⟨turns, s', hrun, hconsole, -⟩ := hcp hread qemu smallShell 3 2 0xEFFFDF00 (by decide) rfl rfl
    (by unfold Accepted; decide)
  exact ⟨turns, s', hrun, hconsole⟩

theorem readBlock_long {index : UInt32} (h : ¬index < 12 + node.blockSize / 4) (h12 : ¬index.toNat < 12) :
    (node.readBlock index).result = none := by
  unfold Node.readBlock
  split
  case isTrue => rfl
  case isFalse =>
    have hindex : node.blockIndex index = none := by
      simp only [Node.blockIndex, h12, h, dif_neg, not_false_eq_true, if_false]
    rw [hindex]
    rfl

def longDisk : Disk where
  bytes := List.replicate (13 * 1024) 0 ++
    (List.range 256).flatMap (fun i => wordBytes (UInt32.ofNat (20 + i))) ++
    (wordBytes 15 ++ List.replicate 1020 0) ++ (wordBytes 276 ++ List.replicate 1020 0) ++
    List.replicate (261 * 1024) 0
  sectors := by
    simp only [List.length_append, List.length_replicate, List.length_flatMap, wordBytes,
      List.length_cons, List.length_nil, List.map_const', List.length_range, List.sum_replicate]
    decide

def longNode : Node where
  disk := longDisk
  number := 12
  blockSize := 1024
  positive := kibibyte_pos
  data :=
    { mode := 0x81A4, sizeLow := 274433, nSectors := 544, direct := fun i => 1 + UInt32.ofNat i
      indirect1 := 13, indirect2 := 14, indirect3 := 0 }

/-- The last byte of the file cannot be read. -/
theorem long_file_unread : ¬ ∀ (node : Node), node.data.sizeLow.toNat < 2 ^ 31 →
    ∀ (c : UInt8) (offset : UInt32), offset ≤ node.data.sizeLow → ∀ n : UInt32,
      ∃ r, ssize r = min n.toNat (node.data.sizeLow.toNat - offset.toNat) ∧
        ((File.descriptor node offset).read c n).1.result = some r := by
  intro h
  obtain ⟨r, -, hr⟩ := h longNode (by decide) 0 274432 (by decide) 1
  have hreadable : longNode.io.Readable 274432 1 :=
    descriptor_read_returns_iff.mp (by rw [hr]; exact Option.some_ne_none r)
  exact hreadable 0 (by decide) (readBlock_long (by decide) (by decide))

end MMapKernel.Sys
