import MMapKernel.Sys.Exec
import MMapKernel.Vmm.Drawing

/-!
# Which pages are there

What the kernel stores on behalf of a process faults pages in. Whether all the stores of a list
come through depends only on the regions of the process, on the pages, tables and file nodes that
are there already, and on the number of frames left: a `Residency` keeps track of these.
-/

namespace MMapKernel.Sys
open Vmm

section
variable {d d' : PageDir} {m m' : PhysMem} {va : UInt32} {pte : Pte}

theorem install_eq_none_iff : d.install m va pte = none ↔
    d.tables.get (pageOf va).1 = none ∧ m.allocFrame = none := by
  unfold PageDir.install
  dsimp only
  cases d.tables.get (pageOf va).1 with
  | some pt => simp
  | none => cases m.allocFrame <;> simp

theorem install_tables (h : d.install m va pte = some (d', m')) (i : Fin 1024) :
    (d'.tables.get i).isSome = (if i = (pageOf va).1 then true else (d.tables.get i).isSome) := by
  unfold PageDir.install at h
  dsimp only at h
  have hset : ∀ pt, ((d.tables.set (pageOf va).1 pt).get i).isSome =
      (if i = (pageOf va).1 then true else (d.tables.get i).isSome) := fun pt => by
    by_cases hi : i = (pageOf va).1
    · simp [hi]
    · rw [Sparse.get_set_of_ne _ _ hi, if_neg hi]
  split at h
  case h_1 =>
    split at h
    case h_1 => cases h
    case h_2 =>
      cases h
      exact hset _
  case h_2 =>
    cases h
    exact hset _

theorem alloc_eq_none_iff (hw : m.Whole) : m.allocFrame = none ↔ m.room = 0 := by
  constructor
  · intro h
    by_contra hne
    obtain ⟨r, hr⟩ := PhysMem.alloc_of_room (Nat.pos_of_ne_zero hne)
    rw [h] at hr
    cases hr
  · intro h
    cases ha : m.allocFrame with
    | none => rfl
    | some r =>
      have := (PhysMem.draws_alloc hw ha).2.2
      omega

theorem install_taken (hw : m.Whole) (h : d.install m va pte = some (d', m')) :
    m'.Whole ∧ m.room = m'.room + if (d.tables.get (pageOf va).1).isSome then 0 else 1 := by
  unfold PageDir.install at h
  dsimp only at h
  split at h
  case h_1 hnone =>
    split at h
    case h_1 => cases h
    case h_2 ha =>
      cases h
      obtain ⟨-, hdraws, hleft⟩ := PhysMem.draws_alloc hw ha
      exact ⟨hdraws.whole, by simp [hnone, hleft]⟩
  case h_2 hsome =>
    cases h
    exact ⟨hw, by simp [hsome]⟩

end

structure Residency where
  pages : Page → Bool
  tables : Fin 1024 → Bool
  nodes : ℕ → Bool
  taken : ℕ

namespace Residency

def pageCost (r : Residency) (e : VMEntry) : ℕ :=
  match e.sharedFile with
  | none => 1
  | some number => if r.nodes number then 0 else 1

def fault (r : Residency) (e : VMEntry) (g : Page) : Residency where
  pages := Function.update r.pages g true
  tables := Function.update r.tables g.1 true
  nodes :=
    match e.sharedFile with
    | none => r.nodes
    | some number => Function.update r.nodes number true
  taken := r.taken + r.pageCost e + if r.tables g.1 then 0 else 1

def touch (maps : List VMEntry) (r : Residency) (x : UInt32) : Residency :=
  if x < 0x80000000 ∨ r.pages (pageOf x) then r
  else match maps.find? fun e => e.holds (framedown x) with
    | none => r
    | some e => r.fault e (pageOf x)

def Serves (maps : List VMEntry) (r : Residency) (x : UInt32) : Prop :=
  x < 0x80000000 ∨ r.pages (pageOf x) = true ∨ Covered maps (pageOf x)

def fetch (r : Residency) (e : VMEntry) (x : UInt32) : Option (ℕ × UInt32) :=
  e.sharedFile.bind fun number =>
    if r.nodes number = false ∧ e.prot &&& 2 = 2 then
      some (number, e.offset + framedown x - e.startingAddress)
    else none

/-- A fault of the store, made with the lock or without it, does not get to the disk with the lock, and
its read comes back. -/
def Quiet (inode : ℕ → Fs.Node) (maps : List VMEntry) (r : Residency) (t : Bool × UInt32) : Prop :=
  t.2 < 0x80000000 ∨ r.pages (pageOf t.2) = true ∨
    ∀ e, maps.find? (fun e => e.holds (framedown t.2)) = some e →
      ∀ number offset, r.fetch e t.2 = some (number, offset) →
        (t.1 = true → ¬(inode number).ReadsDisk offset) ∧ (inode number).io.Readable offset 4096

def QuietAll (inode : ℕ → Fs.Node) (maps : List VMEntry) : Residency → List (Bool × UInt32) → Prop
  | _, [] => True
  | r, t :: ts => r.Quiet inode maps t ∧ QuietAll inode maps (r.touch maps t.2) ts

end Residency

/-- The process `pid` runs with these regions, `r` is what is there, and `total` frames have been
left or taken. -/
structure Resides (pid : ℕ) (maps : List VMEntry) (total : ℕ) (r : Residency) (k : Kernel) : Prop where
  running : ∃ p, k.procs[pid]? = some p ∧ p.status = .live ∧ p.entryList.map VMEntry.mapping = maps ∧
    (∀ g, (p.pd.lookup g).isSome = r.pages g) ∧ ∀ i, (p.pd.tables.get i).isSome = r.tables i
  nodes : ∀ n, (k.findNode n).isSome = r.nodes n
  named : ∀ n ∈ k.nodeList, n < k.nodes.length
  whole : k.phys.Whole
  room : k.phys.room + r.taken = total

def residencyOf (pd : PageDir) (k : Kernel) : Residency where
  pages g := (pd.lookup g).isSome
  tables i := (pd.tables.get i).isSome
  nodes n := (k.findNode n).isSome
  taken := 0

/-- What can be said of a part of the kernel's work beforehand: it returns if `ok` holds and the
frames for `r` are there, and then `r` is what is there. -/
structure ComesTo (pid : ℕ) (maps : List VMEntry) (total : ℕ) (r : Residency) (ok : Prop)
    (result : Option Kernel) : Prop where
  returns : (∃ k, result = some k) ↔ ok ∧ r.taken ≤ total
  resides : ∀ k, result = some k → Resides pid maps total r k

def UserPage (cfg : Config) (g : Page) : Prop := (512 : Fin 1024) ≤ g.1 ∧ ¬DevicePage cfg g

theorem inPage_of_pageOf {base x : UInt32} (hb : base.toNat % 4096 = 0) (h : pageOf x = pageOf base) :
    InPage base x := by
  have haddr := congrArg (fun g => (addressOf g).toNat) h
  simp only [addressOf_pageOf_eq, framedown_toNat] at haddr
  unfold InPage
  omega

theorem UserByte.userPage {cfg : Config} {x : UInt32} (h : UserByte cfg x) : UserPage cfg (pageOf x) := by
  refine ⟨pageOf_user h.user, ?_⟩
  rintro (hio | hlocal)
  · exact h.io (inPage_of_pageOf cfg.io_aligned hio)
  · exact h.apic (inPage_of_pageOf cfg.local_aligned hlocal)

theorem serves_iff_covered {cfg : Config} {pd : PageDir} {k : Kernel} {maps : List VMEntry} {x : UInt32}
    (hnone : ∀ g, UserPage cfg g → pd.lookup g = none) (hx : UserByte cfg x) :
    (residencyOf pd k).Serves maps x ↔ Covered maps (pageOf x) := by
  have hlow : ¬x < 0x80000000 := UInt32.not_lt.mpr hx.user
  simp [Residency.Serves, residencyOf, hlow, hnone _ hx.userPage]

section
variable {files : FileSystem} {pid total : ℕ} {maps : List VMEntry} {r : Residency} {k k' : Kernel}
  {x : UInt32}

theorem covered_iff_find {es : List VMEntry} :
    Covered es (pageOf x) ↔ ∃ e, es.find? (fun e => e.holds (framedown x)) = some e := by
  rw [Covered, addressOf_pageOf_eq, ← Option.isSome_iff_exists, List.find?_isSome]

theorem find_mapping (es : List VMEntry) (va : UInt32) :
    (es.map VMEntry.mapping).find? (fun e => e.holds va) =
      (es.find? fun e => e.holds va).map VMEntry.mapping := by
  rw [List.find?_map]
  rfl

theorem findNode_isSome_iff {number : ℕ} :
    (k.findNode number).isSome ↔ ∃ n ∈ k.nodeList, fileOf k.nodes n = some number := by
  rw [Kernel.findNode, List.find?_isSome]
  simp only [decide_eq_true_eq]
  rfl

structure Resolved (r r' : Residency) (k k₁ : Kernel) : Prop where
  nodes : ∀ n, (k₁.findNode n).isSome = r'.nodes n
  named : ∀ n ∈ k₁.nodeList, n < k₁.nodes.length
  whole : k₁.phys.Whole
  procs : k₁.procs = k.procs

theorem Resides.comesTo (h : Resides pid maps total r k) : ComesTo pid maps total r True (some k) := by
  have hroom := h.room
  refine ⟨iff_of_true ⟨k, rfl⟩ ⟨trivial, by omega⟩, fun k' hk' => ?_⟩
  cases hk'
  exact h

namespace ComesTo
variable {maps' : List VMEntry} {r' : Residency} {ok ok' : Prop} {result : Option Kernel}

theorem congr (h : ComesTo pid maps total r ok result) (hok : ok ↔ ok') : ComesTo pid maps total r ok' result :=
  ⟨h.returns.trans (and_congr_left fun _ => hok), h.resides⟩

theorem bind {next : Kernel → Option Kernel} (h : ComesTo pid maps total r ok result)
    (hnext : ∀ k, Resides pid maps total r k → ComesTo pid maps' total r' ok' (next k))
    (hle : r.taken ≤ r'.taken) : ComesTo pid maps' total r' (ok ∧ ok') (result.bind next) := by
  cases hresult : result with
  | none =>
    rw [hresult] at h
    refine ⟨iff_of_false (by simp) fun hh => ?_, fun k hk => by cases hk⟩
    obtain ⟨k, hk⟩ := h.returns.mpr ⟨hh.1.1, hle.trans hh.2⟩
    cases hk
  | some k =>
    obtain ⟨hok, -⟩ := h.returns.mp ⟨k, hresult⟩
    obtain ⟨hreturns, hresides⟩ := hnext k (h.resides k hresult)
    refine ⟨hreturns.trans ?_, hresides⟩
    rw [and_iff_right hok]

end ComesTo

theorem resolve_resident {e e' : VMEntry} {va : UInt32} {pa : ℕ} {k₁ : Kernel} {g : Page}
    (hnodes : ∀ n, (k.findNode n).isSome = r.nodes n) (hnamed : ∀ n ∈ k.nodeList, n < k.nodes.length)
    (hw : k.phys.Whole) (h : k.resolve files e va = some (pa, e', k₁)) :
    Resolved r (r.fault e g) k k₁ ∧ k.phys.room = k₁.phys.room + r.pageCost e := by
  rcases resolve_cases h with ⟨hs, -, m, ha, rfl⟩ | ⟨number, n, x, hs, hn, hx, -, -, rfl⟩ |
    ⟨number, m, hs, hn, ha, -, rfl⟩
  · obtain ⟨-, hdraws, hleft⟩ := PhysMem.draws_alloc hw ha
    simp only [Residency.fault, Residency.pageCost, hs]
    exact ⟨⟨hnodes, hnamed, hdraws.whole, rfl⟩, hleft⟩
  · have hknown : r.nodes number = true := by rw [← hnodes, hn, Option.isSome_some]
    have hsame : ∀ i, fileOf (k.nodes.modify n (count (· + 1))) i = fileOf k.nodes i :=
      (sameFrames_modify k.nodes n _).fileOf
    simp only [Residency.fault, Residency.pageCost, hs, hknown, if_true]
    refine ⟨⟨fun i => ?_, fun i hi => ?_, hw, rfl⟩, rfl⟩
    · rw [← hknown, Function.update_eq_self, ← hnodes, Bool.eq_iff_iff, findNode_isSome_iff,
        findNode_isSome_iff]
      simp only [hsame]
    · rw [List.length_modify]
      exact hnamed i hi
  · have hnew : r.nodes number = false := by rw [← hnodes, hn, Option.isSome_none]
    obtain ⟨-, hdraws, hleft⟩ := PhysMem.draws_alloc hw ha
    simp only [Residency.fault, Residency.pageCost, hs, hnew]
    refine ⟨⟨fun i => ?_, fun i hi => ?_, ⟨hdraws.whole.bound, hdraws.whole.frames⟩, rfl⟩, hleft⟩
    · rw [Bool.eq_iff_iff, findNode_isSome_iff]
      simp only [List.mem_append, List.mem_singleton, or_and_right, exists_or, exists_eq_left]
      have hold : (∃ j ∈ k.nodeList, fileOf (k.nodes ++ [⟨number, 1, pa⟩]) j = some i) ↔
          r.nodes i = true := by
        rw [← hnodes, findNode_isSome_iff]
        exact exists_congr fun j => and_congr_right fun hj => by rw [fileOf_append _ (hnamed j hj)]
      have hlast : fileOf (k.nodes ++ [⟨number, 1, pa⟩]) k.nodes.length = some number := by
        simp [fileOf]
      rw [hold, hlast, Option.some.injEq]
      by_cases hi : i = number
      · simp [hi]
      · simp [hi, Ne.symm hi]
    · rw [List.length_append, List.length_singleton]
      rcases List.mem_append.mp hi with hi | hi
      · exact (hnamed i hi).trans (Nat.lt_succ_self _)
      · rw [List.mem_singleton.mp hi]
        exact Nat.lt_succ_self _

theorem resolve_eq_none_iff {e : VMEntry} {va : UInt32}
    (hnodes : ∀ n, (k.findNode n).isSome = r.nodes n) (hw : k.phys.Whole) :
    k.resolve files e va = none ↔ k.phys.room < r.pageCost e := by
  have hroom := alloc_eq_none_iff hw
  unfold Kernel.resolve Residency.pageCost
  cases hs : e.sharedFile with
  | none => simp only [Option.map_eq_none_iff, hroom, Nat.lt_one_iff]
  | some number =>
    cases hn : k.findNode number with
    | some n =>
      obtain ⟨x, hx, -⟩ := Option.map_eq_some_iff.mp (findNode_spec hn).2
      have hknown : r.nodes number = true := by rw [← hnodes, hn, Option.isSome_some]
      simp [hn, hx, hknown]
    | none =>
      have hnew : r.nodes number = false := by rw [← hnodes, hn, Option.isSome_none]
      simp only [hn, hnew, Option.map_eq_none_iff, hroom, Bool.false_eq_true, if_false, Nat.lt_one_iff]

theorem pageIn_fault {p : Process} {e : VMEntry} (hx : ¬x < 0x80000000) (hp : k.procs[pid]? = some p)
    (hlive : p.status = .live) (hg : p.pd.lookup (pageOf x) = none)
    (hfind : p.entryList.find? (fun e => e.holds (framedown x)) = some e) :
    pageIn files pid k x = (k.resolve files e (framedown x)).bind fun t =>
      (p.pd.userMap t.2.2.phys (framedown x) t.1).map fun u =>
        { t.2.2 with phys := u.2 }.put pid
          { p with pd := u.1, entryList := replaceEntry (framedown x) t.2.1 p.entryList } := by
  have hhigh : ¬framedown x < 0x80000000 := by
    rw [UInt32.lt_iff_toNat_lt, framedown_toNat]
    rw [UInt32.lt_iff_toNat_lt] at hx
    simp only [UInt32.reduceToNat] at hx ⊢
    omega
  rw [pageIn, if_neg hx, hp, Option.bind_some, hg, if_neg (by simp), Kernel.pageFault]
  simp only [if_neg hhigh, hfind]
  cases hres : k.resolve files e (framedown x) with
  | none => rfl
  | some t =>
    obtain ⟨pa, e', k₁⟩ := t
    simp only [Option.bind_some]
    cases hmap : p.pd.userMap k₁.phys (framedown x) pa with
    | none => rfl
    | some u =>
      have hlt : pid < k₁.procs.length := by
        rw [resolve_procs hres]
        exact (List.getElem?_eq_some_iff.mp hp).1
      simp only [Option.bind_some, Option.map_some]
      rw [if_pos]
      simp [Kernel.put, List.getElem?_set_self hlt, hlive]

theorem pageIn_refused {p : Process} (hx : ¬x < 0x80000000) (hp : k.procs[pid]? = some p)
    (hg : p.pd.lookup (pageOf x) = none) (hfind : ¬Covered p.entryList (pageOf x)) :
    pageIn files pid k x = none := by
  have hnone : p.entryList.find? (fun e => e.holds (framedown x)) = none := by
    rw [covered_iff_find, ← Option.isSome_iff_exists] at hfind
    simpa using hfind
  have hlt := (List.getElem?_eq_some_iff.mp hp).1
  rw [pageIn, if_neg hx, hp, Option.bind_some, hg, if_neg (by simp), Kernel.pageFault]
  simp only [hnone, Kernel.put]
  split <;> simp [List.getElem?_set_self hlt, Process.stopped]

theorem Resides.mapped {p : Process} {e e' : VMEntry} {pa : ℕ} {k₁ : Kernel} {u : PageDir × PhysMem}
    (h : Resides pid maps total r k) (hp : k.procs[pid]? = some p)
    (hfind : p.entryList.find? (fun e => e.holds (framedown x)) = some e)
    (hres : k.resolve files e (framedown x) = some (pa, e', k₁))
    (hmap : p.pd.userMap k₁.phys (framedown x) pa = some u)
    (hsum : u.2.room + (r.fault e (pageOf x)).taken = total) :
    Resides pid maps total (r.fault e (pageOf x)) ({ k₁ with phys := u.2 }.put pid
      { p with pd := u.1, entryList := replaceEntry (framedown x) e' p.entryList }) := by
  obtain ⟨q, hq, hlive, hmaps, hpages, htables⟩ := h.running
  rw [hp] at hq
  cases hq
  obtain ⟨hr, -⟩ := resolve_resident (g := pageOf x) h.nodes h.named h.whole hres
  have hlt : pid < k₁.procs.length := hr.procs ▸ (List.getElem?_eq_some_iff.mp hp).1
  refine ⟨⟨_, List.getElem?_set_self hlt, hlive, ?_, fun g => ?_, fun i => ?_⟩, hr.nodes, hr.named,
    (install_taken hr.whole hmap).1, hsum⟩
  · obtain ⟨front, back, hes, hrep, -⟩ := replaceEntry_spec e' hfind
    rw [hrep, ← hmaps, hes]
    simp [resolve_mapping hres]
  · have hlook := (PageDir.install_spec hmap).1 g
    dsimp only
    rw [hlook, pageOf_framedown]
    by_cases hgx : g = pageOf x
    · simp [Residency.fault, hgx]
    · simp [Residency.fault, hgx, hpages]
  · have htab := install_tables hmap i
    dsimp only
    rw [htab, pageOf_framedown]
    by_cases hi : i = (pageOf x).1
    · simp [Residency.fault, hi]
    · simp [Residency.fault, hi, htables]

theorem pageIn_fault_spec (files : FileSystem) {p : Process} {e : VMEntry} (h : Resides pid maps total r k)
    (hx : ¬x < 0x80000000) (hp : k.procs[pid]? = some p) (hg : p.pd.lookup (pageOf x) = none)
    (hfind : p.entryList.find? (fun e => e.holds (framedown x)) = some e) :
    ((∃ k', pageIn files pid k x = some k') ↔ (r.fault e (pageOf x)).taken ≤ total) ∧
    ∀ k', pageIn files pid k x = some k' → Resides pid maps total (r.fault e (pageOf x)) k' := by
  obtain ⟨q, hq, hlive, -, -, htables⟩ := h.running
  rw [hp] at hq
  cases hq
  have htable : (p.pd.tables.get (pageOf (framedown x)).1).isSome = r.tables (pageOf x).1 := by
    rw [pageOf_framedown, htables]
  have htaken : (r.fault e (pageOf x)).taken =
      r.taken + r.pageCost e + if r.tables (pageOf x).1 then 0 else 1 := rfl
  have hroom := h.room
  rw [pageIn_fault hx hp hlive hg hfind]
  cases hres : k.resolve files e (framedown x) with
  | none =>
    have hshort := (resolve_eq_none_iff h.nodes h.whole).mp hres
    exact ⟨iff_of_false (by simp) (by omega), fun k' hk' => by simp at hk'⟩
  | some t =>
    obtain ⟨pa, e', k₁⟩ := t
    obtain ⟨hr, hleft⟩ := resolve_resident (g := pageOf x) h.nodes h.named h.whole hres
    simp only [Option.bind_some]
    cases hmap : p.pd.userMap k₁.phys (framedown x) pa with
    | none =>
      obtain ⟨hnone, halloc⟩ := install_eq_none_iff.mp hmap
      rw [alloc_eq_none_iff hr.whole] at halloc
      rw [hnone, Option.isSome_none] at htable
      rw [← htable, if_neg (by simp)] at htaken
      exact ⟨iff_of_false (by simp) (by omega), fun k' hk' => by simp at hk'⟩
    | some u =>
      obtain ⟨-, hlast⟩ := install_taken hr.whole hmap
      rw [htable] at hlast
      have hsum : u.2.room + (r.fault e (pageOf x)).taken = total := by omega
      refine ⟨iff_of_true ⟨_, rfl⟩ (by omega), fun k' hk' => ?_⟩
      cases hk'
      exact h.mapped hp hfind hres hmap hsum

theorem pageIn_spec (files : FileSystem) (h : Resides pid maps total r k) (x : UInt32) :
    ComesTo pid maps total (r.touch maps x) (r.Serves maps x) (pageIn files pid k x) := by
  have hsame := h.comesTo
  obtain ⟨p, hp, -, hmaps, hpages, -⟩ := h.running
  by_cases hx : x < 0x80000000
  · have hs : pageIn files pid k x = some k := by rw [pageIn, if_pos hx]
    simpa only [hs, Residency.touch, Residency.Serves, hx, true_or, if_true] using hsame
  by_cases hg : r.pages (pageOf x) = true
  · have hs : pageIn files pid k x = some k := by
      rw [pageIn, if_neg hx, hp, Option.bind_some, if_pos ((hpages _).trans hg)]
    simpa only [hs, Residency.touch, Residency.Serves, hg, true_or, or_true, if_true] using hsame
  have habsent : p.pd.lookup (pageOf x) = none := by
    have := hpages (pageOf x)
    rw [Bool.eq_false_iff.mpr hg] at this
    simpa using this
  by_cases hc : Covered p.entryList (pageOf x)
  · obtain ⟨e, hfind⟩ := covered_iff_find.mp hc
    have hserves : r.Serves maps x := Or.inr (Or.inr (by rwa [← hmaps, covered_mapping]))
    have htouched : r.touch maps x = r.fault e (pageOf x) := by
      rw [Residency.touch, if_neg (not_or.mpr ⟨hx, hg⟩), ← hmaps, find_mapping, hfind]
      rfl
    obtain ⟨hiff, hnext⟩ := pageIn_fault_spec files h hx hp habsent hfind
    rw [htouched]
    exact ⟨hiff.trans (and_iff_right hserves).symm, hnext⟩
  · have hserves : ¬r.Serves maps x := by
      rintro (hh | hh | hh)
      · exact hx hh
      · exact hg hh
      · rw [← hmaps, covered_mapping] at hh
        exact hc hh
    rw [pageIn_refused hx hp habsent hc]
    exact ⟨iff_of_false (by simp) fun hh => hserves hh.1, fun k' hk' => by cases hk'⟩

theorem Resides.calm_iff {inode : ℕ → Fs.Node} {held : Bool} (h : Resides pid maps total r k) :
    Calm inode pid held k x ↔ r.Quiet inode maps (held, x) := by
  obtain ⟨p, hp, -, hmaps, hpages, -⟩ := h.running
  constructor
  · intro hcalm
    by_cases hx : x < 0x80000000
    · exact Or.inl hx
    by_cases hg : r.pages (pageOf x) = true
    · exact Or.inr (Or.inl hg)
    refine Or.inr (Or.inr fun e hfind number offset hfetch => hcalm number offset ?_)
    rw [← hmaps, find_mapping, Option.map_eq_some_iff] at hfind
    obtain ⟨a, ha, rfl⟩ := hfind
    obtain ⟨n, hfile, hread⟩ := Option.bind_eq_some_iff.mp hfetch
    obtain ⟨⟨hnone, hprot⟩, hread⟩ := Option.ite_none_right_eq_some.mp hread
    have habsent : p.pd.lookup (pageOf x) = none := by
      rw [← hpages, Bool.not_eq_true] at hg
      simpa using hg
    have hnode : k.findNode n = none := by
      rw [← h.nodes] at hnone
      simpa using hnone
    exact faultRead_eq_some.mpr ⟨hx, p, hp, habsent, a, ha, n, hfile, ⟨hnode, hprot⟩, Option.some.inj hread⟩
  · intro hquiet number offset hread
    obtain ⟨hx, q, hq, habsent, a, ha, n, hfile, ⟨hnode, hprot⟩, hval⟩ := faultRead_eq_some.mp hread
    rw [hp] at hq
    cases hq
    rcases hquiet with hlow | hpage | hall
    · exact absurd hlow hx
    · rw [← hpages, habsent] at hpage
      cases hpage
    · refine hall a.mapping (by rw [← hmaps, find_mapping, ha, Option.map_some]) number offset ?_
      have hnone : r.nodes n = false := by rw [← h.nodes, hnode, Option.isSome_none]
      have hfile' : a.mapping.sharedFile = some n := hfile
      have hprot' : a.mapping.prot &&& 2 = 2 := hprot
      rw [Residency.fetch, hfile', Option.bind_some, if_pos ⟨hnone, hprot'⟩]
      exact congrArg some hval

theorem store_spec (inode : ℕ → Fs.Node) (h : Resides pid maps total r k) (t : Bool × UInt32) :
    ComesTo pid maps total (r.touch maps t.2) (r.Serves maps t.2 ∧ r.Quiet inode maps t)
      (store inode pid t.1 k t.2) := by
  by_cases hcalm : Calm inode pid t.1 k t.2
  · rw [store_calm hcalm, and_iff_left (h.calm_iff.mp hcalm)]
    exact pageIn_spec _ h t.2
  · have hnone : store inode pid t.1 k t.2 = none :=
      Option.eq_none_iff_forall_not_mem.mpr fun k' hk' => hcalm (calm_of_store hk')
    rw [hnone]
    refine ⟨iff_of_false (by simp) fun hh => ?_, fun k' hk' => by cases hk'⟩
    exact hcalm (h.calm_iff.mpr hh.1.2)

namespace Residency

theorem touch_taken_le (maps : List VMEntry) (r : Residency) (x : UInt32) :
    r.taken ≤ (r.touch maps x).taken := by
  unfold touch
  split
  case isTrue => exact le_rfl
  case isFalse =>
    split
    case h_1 => exact le_rfl
    case h_2 =>
      simp only [fault]
      omega

theorem touches_taken_le (maps : List VMEntry) (r : Residency) (xs : List UInt32) :
    r.taken ≤ (xs.foldl (touch maps) r).taken := by
  induction xs generalizing r with
  | nil => exact le_rfl
  | cons x xs ih => exact (touch_taken_le maps r x).trans (ih _)

theorem touch_pages {maps : List VMEntry} {g : Page} :
    (r.touch maps x).pages g = true ↔ r.pages g = true ∨
      ¬x < 0x80000000 ∧ g = pageOf x ∧ Covered maps (pageOf x) := by
  unfold touch
  by_cases hx : x < 0x80000000
  · simp [hx]
  by_cases hg : r.pages (pageOf x) = true
  · simp only [hg, or_true, if_true, hx, not_false_eq_true, true_and]
    refine ⟨Or.inl, fun h => h.elim id fun h => h.1 ▸ hg⟩
  rw [if_neg (not_or.mpr ⟨hx, hg⟩), covered_iff_find]
  cases hfind : maps.find? fun e => e.holds (framedown x) with
  | none => simp
  | some e =>
    by_cases hgx : g = pageOf x
    · simp [fault, hgx, hx]
    · simp [fault, hgx]

theorem serves_touch {maps : List VMEntry} {y : UInt32} :
    (r.touch maps x).Serves maps y ↔ r.Serves maps y := by
  unfold Serves
  rw [touch_pages]
  constructor
  · rintro (h | (h | ⟨-, h, hc⟩) | h)
    · exact Or.inl h
    · exact Or.inr (Or.inl h)
    · exact Or.inr (Or.inr (h ▸ hc))
    · exact Or.inr (Or.inr h)
  · rintro (h | h | h)
    · exact Or.inl h
    · exact Or.inr (Or.inl (Or.inl h))
    · exact Or.inr (Or.inr h)

theorem touches_pages {maps : List VMEntry} {xs : List UInt32} {g : Page} :
    (xs.foldl (touch maps) r).pages g = true ↔ r.pages g = true ∨
      ∃ x ∈ xs, ¬x < 0x80000000 ∧ g = pageOf x ∧ Covered maps (pageOf x) := by
  induction xs generalizing r with
  | nil => simp
  | cons x xs ih =>
    rw [List.foldl_cons, ih, touch_pages]
    simp only [List.mem_cons, exists_eq_or_imp, or_assoc]

end Residency

theorem foldlM_comesTo {α : Type*} {inode : ℕ → Fs.Node} {f : Kernel → α → Option Kernel}
    {key : α → Bool × UInt32}
    (hf : ∀ r k a, Resides pid maps total r k → ComesTo pid maps total (r.touch maps (key a).2)
      (r.Serves maps (key a).2 ∧ r.Quiet inode maps (key a)) (f k a))
    (h : Resides pid maps total r k) (l : List α) :
    ComesTo pid maps total ((l.map fun a => (key a).2).foldl (Residency.touch maps) r)
      ((∀ x ∈ l.map fun a => (key a).2, r.Serves maps x) ∧ r.QuietAll inode maps (l.map key))
      (l.foldlM f k) := by
  induction l generalizing r k with
  | nil => exact h.comesTo.congr (iff_of_true trivial ⟨by simp, trivial⟩)
  | cons a l ih =>
    have hmono := Residency.touches_taken_le maps (r.touch maps (key a).2) (l.map fun a => (key a).2)
    refine ((hf r k a h).bind (fun k₁ h₁ => ih h₁) hmono).congr ?_
    rw [List.map_cons, List.forall_mem_cons, List.map_cons, Residency.QuietAll]
    simp only [Residency.serves_touch]
    exact and_and_and_comm

theorem storeEach_spec (inode : ℕ → Fs.Node) (h : Resides pid maps total r k) (ts : List (Bool × UInt32)) :
    ComesTo pid maps total ((ts.map Prod.snd).foldl (Residency.touch maps) r)
      ((∀ x ∈ ts.map Prod.snd, r.Serves maps x) ∧ r.QuietAll inode maps ts) (storeEach inode pid k ts) := by
  have hall := @foldlM_comesTo pid total maps r k _ inode (fun k (t : Bool × UInt32) =>
    store inode pid t.1 k t.2) (fun t => t) (fun _ _ t h => store_spec inode h t) h ts
  rwa [List.map_id'] at hall

end

end MMapKernel.Sys
