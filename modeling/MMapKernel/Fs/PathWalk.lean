import MMapKernel.Fs.Ext2

/-!
# How a path is resolved

`find` takes a path apart and looks each component up in the node that the ones before it lead to.
A lookup asserts that this node is a directory and walks through all of its records. Below, the
records of a directory and the nodes on a path are relations over the image, without turns, and
`find` returns exactly if every component it comes to is short and is looked up in a directory.
-/

namespace MMapKernel.Fs

namespace Outcome

variable {α β : Type} {x y z : Outcome α}

def Le (x y : Outcome α) : Prop := x = .running ∨ x = y

theorem Le.refl (x : Outcome α) : x.Le x := .inr rfl

theorem Le.trans (hxy : x.Le y) (hyz : y.Le z) : x.Le z := by
  rcases hxy with rfl | rfl
  · exact .inl rfl
  · exact hyz

theorem Le.returned {a : α} (h : x.Le y) (hx : x = .returned a) : y = .returned a := by
  rcases h with rfl | rfl
  · cases hx
  · exact hx

theorem Le.bind (h : x.Le y) {f g : α → Outcome β} (hfg : ∀ a, (f a).Le (g a)) :
    (x.bind f).Le (y.bind g) := by
  rcases h with rfl | rfl
  · exact .inl rfl
  · cases x with
    | returned a => exact hfg a
    | failed => exact .refl _
    | nullNode => exact .refl _
    | running => exact .refl _

theorem bind_eq_returned {f : α → Outcome β} {b : β} :
    x.bind f = .returned b ↔ ∃ a, x = .returned a ∧ f a = .returned b := by
  cases x <;> simp [Outcome.bind]

theorem ofOption_eq_returned {o : Option α} {a : α} : ofOption o = .returned a ↔ o = some a := by
  cases o <;> simp [ofOption]

def Grows (f : ℕ → Outcome α) : Prop := ∀ n, (f n).Le (f (n + 1))

theorem Grows.le {f : ℕ → Outcome α} (hf : Grows f) {m n : ℕ} (h : m ≤ n) : (f m).Le (f n) := by
  induction n, h using Nat.le_induction with
  | base => exact .refl _
  | succ n _ ih => exact ih.trans (hf n)

theorem Grows.unique {f : ℕ → Outcome α} (hf : Grows f) {m n : ℕ} (hm : f m ≠ .running)
    (hn : f n ≠ .running) : f m = f n := by
  rcases le_total m n with h | h
  · exact (hf.le h).resolve_left hm
  · exact ((hf.le h).resolve_left hn).symm

end Outcome

namespace Node

variable {node : Node} {turns : ℕ} {offset : UInt32} {es fs : List (UInt32 × List UInt8)}

inductive Records (node : Node) : UInt32 → List (UInt32 × List UInt8) → Prop
  | done {offset : UInt32} : ¬offset < node.data.sizeLow → Records node offset []
  | record {offset inode : UInt32} {totalSize : UInt16} {name : List UInt8}
      {rest : List (UInt32 × List UInt8)} : offset < node.data.sizeLow →
      node.readEntry offset = some (inode, totalSize, name) →
      Records node (offset + totalSize.toUInt32) rest → Records node offset ((inode, name) :: rest)

theorem entriesLoop_done (h : ¬offset < node.data.sizeLow) :
    node.entriesLoop turns offset = .returned [] := by
  unfold entriesLoop
  rw [if_neg h]

theorem entriesLoop_zero (h : offset < node.data.sizeLow) :
    node.entriesLoop 0 offset = .running := by
  unfold entriesLoop
  rw [if_pos h]

theorem entriesLoop_succ (h : offset < node.data.sizeLow) :
    node.entriesLoop (turns + 1) offset =
      (Outcome.ofOption (node.readEntry offset)).bind fun e =>
        (node.entriesLoop turns (offset + e.2.1.toUInt32)).bind fun rest =>
          .returned ((e.1, e.2.2) :: rest) := by
  rw [entriesLoop, if_pos h]

theorem entriesLoop_grows (node : Node) (offset : UInt32) :
    Outcome.Grows fun turns => node.entriesLoop turns offset := by
  intro turns
  induction turns generalizing offset with
  | zero =>
    by_cases h : offset < node.data.sizeLow
    · exact .inl (entriesLoop_zero h)
    · simp only [entriesLoop_done h]
      exact .refl _
  | succ turns ih =>
    by_cases h : offset < node.data.sizeLow
    · simp only [entriesLoop_succ h]
      exact (Outcome.Le.refl _).bind fun e => (ih _).bind fun rest => .refl _
    · simp only [entriesLoop_done h]
      exact .refl _

theorem entriesLoop_returned : (∃ turns, node.entriesLoop turns offset = .returned es) ↔
    node.Records offset es := by
  constructor
  · intro ⟨turns, h⟩
    induction turns generalizing offset es with
    | zero =>
      by_cases ho : offset < node.data.sizeLow
      · rw [entriesLoop_zero ho] at h
        cases h
      · rw [entriesLoop_done ho] at h
        cases h
        exact .done ho
    | succ turns ih =>
      by_cases ho : offset < node.data.sizeLow
      · rw [entriesLoop_succ ho, Outcome.bind_eq_returned] at h
        obtain ⟨⟨inode, totalSize, name⟩, hread, h⟩ := h
        obtain ⟨rest, hrest, h⟩ := Outcome.bind_eq_returned.mp h
        cases h
        exact .record ho (Outcome.ofOption_eq_returned.mp hread) (ih hrest)
      · rw [entriesLoop_done ho] at h
        cases h
        exact .done ho
  · intro h
    induction h with
    | done ho => exact ⟨0, entriesLoop_done ho⟩
    | record ho hread _ ih =>
      obtain ⟨turns, hrest⟩ := ih
      refine ⟨turns + 1, ?_⟩
      rw [entriesLoop_succ ho, hread, Outcome.ofOption_some, Outcome.bind_returned, hrest]
      rfl

theorem Records.unique (h : node.Records offset es) (h' : node.Records offset fs) : es = fs := by
  obtain ⟨m, hm⟩ := entriesLoop_returned.mpr h
  obtain ⟨n, hn⟩ := entriesLoop_returned.mpr h'
  have := (node.entriesLoop_grows offset).unique (m := m) (n := n) (by simp [hm]) (by simp [hn])
  simpa [hm, hn] using this

end Node

def numberOf (es : List (UInt32 × List UInt8)) (name : List UInt8) : UInt32 :=
  es.foldl (fun out e => if streq name e.2 then e.1 else out) 0

namespace Node

variable {node : Node} {name : List UInt8} {number : UInt32}

theorem find_grows (node : Node) (name : List UInt8) :
    Outcome.Grows fun turns => node.find turns name := by
  intro turns
  have hentries : (node.entries turns).Le (node.entries (turns + 1)) := by
    unfold entries
    split
    case isTrue => exact node.entriesLoop_grows 0 turns
    case isFalse => exact .refl _
  exact hentries.bind fun _ => .refl _

theorem find_returned : (∃ turns, node.find turns name = .returned number) ↔
    node.data.isDir ∧ ∃ es, node.Records 0 es ∧ numberOf es name = number := by
  constructor
  · intro ⟨turns, h⟩
    obtain ⟨es, hes, h⟩ := Outcome.bind_eq_returned.mp h
    cases h
    by_cases hd : node.data.isDir
    · rw [entries, if_pos hd] at hes
      exact ⟨hd, es, entriesLoop_returned.mp ⟨turns, hes⟩, rfl⟩
    · rw [entries, if_neg hd] at hes
      cases hes
  · intro ⟨hd, es, hes, hnumber⟩
    obtain ⟨turns, h⟩ := entriesLoop_returned.mpr hes
    refine ⟨turns, ?_⟩
    rw [find, entries, if_pos hd, h, Outcome.bind_returned, ← hnumber]
    rfl

end Node

theorem of_dropWhile_cons {α : Type*} {p : α → Bool} {l rest : List α} {a : α}
    (h : l.dropWhile p = a :: rest) : p a = false := by
  have hhead := List.head?_dropWhile_not p l
  rw [h] at hhead
  simpa using hhead

def components (path : List UInt8) : List (List UInt8) :=
  (path.splitOn Ext2.slash).filter (· ≠ [])

theorem components_slash (path : List UInt8) : components (Ext2.slash :: path) = components path := by
  simp [components, List.splitOn, List.splitOnP_cons_eq_if_modifyHead]

theorem components_dropWhile (path : List UInt8) :
    components (path.dropWhile (· = Ext2.slash)) = components path := by
  induction path with
  | nil => rfl
  | cons c path ih =>
    by_cases hc : c = Ext2.slash
    · subst hc
      rw [components_slash, ← ih]
      simp
    · simp [hc]

theorem components_part {part : List UInt8} (rest : List UInt8) (hpart : Ext2.slash ∉ part)
    (hne : part ≠ []) : components part = [part] ∧
      components (part ++ Ext2.slash :: rest) = part :: components rest := by
  constructor
  · rw [components, List.splitOn_eq_singleton hpart]
    simp [hne]
  · rw [components, List.splitOn_append_cons_self_of_not_mem hpart]
    simp [components, hne]

theorem components_cons {c : UInt8} {rest : List UInt8} (hc : c ≠ Ext2.slash) :
    components (c :: rest) = (c :: rest).takeWhile (· ≠ Ext2.slash) ::
      components ((c :: rest).dropWhile (· ≠ Ext2.slash)) := by
  have hpart : Ext2.slash ∉ (c :: rest).takeWhile (· ≠ Ext2.slash) := by
    intro hmem
    simpa using List.mem_takeWhile_imp hmem
  have hne : (c :: rest).takeWhile (· ≠ Ext2.slash) ≠ [] := by simp [hc]
  have hsplit := List.takeWhile_append_dropWhile (p := (· ≠ Ext2.slash)) (l := c :: rest)
  cases hrest : (c :: rest).dropWhile (· ≠ Ext2.slash) with
  | nil =>
    rw [hrest, List.append_nil] at hsplit
    rw [hsplit] at hpart hne ⊢
    exact (components_part [] hpart hne).1
  | cons d more =>
    obtain rfl : d = Ext2.slash := by simpa using of_dropWhile_cons hrest
    have hparts := (components_part more hpart hne).2
    rw [← hrest, hsplit] at hparts
    rw [hparts, components_slash]

namespace Ext2

variable {fs : Ext2} {node next n : Node} {name : List UInt8} {cs : List (List UInt8)}

/-- A directory whose records can be read to their end, and whose record for the name, if it has
one, has an i-node. -/
def Searchable (fs : Ext2) (node : Node) (name : List UInt8) : Prop :=
  node.data.isDir ∧ ∃ es, node.Records 0 es ∧
    (numberOf es name = 0 ∨ (fs.getNode (numberOf es name)).isSome)

def Entry (fs : Ext2) (node : Node) (name : List UInt8) (next : Node) : Prop :=
  ∃ es, node.Records 0 es ∧ numberOf es name ≠ 0 ∧ fs.getNode (numberOf es name) = some next

def Passable (fs : Ext2) : Node → List (List UInt8) → Prop
  | _, [] => True
  | node, c :: cs =>
    c.length ≤ 256 ∧ fs.Searchable node c ∧ ∀ next, fs.Entry node c next → fs.Passable next cs

inductive Leads (fs : Ext2) : Node → List (List UInt8) → Node → Prop
  | here {node : Node} : Leads fs node [] node
  | down {node next n : Node} {c : List UInt8} {cs : List (List UInt8)} :
      fs.Entry node c next → Leads fs next cs n → Leads fs node (c :: cs) n

theorem Entry.unique {m : Node} (h : fs.Entry node name next) (h' : fs.Entry node name m) :
    next = m := by
  obtain ⟨es, hes, -, hnext⟩ := h
  obtain ⟨es', hes', -, hm⟩ := h'
  rw [hes.unique hes', hm] at hnext
  exact (Option.some.inj hnext).symm

theorem not_entry {es : List (UInt32 × List UInt8)} (hes : node.Records 0 es)
    (hz : numberOf es name = 0) : ¬fs.Entry node name next := by
  intro ⟨es', hes', hne, _⟩
  rw [hes'.unique hes] at hne
  exact hne hz

theorem leads_nil : fs.Leads node [] n ↔ n = node := by
  constructor
  · intro h
    cases h
    rfl
  · rintro rfl
    exact .here

theorem leads_cons {c : List UInt8} (h : fs.Entry node c next) :
    fs.Leads node (c :: cs) n ↔ fs.Leads next cs n := by
  constructor
  · intro hn
    cases hn with
    | down h' hn =>
      rw [h.unique h']
      exact hn
  · exact .down h

theorem Leads.unique {m : Node} (h : fs.Leads node cs n) (h' : fs.Leads node cs m) : n = m := by
  induction h with
  | here => exact (leads_nil.mp h').symm
  | down hentry _ ih => exact ih ((leads_cons hentry).mp h')

def walk (fs : Ext2) : ℕ → Node → List (List UInt8) → Outcome (Option Node)
  | _, node, [] => .returned (some node)
  | 0, _, _ :: _ => .running
  | turns + 1, node, c :: cs =>
    if 256 < c.length then .failed
    else
      (node.find turns c).bind fun number =>
        if number = 0 then .returned none
        else (Outcome.ofOption (fs.getNode number)).bind fun next => fs.walk turns next cs

theorem findLoop_eq_walk (fs : Ext2) (turns : ℕ) (node : Node) (path : List UInt8) :
    fs.findLoop turns (some node) path = fs.walk turns node (components path) := by
  induction turns generalizing node path with
  | zero =>
    rw [← components_dropWhile path]
    unfold findLoop
    cases hp : path.dropWhile (· = slash) with
    | nil => rfl
    | cons c rest =>
      rw [components_cons (by simpa using of_dropWhile_cons hp)]
      rfl
  | succ turns ih =>
    rw [← components_dropWhile path]
    unfold findLoop
    cases hp : path.dropWhile (· = slash) with
    | nil => rfl
    | cons c rest =>
      rw [components_cons (by simpa using of_dropWhile_cons hp)]
      simp only [walk, ih]

theorem walk_grows (fs : Ext2) (node : Node) (cs : List (List UInt8)) :
    Outcome.Grows fun turns => fs.walk turns node cs := by
  intro turns
  induction turns generalizing node cs with
  | zero =>
    cases cs with
    | nil => exact .inr (by simp [walk])
    | cons c cs => exact .inl rfl
  | succ turns ih =>
    cases cs with
    | nil => exact .refl _
    | cons c cs =>
      simp only [walk]
      split
      case isTrue => exact .refl _
      case isFalse =>
        refine (node.find_grows c turns).bind fun number => ?_
        split
        case isTrue => exact .refl _
        case isFalse => exact (Outcome.Le.refl _).bind fun next => ih next cs

theorem walk_cons_returned {c : List UInt8} {out : Option Node} :
    (∃ turns, fs.walk turns node (c :: cs) = .returned out) ↔
      c.length ≤ 256 ∧ fs.Searchable node c ∧
        ((∀ next, ¬fs.Entry node c next) ∧ out = none ∨
          ∃ next, fs.Entry node c next ∧ ∃ turns, fs.walk turns next cs = .returned out) := by
  constructor
  · intro ⟨turns, h⟩
    cases turns with
    | zero => cases h
    | succ turns =>
      simp only [walk] at h
      split at h
      case isTrue => cases h
      case isFalse hlen =>
        refine ⟨not_lt.mp hlen, ?_⟩
        obtain ⟨number, hfind, h⟩ := Outcome.bind_eq_returned.mp h
        obtain ⟨hd, es, hes, rfl⟩ := Node.find_returned.mp ⟨turns, hfind⟩
        split at h
        case isTrue hz =>
          cases h
          exact ⟨⟨hd, es, hes, .inl hz⟩, .inl ⟨fun next => not_entry hes hz, rfl⟩⟩
        case isFalse hz =>
          obtain ⟨next, hnext, h⟩ := Outcome.bind_eq_returned.mp h
          rw [Outcome.ofOption_eq_returned] at hnext
          exact ⟨⟨hd, es, hes, .inr (by simp [hnext])⟩, .inr ⟨next, ⟨es, hes, hz, hnext⟩, turns, h⟩⟩
  · intro ⟨hlen, ⟨hd, es, hes, hor⟩, hcases⟩
    obtain ⟨t, ht⟩ : ∃ t, node.find t c = .returned (numberOf es c) :=
      Node.find_returned.mpr ⟨hd, es, hes, rfl⟩
    rcases hcases with ⟨hnone, rfl⟩ | ⟨next, ⟨es', hes', hz, hnext⟩, t', ht'⟩
    · have hz : numberOf es c = 0 := by
        by_contra hz
        obtain ⟨next, hnext⟩ := Option.isSome_iff_exists.mp (hor.resolve_left hz)
        exact hnone next ⟨es, hes, hz, hnext⟩
      refine ⟨t + 1, ?_⟩
      simp only [walk, not_lt.mpr hlen, if_false, ht, Outcome.bind_returned, hz, if_true]
    · rw [hes'.unique hes] at hz hnext
      -- enough turns for the lookup and for the rest of the walk
      have hfind := ((node.find_grows c).le (le_max_left t t')).returned ht
      have hwalk := ((fs.walk_grows next cs).le (le_max_right t t')).returned ht'
      refine ⟨max t t' + 1, ?_⟩
      simp only [walk, not_lt.mpr hlen, if_false, hfind, Outcome.bind_returned, hz, hnext,
        Outcome.ofOption_some, hwalk]

theorem walk_returned {out : Option Node} : (∃ turns, fs.walk turns node cs = .returned out) ↔
    fs.Passable node cs ∧ ∀ n, out = some n ↔ fs.Leads node cs n := by
  induction cs generalizing node with
  | nil =>
    simp only [walk, Outcome.returned.injEq, exists_const, Passable, true_and, leads_nil]
    constructor
    · rintro rfl n
      simp [eq_comm]
    · intro h
      exact ((h node).mpr rfl).symm
  | cons c cs ih =>
    rw [walk_cons_returned, Passable]
    constructor
    · rintro ⟨hlen, hsearch, ⟨hnone, rfl⟩ | ⟨next, hentry, hwalk⟩⟩
      · refine ⟨⟨hlen, hsearch, fun next hnext => absurd hnext (hnone next)⟩, fun n => ⟨nofun, ?_⟩⟩
        intro hn
        cases hn with
        | down hnext => exact absurd hnext (hnone _)
      · obtain ⟨hpass, hout⟩ := ih.mp hwalk
        refine ⟨⟨hlen, hsearch, fun m hm => ?_⟩, fun n => ?_⟩
        · rw [← hentry.unique hm]
          exact hpass
        · rw [leads_cons hentry]
          exact hout n
    · intro ⟨⟨hlen, hsearch, hpass⟩, hout⟩
      refine ⟨hlen, hsearch, ?_⟩
      by_cases hex : ∃ next, fs.Entry node c next
      · obtain ⟨next, hentry⟩ := hex
        refine .inr ⟨next, hentry, ih.mpr ⟨hpass next hentry, fun n => ?_⟩⟩
        rw [← leads_cons hentry]
        exact hout n
      · rw [not_exists] at hex
        refine .inl ⟨hex, ?_⟩
        by_contra hne
        obtain ⟨n, hn⟩ := Option.ne_none_iff_exists'.mp hne
        cases (hout n).mp hn with
        | down hnext => exact hex _ hnext

theorem find_grows (fs : Ext2) (node : Node) (path : List UInt8) :
    Outcome.Grows fun turns => fs.find turns (some node) path := by
  intro turns
  simp only [find, findLoop_eq_walk]
  exact fs.walk_grows node _ turns

theorem find_returned {path : List UInt8} {out : Option Node} :
    (∃ turns, fs.find turns (some node) path = .returned out) ↔
      fs.Passable node (components (cString path)) ∧
        ∀ n, out = some n ↔ fs.Leads node (components (cString path)) n := by
  simp only [find, findLoop_eq_walk]
  exact walk_returned

theorem find_leads {path : List UInt8} (hpass : fs.Passable node (components (cString path)))
    (h : fs.Leads node (components (cString path)) n) :
    ∃ turns, fs.find turns (some node) path = .returned (some n) := by
  refine find_returned.mpr ⟨hpass, fun m => ⟨fun hm => ?_, fun hm => ?_⟩⟩
  · cases hm
    exact h
  · rw [h.unique hm]

def Known (node : Node) : Prop := node.data.isDir ∨ node.data.isFile ∨ node.data.isSymlink

/-- The image can be mounted, its root is a directory, each directory is a sequence of records that
name i-nodes of known types, and each link has a target. -/
structure WellFormed (disk : Disk) (fs : Ext2) (root : Node) : Prop where
  mounted : mount disk = some (fs, root)
  root : root.data.isDir
  records : ∀ i node, fs.getNode i = some node → node.data.isDir → ∃ es, node.Records 0 es ∧
    ∀ e ∈ es, e.1 ≠ 0 → ∃ next, fs.getNode e.1 = some next ∧ Known next
  symbols : ∀ i node, fs.getNode i = some node → node.data.isSymlink →
    ∃ symbol, node.getSymbol = .returned symbol ∧ symbol ≠ [] ∧ 0 ∉ symbol

theorem numberOf_mem {es : List (UInt32 × List UInt8)} (h : numberOf es name ≠ 0) :
    ∃ e ∈ es, e.1 = numberOf es name := by
  induction es using List.reverseRecOn with
  | nil => exact absurd rfl h
  | append_singleton es e ih =>
    have hlast : numberOf (es ++ [e]) name = if streq name e.2 then e.1 else numberOf es name := by
      simp [numberOf]
    rw [hlast] at h ⊢
    split
    case isTrue => exact ⟨e, by simp, rfl⟩
    case isFalse hne =>
      rw [if_neg hne] at h
      obtain ⟨e', he', hnumber⟩ := ih h
      exact ⟨e', List.mem_append_left _ he', hnumber⟩

theorem WellFormed.searchable_iff {disk : Disk} {root : Node} (h : WellFormed disk fs root)
    {i : UInt32} (hi : fs.getNode i = some node) : fs.Searchable node name ↔ node.data.isDir := by
  refine ⟨fun hs => hs.1, fun hd => ⟨hd, ?_⟩⟩
  obtain ⟨es, hes, hnodes⟩ := h.records i node hi hd
  refine ⟨es, hes, ?_⟩
  by_cases hz : numberOf es name = 0
  · exact .inl hz
  · obtain ⟨e, he, hnumber⟩ := numberOf_mem hz
    rw [← hnumber] at hz ⊢
    obtain ⟨next, hnext, -⟩ := hnodes e he hz
    exact .inr (by simp [hnext])

def checkNode (fs : Ext2) (turns : ℕ) (node : Node) : Bool :=
  (!node.data.isDir || match node.entries turns with
    | .returned es => es.all fun e => e.1 == 0 || (fs.getNode e.1).any fun next =>
        next.data.isDir || next.data.isFile || next.data.isSymlink
    | _ => false) &&
  (!node.data.isSymlink || match node.getSymbol with
    | .returned symbol => !symbol.isEmpty && !symbol.contains 0
    | _ => false)

def checkImage (turns : ℕ) (fs : Ext2) (root : Node) : Bool :=
  root.data.isDir && (List.range (fs.numberOfNodes.toNat + 1)).all fun i =>
    (fs.getNode (UInt32.ofNat i)).all (fs.checkNode turns)

theorem getNode_le {i : UInt32} (h : fs.getNode i = some node) : i ≤ fs.numberOfNodes := by
  unfold getNode at h
  split at h
  case isTrue => cases h
  case isFalse hn => exact (not_not.mp hn).2

theorem wellFormed_of_check {disk : Disk} {root : Node} {turns : ℕ}
    (hm : mount disk = some (fs, root)) (h : checkImage turns fs root) : WellFormed disk fs root := by
  rw [checkImage, Bool.and_eq_true, List.all_eq_true] at h
  have hnode : ∀ i node, fs.getNode i = some node → fs.checkNode turns node := by
    intro i node hi
    have hle := UInt32.le_iff_toNat_le.mp (getNode_le hi)
    have hi' := h.2 i.toNat (List.mem_range.mpr (by omega))
    rwa [UInt32.ofNat_toNat, hi] at hi'
  refine ⟨hm, h.1, fun i node hi hd => ?_, fun i node hi hl => ?_⟩
  · have hcheck := hnode i node hi
    simp only [checkNode, Bool.and_eq_true, hd, Bool.not_true, Bool.false_or] at hcheck
    obtain ⟨hrecords, -⟩ := hcheck
    split at hrecords
    case h_1 es hes =>
      rw [Node.entries, if_pos hd] at hes
      refine ⟨es, Node.entriesLoop_returned.mp ⟨turns, hes⟩, fun e he hne => ?_⟩
      have hnext := List.all_eq_true.mp hrecords e he
      simpa [hne, Option.any_eq_true, Known, or_assoc] using hnext
    case h_2 => cases hrecords
  · have hcheck := hnode i node hi
    simp only [checkNode, Bool.and_eq_true, hl, Bool.not_true, Bool.false_or] at hcheck
    obtain ⟨-, hsymbol⟩ := hcheck
    split at hsymbol
    case h_1 symbol hs => exact ⟨symbol, hs, by simpa using hsymbol⟩
    case h_2 => cases hsymbol

end Ext2

end MMapKernel.Fs
