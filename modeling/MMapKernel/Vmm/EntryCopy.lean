import MMapKernel.Lib.LinkedList
import MMapKernel.Vmm.EntryList

/-!
# Copying an entry list

An entry list in memory: a `VMEntry` is named by its place in the sequence of all that were made,
so that `new` appends. `fork` copies the list of the parent node by node.
-/

namespace MMapKernel.Vmm
open LinkedList

structure EntryNode where
  entry : VMEntry
  next : Option ℕ

abbrev EntryNodes := List EntryNode

namespace EntryNodes

def next (s : EntryNodes) (a : ℕ) : Option ℕ := (s[a]?).bind EntryNode.next

def entry (s : EntryNodes) (a : ℕ) : Option VMEntry := (s[a]?).map EntryNode.entry

def make (s : EntryNodes) (e : VMEntry) : ℕ × EntryNodes := (s.length, s ++ [⟨e, none⟩])

def setNext (s : EntryNodes) (a b : ℕ) : EntryNodes := s.modify a fun x => { x with next := some b }

/-- The loop of `fork`: `temp` is the next node of the parent, `temp2` the last one of the child. A
turn takes one unit of fuel. -/
def copyRest : ℕ → EntryNodes → Option ℕ → ℕ → Option EntryNodes
  | 0, _, _, _ => none
  | _ + 1, s, none, _ => some s
  | fuel + 1, s, some temp, temp2 =>
    match s[temp]? with
    | none => none
    | some x =>
      let (b, s) := s.make x.entry
      copyRest fuel (s.setNext temp2 b) x.next b

def copyList (fuel : ℕ) (s : EntryNodes) : Option ℕ → Option (Option ℕ × EntryNodes)
  | none => some (none, s)
  | some a =>
    match s[a]? with
    | none => none
    | some x =>
      let (b, s) := s.make x.entry
      (copyRest fuel s x.next b).map fun s => (some b, s)

/-- From `head` on the memory holds a list of the entries `es`, at the nodes `l`. -/
structure Holds (s : EntryNodes) (head : Option ℕ) (l : List ℕ) (es : List VMEntry) : Prop where
  chain : Chain s.next head l
  entries : l.map s.entry = es.map some
  nodup : l.Nodup

variable {s t : EntryNodes} {head : Option ℕ} {l : List ℕ} {es : List VMEntry} {e : VMEntry} {a b : ℕ}

theorem Holds.mem_lt (h : s.Holds head l es) (ha : a ∈ l) : a < s.length := by
  have hmem : s.entry a ∈ es.map some := h.entries ▸ List.mem_map_of_mem ha
  obtain ⟨e, -, he⟩ := List.mem_map.mp hmem
  obtain ⟨x, hx, -⟩ := Option.map_eq_some_iff.mp he.symm
  exact (List.getElem?_eq_some_iff.mp hx).1

theorem Holds.congr (h : s.Holds head l es) (hst : ∀ a ∈ l, t[a]? = s[a]?) : t.Holds head l es where
  chain := h.chain.congr fun a ha => by rw [next, next, hst a ha]
  entries := by
    rw [← h.entries]
    exact List.map_congr_left fun a ha => by rw [entry, entry, hst a ha]
  nodup := h.nodup

theorem get_setNext_of_ne (s : EntryNodes) (b : ℕ) {c : ℕ} (h : a ≠ c) :
    (s.setNext a b)[c]? = s[c]? := by
  rw [setNext, List.getElem?_modify_ne _ _ h]

theorem next_setNext (ha : a < s.length) : (s.setNext a b).next = Function.update s.next a (some b) := by
  funext c
  by_cases hc : c = a
  · subst hc
    rw [Function.update_self, next, setNext, List.getElem?_modify_eq, List.getElem?_eq_getElem ha]
    rfl
  · rw [Function.update_of_ne hc, next, next, get_setNext_of_ne s b (Ne.symm hc)]

theorem entry_setNext : (s.setNext a b).entry = s.entry := by
  funext c
  rw [entry, entry, setNext]
  by_cases hc : a = c
  · subst hc
    rw [List.getElem?_modify_eq, Option.map_eq_map, Option.map_map]
    rfl
  · rw [List.getElem?_modify_ne _ _ hc]

theorem Holds.snoc (h : s.Holds head l es) (ha : l.getLast? = some a) (e : VMEntry) :
    ((s.make e).2.setNext a s.length).Holds head (l ++ [s.length]) (es ++ [e]) := by
  have hmem : a ∈ l := List.mem_of_getLast? ha
  have hnew : s.length ∉ l := fun hm => lt_irrefl _ (h.mem_lt hm)
  have hmade : (s.make e).2.Holds head l es :=
    h.congr fun c hc => List.getElem?_append_left (h.mem_lt hc)
  constructor
  · rw [next_setNext (hmade.mem_lt hmem)]
    refine hmade.chain.snoc h.nodup hnew ?_ ha
    simp [make, next]
  · rw [entry_setNext, List.map_append, List.map_append, hmade.entries]
    simp [make, entry]
  · exact List.nodup_append.mpr ⟨h.nodup, List.nodup_singleton _, fun c hc d hd => by
      rw [List.mem_singleton.mp hd]
      exact fun heq => hnew (heq ▸ hc)⟩

theorem Holds.uncons {rest : List ℕ} (h : s.Holds head (b :: rest) es) :
    ∃ x es', head = some b ∧ s[b]? = some x ∧ es = x.entry :: es' ∧ s.Holds x.next rest es' := by
  obtain ⟨hhead, hchain⟩ := h.chain
  obtain ⟨x, hget⟩ : ∃ x, s[b]? = some x := ⟨_, List.getElem?_eq_getElem (h.mem_lt List.mem_cons_self)⟩
  have hentries := h.entries
  cases es with
  | nil => cases hentries
  | cons e es =>
    obtain ⟨he, hrest⟩ := List.cons.inj hentries
    have he : x.entry = e := by simpa [entry, hget] using he
    refine ⟨x, es, hhead, hget, by rw [he], ?_, hrest, (List.nodup_cons.mp h.nodup).2⟩
    have hn : s.next b = x.next := by rw [next, hget, Option.bind_some]
    rwa [hn] at hchain

theorem copyRest_spec {n fuel : ℕ} {temp : Option ℕ} {rest done : List ℕ} {restEs doneEs : List VMEntry}
    (hs : n ≤ s.length) (hrest : s.Holds temp rest restEs) (hlow : ∀ c ∈ rest, c < n)
    (hdone : s.Holds head done doneEs) (hhigh : ∀ c ∈ done, n ≤ c) (ha : done.getLast? = some a)
    (hfuel : rest.length < fuel) :
    ∃ t l, copyRest fuel s temp a = some t ∧ t.Holds head l (doneEs ++ restEs) ∧
      (∀ c ∈ l, n ≤ c) ∧ ∀ c < n, t[c]? = s[c]? := by
  induction rest generalizing fuel s temp a done doneEs restEs with
  | nil =>
    obtain ⟨fuel, rfl⟩ : ∃ k, fuel = k + 1 := ⟨fuel - 1, by omega⟩
    have hnone : temp = none := hrest.chain
    have hes : restEs = [] := by simpa using hrest.entries.symm
    rw [hnone, hes, List.append_nil]
    exact ⟨s, done, rfl, hdone, hhigh, fun _ _ => rfl⟩
  | cons b rest ih =>
    obtain ⟨fuel, rfl⟩ : ∃ k, fuel = k + 1 := ⟨fuel - 1, by omega⟩
    obtain ⟨x, restEs, rfl, hget, rfl, htail⟩ := hrest.uncons
    have hmem : a ∈ done := List.mem_of_getLast? ha
    have hlow' : ∀ c ∈ rest, c < n := fun c hc => hlow c (List.mem_cons_of_mem b hc)
    have hkept : ∀ c < n, ((s.make x.entry).2.setNext a s.length)[c]? = s[c]? := fun c hc => by
      have hca : a ≠ c := fun h => absurd (hhigh a hmem) (by omega)
      rw [get_setNext_of_ne _ _ hca]
      exact List.getElem?_append_left (by omega)
    have hgrown := hdone.snoc ha x.entry
    have hhigh' : ∀ c ∈ done ++ [s.length], n ≤ c := fun c hc => by
      rcases List.mem_append.mp hc with hc | hc
      · exact hhigh c hc
      · rw [List.mem_singleton.mp hc]
        exact hs
    have hlen : n ≤ ((s.make x.entry).2.setNext a s.length).length := by
      rw [setNext, List.length_modify, make, List.length_append]
      omega
    obtain ⟨t, l, ht, hl, hhigh', hkept'⟩ := ih hlen (htail.congr fun c hc => hkept c (hlow' c hc)) hlow'
      hgrown hhigh' List.getLast?_concat (Nat.lt_of_succ_lt_succ hfuel)
    refine ⟨t, l, ?_, ?_, hhigh', fun c hc => (hkept' c hc).trans (hkept c hc)⟩
    · simp only [copyRest, hget]
      exact ht
    · rwa [List.append_assoc] at hl

theorem copyList_spec {fuel : ℕ} (h : s.Holds head l es) (hfuel : l.length ≤ fuel) :
    ∃ head' t l', copyList fuel s head = some (head', t) ∧ t.Holds head' l' es ∧
      (∀ c ∈ l', s.length ≤ c) ∧ ∀ c < s.length, t[c]? = s[c]? := by
  cases l with
  | nil =>
    have hnone : head = none := h.chain
    rw [hnone] at h ⊢
    exact ⟨none, s, [], rfl, h, by simp, fun _ _ => rfl⟩
  | cons b rest =>
    obtain ⟨x, es, rfl, hget, rfl, htail⟩ := h.uncons
    have hold : ∀ c < s.length, (s.make x.entry).2[c]? = s[c]? :=
      fun c hc => List.getElem?_append_left hc
    have hlow : ∀ c ∈ rest, c < s.length := fun c hc => htail.mem_lt hc
    have hhead : (s.make x.entry).2.Holds (some s.length) [s.length] [x.entry] := by
      refine ⟨⟨rfl, ?_⟩, ?_, List.nodup_singleton _⟩ <;> simp [Chain, make, next, entry]
    obtain ⟨t, l, ht, hl, hhigh, hkept⟩ := copyRest_spec (by simp [make])
      (htail.congr fun c hc => hold c (hlow c hc)) hlow hhead (by simp) rfl
      (by simpa using hfuel : rest.length < fuel)
    refine ⟨some s.length, t, l, ?_, hl, hhigh, fun c hc => (hkept c hc).trans (hold c hc)⟩
    simp only [copyList, hget]
    exact Option.map_eq_some_iff.mpr ⟨t, ht, rfl⟩

end EntryNodes
end MMapKernel.Vmm
