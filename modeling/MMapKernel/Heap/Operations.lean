import MMapKernel.Heap.Invariant

/-!
# What `malloc` and `free` do to a well-formed heap

Both calls take some neighbouring blocks out of the free list and then write new
tags over the range they covered. `Pending` is the state in between: nothing is said
about the words in `[s, e)`, and the list holds exactly the free blocks outside it.
-/

open BoundaryTag
namespace MMapKernel.Heap

structure Pending (h : Heap) (L R : List Block) (fl : List ℤ) (s e : ℤ) : Prop extends
    Tagging h (L ++ R), AvailList h fl where
  before : Tiles 2 s L
  after : Tiles e (h.len - 2) R
  gap : s ≤ e
  exactly : fl.Perm (startsOf true (L ++ R))

def Untouched (h h' : Heap) (c : Block) : Prop :=
  ∀ k, c.start ≤ k → k < c.stop → h'.array k = h.array k

theorem Untouched.trans {h h' h'' : Heap} {c : Block} (h₁ : Untouched h h' c)
    (h₂ : Untouched h' h'' c) : Untouched h h'' c :=
  fun k hk hk' => (h₂ k hk hk').trans (h₁ k hk hk')

def Nodes (fl : List ℤ) (bs : List Block) : Prop := ∀ x ∈ fl, ∃ c ∈ bs, c.free = true ∧ c.start = x

theorem nodes_of_perm {fl : List ℤ} {bs bs' : List Block} (hp : fl.Perm (startsOf true bs))
    (hsub : ∀ c ∈ bs, c ∈ bs') : Nodes fl bs' := by
  intro x hx
  obtain ⟨c, hc, hcf, hcx⟩ := mem_startsOf.mp (hp.mem_iff.mp hx)
  exact ⟨c, hsub c hc, hcf, hcx⟩

section
variable {h : Heap} {bs : List Block} {fl : List ℤ}

theorem Nodes.pos (hn : Nodes fl bs) (ht : Tagging h bs) : ∀ y ∈ fl, 0 < y := by
  intro y hy
  obtain ⟨c, hc, -, rfl⟩ := hn y hy
  have := (ht.layout.mem c hc).1
  omega

theorem Nodes.spread (hn : Nodes fl bs) (ht : Tagging h bs) (hd : fl.Nodup) : Spread fl := by
  refine List.Pairwise.imp_of_mem ?_ hd
  intro x y hx hy hxy
  obtain ⟨b, hb, -, rfl⟩ := hn x hx
  obtain ⟨c, hc, -, rfl⟩ := hn y hy
  have hb4 := (ht.layout.mem b hb).2.1
  have hc4 := (ht.layout.mem c hc).2.1
  rcases ht.layout.apart b hb c hc with rfl | hbc | hbc
  · exact absurd rfl hxy
  · simp only [Block.stop] at hbc; omega
  · simp only [Block.stop] at hbc; omega

theorem remove_spec (ht : Tagging h bs) (ha : AvailList h fl) (hn : Nodes fl bs) (hd : fl.Nodup)
    {x : ℤ} (hx : x ∈ fl) :
    Tagging (h.remove x) bs ∧ AvailList (h.remove x) (fl.erase x) ∧
      ∀ k, (∀ y ∈ fl, k ≠ y + 1 ∧ k ≠ y + 2) → (h.remove x).array k = h.array k := by
  obtain ⟨l, r, rfl⟩ := List.append_of_mem hx
  have hxl : x ∉ l := fun hm => (List.nodup_append.mp hd).2.2 x hm x List.mem_cons_self rfl
  have herase : (l ++ x :: r).erase x = l ++ r := by
    rw [List.erase_append_right _ hxl, List.erase_cons_head]
  have hsub : ∀ y ∈ l ++ r, y ∈ l ++ x :: r := by
    intro y hy
    rcases List.mem_append.mp hy with hy | hy
    · exact List.mem_append_left _ hy
    · exact List.mem_append_right _ (List.mem_cons_of_mem _ hy)
  have hframe : ∀ k, (∀ y ∈ l ++ x :: r, k ≠ y + 1 ∧ k ≠ y + 2) →
      (h.remove x).array k = h.array k := fun k hk =>
    remove_frame ha (hn.pos ht) fun y hy => hk y (hsub y hy)
  refine ⟨ht.congr (remove_len h x) (fun y hy => ?_) hframe, ?_, hframe⟩
  · obtain ⟨c, hc, -, hcy⟩ := hn y hy
    exact ⟨c, hc, hcy⟩
  · rw [herase]
    exact remove_availList ha (hn.pos ht) (hn.spread ht hd)

theorem Nodes.ne_link (hn : Nodes fl bs) (ht : Tagging h bs) {c : Block} (hc : c ∈ bs)
    (hcf : c.free = false) {k : ℤ} (hk : c.start ≤ k) (hk' : k < c.stop) :
    ∀ y ∈ fl, k ≠ y + 1 ∧ k ≠ y + 2 := by
  intro y hy
  obtain ⟨d, hd, hdf, rfl⟩ := hn y hy
  have h4 := (ht.layout.mem d hd).2.1
  rcases ht.layout.apart c hc d hd with rfl | hcd | hcd
  · rw [hcf] at hdf
    exact absurd hdf (by decide)
  · omega
  · simp only [Block.stop] at hcd; omega

end

theorem erase_perm {fl : List ℤ} {X Y : List Block} {c : Block}
    (hp : fl.Perm (startsOf true (X ++ c :: Y))) (hc : c.free = true) :
    (fl.erase c.start).Perm (startsOf true (X ++ Y)) := by
  have hmid : (startsOf true (X ++ c :: Y)).Perm (c.start :: startsOf true (X ++ Y)) := by
    rw [startsOf_append, startsOf_append, startsOf_cons, if_pos hc]
    exact List.perm_middle
  have := (hp.trans hmid).erase c.start
  rwa [List.erase_cons_head] at this

section
variable {h h' : Heap} {L R : List Block} {fl : List ℤ} {s e : ℤ}

theorem Pending.nodes (hp : Pending h L R fl s e) : Nodes fl (L ++ R) :=
  nodes_of_perm hp.exactly fun _ hc => hc

theorem Pending.nodup (hp : Pending h L R fl s e) : fl.Nodup := by
  have hs : Spread (startsOf true (L ++ R)) := by
    have h₁ := spread_startsOf hp.before true
    have h₂ := spread_startsOf hp.after true
    rw [startsOf_append]
    refine List.pairwise_append.mpr ⟨h₁, h₂, fun x hx y hy => ?_⟩
    obtain ⟨b, hb, -, rfl⟩ := mem_startsOf.mp hx
    obtain ⟨c, hc, -, rfl⟩ := mem_startsOf.mp hy
    have hb := tiles_mem hp.before hb
    have hc := tiles_mem hp.after hc
    have := hp.gap
    simp only [Block.stop] at hb hc
    omega
  exact hp.exactly.nodup_iff.mpr hs.nodup

theorem Pending.absorb_right {c : Block} (hp : Pending h L (c :: R) fl s e) (hc : c.free = true) :
    Pending (h.remove c.start) L R (fl.erase c.start) s c.stop := by
  have hx : c.start ∈ fl := by
    refine hp.exactly.mem_iff.mpr (mem_startsOf.mpr ⟨c, ?_, hc, rfl⟩)
    exact List.mem_append_right _ List.mem_cons_self
  obtain ⟨ht, ha, -⟩ := remove_spec hp.toTagging hp.toAvailList hp.nodes hp.nodup hx
  have hsub : ∀ b ∈ L ++ R, b ∈ L ++ c :: R := fun b hb => by
    rcases List.mem_append.mp hb with hb | hb
    · exact List.mem_append_left _ hb
    · exact List.mem_append_right _ (List.mem_cons_of_mem _ hb)
  obtain ⟨hce, hc4, hR⟩ := hp.after
  have hgap := hp.gap
  have hse : s ≤ c.stop := by simp only [Block.stop]; omega
  have hR' : Tiles c.stop ((h.remove c.start).len - 2) R := by rwa [remove_len]
  exact {
    front := ht.front
    back := ht.back
    layout := layout_gap hp.before hR' hse
    tagged := fun b hb => ht.tagged b (hsub b hb)
    head := ha.head
    linked := ha.linked
    before := hp.before
    after := hR'
    gap := hse
    exactly := erase_perm hp.exactly hc }

theorem Pending.absorb_left {c : Block} (hp : Pending h (L ++ [c]) R fl s e) (hc : c.free = true) :
    Pending (h.remove c.start) L R (fl.erase c.start) c.start e := by
  have hx : c.start ∈ fl := by
    refine hp.exactly.mem_iff.mpr (mem_startsOf.mpr ⟨c, ?_, hc, rfl⟩)
    simp
  obtain ⟨ht, ha, -⟩ := remove_spec hp.toTagging hp.toAvailList hp.nodes hp.nodup hx
  have hsub : ∀ b ∈ L ++ R, b ∈ L ++ [c] ++ R := fun b hb => by
    simp only [List.mem_append, List.mem_singleton] at hb ⊢
    tauto
  obtain ⟨hL, hc4, hs⟩ := tiles_middle.mp hp.before
  have hgap := hp.gap
  have hse : c.start ≤ e := by
    have hs : c.stop = s := hs
    simp only [Block.stop] at hs
    omega
  have hR' : Tiles e ((h.remove c.start).len - 2) R := by
    rw [remove_len]
    exact hp.after
  have hperm : fl.Perm (startsOf true (L ++ c :: R)) := by simpa using hp.exactly
  exact {
    front := ht.front
    back := ht.back
    layout := layout_gap hL hR' hse
    tagged := fun b hb => ht.tagged b (hsub b hb)
    head := ha.head
    linked := ha.linked
    before := hL
    after := hR'
    gap := hse
    exactly := erase_perm hperm hc }

theorem Pending.forget_right {c : Block} (hp : Pending h L (c :: R) fl s e)
    (hc : c.free = false) : Pending h L R fl s c.stop := by
  have hsub : ∀ b ∈ L ++ R, b ∈ L ++ c :: R := fun b hb => by
    simp only [List.mem_append, List.mem_cons] at hb ⊢
    tauto
  obtain ⟨hce, hc4, hR⟩ := hp.after
  have hgap := hp.gap
  have hse : s ≤ c.stop := by simp only [Block.stop]; omega
  have hperm : fl.Perm (startsOf true (L ++ R)) := by
    have := hp.exactly
    rwa [startsOf_append, startsOf_cons, hc, if_neg (by decide), ← startsOf_append] at this
  exact {
    front := hp.front
    back := hp.back
    layout := layout_gap hp.before hR hse
    tagged := fun b hb => hp.tagged b (hsub b hb)
    head := hp.head
    linked := hp.linked
    before := hp.before
    after := hR
    gap := hse
    exactly := hperm }

theorem WellFormed.open_at {b : Block} (hw : WellFormed h (L ++ b :: R) fl) :
    Pending h L (b :: R) fl b.start b.start := by
  obtain ⟨hL, h4, hR⟩ := tiles_middle.mp hw.tiles
  exact { hw with
    before := hL
    after := ⟨rfl, h4, hR⟩
    gap := le_rfl
    exactly := hw.exactly }

theorem Pending.wellFormed (hp : Pending h L R fl s s) (hset : Settled (L ++ R)) :
    WellFormed h (L ++ R) fl :=
  { hp with
    tiles := tiles_append.mpr ⟨s, hp.before, hp.after⟩
    exactly := hp.exactly
    settled := hset }

theorem WellFormed.mem_list {bs : List Block} (hw : WellFormed h bs fl) {b : Block} (hb : b ∈ bs)
    (hbf : b.free = true) : b.start ∈ fl :=
  hw.exactly.mem_iff.mpr (mem_startsOf.mpr ⟨b, hb, hbf, rfl⟩)

theorem Pending.outside (hp : Pending h L R fl s e) {c : Block} (hc : c ∈ L ++ R) :
    c.stop ≤ s ∨ e ≤ c.start := by
  rcases List.mem_append.mp hc with hc | hc
  · exact Or.inl (tiles_mem hp.before hc).2.2
  · exact Or.inr (tiles_mem hp.after hc).1

theorem Pending.sep (hp : Pending h L R fl s e) : ∀ y ∈ fl, y + 4 ≤ s ∨ e ≤ y := by
  intro y hy
  obtain ⟨c, hc, -, rfl⟩ := hp.nodes y hy
  have h4 := (hp.layout.mem c hc).2.1
  have := hp.outside hc
  simp only [Block.stop] at this
  omega

theorem Pending.tagging (hp : Pending h L R fl s e) (hlen : h'.len = h.len)
    (hframe : ∀ k, k < s ∨ e ≤ k → (∀ y ∈ fl, k ≠ y + 1 ∧ k ≠ y + 2) →
      h'.array k = h.array k) :
    (h'.array 0 = -2 ∧ h'.array 1 = -2) ∧
    (h'.array (h'.len - 2) = -2 ∧ h'.array (h'.len - 1) = -2) ∧
    ∀ b ∈ L ++ R, b.Tagged h'.array := by
  have hs2 := tiles_le hp.before
  have he := tiles_le hp.after
  have hout : ∀ k, k < 2 ∨ h.len - 2 ≤ k → h'.array k = h.array k := by
    intro k hk
    refine hframe k (by omega) fun y hy => ?_
    obtain ⟨c, hc, -, rfl⟩ := hp.nodes y hy
    have := hp.layout.mem c hc
    simp only [Block.stop] at this
    omega
  refine ⟨?_, ?_, fun b hb => ?_⟩
  · rw [hout 0 (by omega), hout 1 (by omega)]
    exact hp.front
  · rw [hlen, hout _ (by omega), hout _ (by omega)]
    exact hp.back
  · have htag : ∀ k, k = b.start ∨ k = b.stop - 1 → h'.array k = h.array k := by
      intro k hk
      have hb4 := (hp.layout.mem b hb).2.1
      have hbo := hp.outside hb
      refine hframe k (by simp only [Block.stop] at hk hbo; omega) fun y hy => ?_
      obtain ⟨c, hc, -, rfl⟩ := hp.nodes y hy
      have h₁ := hp.layout.link_ne_tag hb hc (Or.inl rfl)
      have h₂ := hp.layout.link_ne_tag hb hc (Or.inr rfl)
      omega
    exact (hp.tagged b hb).congr (htag _ (Or.inl rfl)) (htag _ (Or.inr rfl))

theorem Pending.makeTaken (hp : Pending h L R fl s e) {ints : ℤ} (h4 : 4 ≤ ints)
    (hle : s + ints ≤ e) :
    Pending (h.makeTaken s ints) (L ++ [⟨s, ints, false⟩]) R fl (s + ints) e := by
  have hz : 0 ≤ ints := by omega
  have hframe : ∀ k, k < s ∨ e ≤ k → (h.makeTaken s ints).array k = h.array k :=
    fun k hk => makeTaken_frame hz (by omega) (by omega)
  obtain ⟨hf, hb, ht⟩ := hp.tagging (makeTaken_len h s ints) fun k hk _ => hframe k hk
  have hL : Tiles 2 (s + ints) (L ++ [⟨s, ints, false⟩]) :=
    tiles_middle.mpr ⟨hp.before, h4, rfl⟩
  exact {
    front := hf
    back := hb
    layout := layout_gap hL hp.after hle
    tagged := by
      intro b hb
      rw [List.append_assoc, List.mem_append, List.singleton_append, List.mem_cons] at hb
      rcases hb with hb | rfl | hb
      · exact ht b (List.mem_append_left _ hb)
      · exact makeTaken_tagged hz
      · exact ht b (List.mem_append_right _ hb)
    head := hp.head
    linked := by
      refine hp.linked.congr fun y hy => ?_
      have := hp.sep y hy
      exact ⟨makeTaken_frame hz (by omega) (by omega), makeTaken_frame hz (by omega) (by omega)⟩
    before := hL
    after := hp.after
    gap := hle
    exactly := by
      have := hp.exactly
      rw [startsOf_append, startsOf_append, startsOf_cons, if_neg Bool.false_ne_true]
      simpa [startsOf_append] using this }

theorem Pending.makeAvail (hp : Pending h L R fl s e) (h4 : 4 ≤ e - s) :
    Pending (h.makeAvail s (e - s)) (L ++ [⟨s, e - s, true⟩]) R (s :: fl) e e := by
  have hz : 0 ≤ e - s := by omega
  have hsep : ∀ y ∈ fl, y + 4 ≤ s ∨ s + (e - s) ≤ y := fun y hy => by
    have := hp.sep y hy
    omega
  obtain ⟨hf, hb, ht⟩ := hp.tagging (makeAvail_len h s (e - s)) fun k hk hl =>
    makeAvail_frame hz hp.toAvailList (by omega) (by omega) (by omega) (by omega)
      fun y hy => (hl y hy).2
  have ha := makeAvail_availList h4 hp.toAvailList (hp.nodes.spread hp.toTagging hp.nodup) hsep
    (hp.nodes.pos hp.toTagging)
  have hL : Tiles 2 e (L ++ [⟨s, e - s, true⟩]) :=
    tiles_middle.mpr ⟨hp.before, h4, by simp only [Block.stop, Tiles]; omega⟩
  have hR : Tiles e ((h.makeAvail s (e - s)).len - 2) R := by
    rw [makeAvail_len]
    exact hp.after
  exact {
    front := hf
    back := hb
    layout := layout_gap hL hR le_rfl
    tagged := by
      intro b hb
      rw [List.append_assoc, List.mem_append, List.singleton_append, List.mem_cons] at hb
      rcases hb with hb | rfl | hb
      · exact ht b (List.mem_append_left _ hb)
      · exact makeAvail_tagged h4 hp.toAvailList hsep
      · exact ht b (List.mem_append_right _ hb)
    head := ha.head
    linked := ha.linked
    before := hL
    after := hR
    gap := le_rfl
    exactly := by
      rw [startsOf_append, startsOf_append, startsOf_cons, if_pos rfl, startsOf_nil,
        List.append_assoc, List.singleton_append]
      apply (hp.exactly.cons s).trans
      rw [startsOf_append]
      exact List.perm_middle.symm }

theorem Pending.untouched_remove (hp : Pending h L R fl s e) {x : ℤ} (hx : x ∈ fl) {c : Block}
    (hc : c ∈ L ++ R) (hcf : c.free = false) : Untouched h (h.remove x) c := fun k hk hk' =>
  (remove_spec hp.toTagging hp.toAvailList hp.nodes hp.nodup hx).2.2 k
    (hp.nodes.ne_link hp.toTagging hc hcf hk hk')

theorem Pending.untouched_makeTaken (hp : Pending h L R fl s e) {ints : ℤ} (h4 : 4 ≤ ints)
    (hle : s + ints ≤ e) {c : Block} (hc : c ∈ L ++ R) : Untouched h (h.makeTaken s ints) c := by
  intro k hk hk'
  have := hp.outside hc
  exact makeTaken_frame (by omega) (by omega) (by omega)

theorem Pending.untouched_makeAvail (hp : Pending h L R fl s e) (h4 : 4 ≤ e - s) {c : Block}
    (hc : c ∈ L ++ R) (hcf : c.free = false) : Untouched h (h.makeAvail s (e - s)) c := by
  intro k hk hk'
  have := hp.outside hc
  exact makeAvail_frame (by omega) hp.toAvailList (by omega) (by omega) (by omega) (by omega)
    fun y hy => (hp.nodes.ne_link hp.toTagging hc hcf hk hk' y hy).2

end
end MMapKernel.Heap
