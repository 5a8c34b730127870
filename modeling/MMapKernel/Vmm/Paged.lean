import MMapKernel.Vmm.Placement
import MMapKernel.Vmm.Pages

/-!
# Entry lists on page boundaries

The code rounds lengths but not addresses. When the hints are page-aligned all entries
are, and the addresses the unmap loop visits are then the pages the entry holds.
-/

namespace MMapKernel.Vmm

structure VMEntry.Aligned (e : VMEntry) : Prop where
  start : e.startingAddress.toNat % 4096 = 0
  size : e.size.toNat % 4096 = 0

theorem framedown_toNat (va : UInt32) : (framedown va).toNat = va.toNat / 4096 * 4096 := by
  have := va.toNat_lt
  rw [framedown, UInt32.toNat_mul, UInt32.toNat_div, show (4096 : UInt32).toNat = 4096 from rfl]
  omega

theorem addressOf_pageOf_eq (va : UInt32) : addressOf (pageOf va) = framedown va := by
  apply UInt32.toNat_inj.mp
  rw [addressOf_toNat, framedown_toNat]
  simp only [pageOf]
  omega

theorem pageOf_framedown (va : UInt32) : pageOf (framedown va) = pageOf va := by
  rw [← addressOf_pageOf_eq, pageOf_addressOf]

theorem pageOf_eq_iff {va : UInt32} {g : Page} (h : va.toNat % 4096 = 0) :
    pageOf va = g ↔ va = addressOf g :=
  ⟨fun hg => by rw [← hg, addressOf_pageOf h], fun hva => by rw [hva, pageOf_addressOf]⟩

theorem addressOf_aligned (g : Page) : (addressOf g).toNat % 4096 = 0 := by
  rw [addressOf_toNat]
  omega

theorem frameup_aligned (len : UInt32) : (frameup len).toNat % 4096 = 0 := by
  rw [frameup, framedown_toNat]
  omega

namespace VMEntry

theorem holds_iff {e : VMEntry} {va : UInt32} :
    e.holds va = true ↔ e.startingAddress.toNat ≤ va.toNat ∧ va.toNat < e.stop.toNat := by
  simp only [holds, ge_iff_le, Bool.and_eq_true, decide_eq_true_eq, UInt32.le_iff_toNat_le,
    UInt32.lt_iff_toNat_lt]

theorem stop_le_finish (e : VMEntry) : e.stop.toNat ≤ e.finish := by
  rw [stop, UInt32.toNat_add]
  exact Nat.mod_le _ _

theorem Aligned.stop {e : VMEntry} (h : e.Aligned) : e.stop.toNat % 4096 = 0 := by
  have h₁ := h.start
  have h₂ := h.size
  rw [VMEntry.stop, UInt32.toNat_add]
  omega

theorem Aligned.mem_pages {e : VMEntry} (h : e.Aligned) (g : Page) :
    g ∈ e.pages.map pageOf ↔ e.holds (addressOf g) = true := by
  have h₁ := h.start
  have h₂ := h.stop
  have hlt := e.stop.toNat_lt
  have hg := addressOf_aligned g
  rw [holds_iff, pages, List.map_map]
  simp only [List.mem_map, List.mem_range, Function.comp_apply]
  -- the i-th address does not wrap
  have hva : ∀ i, i < (e.stop.toNat - e.startingAddress.toNat) / 4096 →
      (e.startingAddress + UInt32.ofNat (i * 4096)).toNat = e.startingAddress.toNat + i * 4096 := by
    intro i hi
    rw [UInt32.toNat_add, UInt32.toNat_ofNat']
    omega
  constructor
  · rintro ⟨i, hi, heq⟩
    have ha : (e.startingAddress + UInt32.ofNat (i * 4096)).toNat % 4096 = 0 := by
      rw [hva i hi]
      omega
    rw [pageOf_eq_iff ha] at heq
    rw [← heq, hva i hi]
    omega
  · rintro ⟨hlo, hhi⟩
    have hi : ((addressOf g).toNat - e.startingAddress.toNat) / 4096 <
        (e.stop.toNat - e.startingAddress.toNat) / 4096 := by omega
    refine ⟨_, hi, ?_⟩
    rw [pageOf_eq_iff (by rw [hva _ hi]; omega)]
    apply UInt32.toNat_inj.mp
    rw [hva _ hi]
    omega

end VMEntry

structure Paged (es : List VMEntry) : Prop extends Tidy es where
  aligned : ∀ e ∈ es, e.Aligned

namespace Paged
variable {es front back : List VMEntry} {e : VMEntry} {va : UInt32}

theorem nil : Paged [] := ⟨⟨List.Pairwise.nil, by simp⟩, by simp⟩

theorem sublist {es' : List VMEntry} (h : Paged es) (hs : es'.Sublist es) : Paged es' :=
  ⟨⟨h.ordered.sublist hs, fun e he => h.positive e (hs.subset he)⟩,
    fun e he => h.aligned e (hs.subset he)⟩

theorem holds_unique (h : Paged (front ++ e :: back)) (he : e.holds va = true) :
    ∀ a ∈ front ++ back, a.holds va = false := by
  obtain ⟨-, hr, hcross⟩ := List.pairwise_append.mp h.ordered
  have hback := (List.pairwise_cons.mp hr).1
  have hin := VMEntry.holds_iff.mp he
  have hstop := e.stop_le_finish
  intro a ha
  by_contra hne
  have hina := VMEntry.holds_iff.mp (Bool.not_eq_false _ ▸ hne : a.holds va = true)
  have hstopa := a.stop_le_finish
  rcases List.mem_append.mp ha with ha | ha
  · have := hcross a ha e List.mem_cons_self
    omega
  · have := hback a ha
    omega

theorem exchange {e' : VMEntry} (h : Paged (front ++ e :: back))
    (hstart : e'.startingAddress = e.startingAddress) (hsize : e'.size = e.size) :
    Paged (front ++ e' :: back) := by
  obtain ⟨hf, hr, hcross⟩ := List.pairwise_append.mp h.ordered
  obtain ⟨hback, hb⟩ := List.pairwise_cons.mp hr
  have hfinish : e'.finish = e.finish := by rw [VMEntry.finish, hstart, hsize]; rfl
  have hmem : ∀ a ∈ front ++ e' :: back, a = e' ∨ a ∈ front ++ e :: back := by
    intro a ha
    simp only [List.mem_append, List.mem_cons] at ha ⊢
    tauto
  have he : e ∈ front ++ e :: back := by simp
  refine ⟨⟨?_, fun a ha => ?_⟩, fun a ha => ?_⟩
  · refine List.pairwise_append.mpr ⟨hf, List.pairwise_cons.mpr ⟨fun b hb => ?_, hb⟩,
      fun a ha b hb => ?_⟩
    · rw [hfinish]
      exact hback b hb
    · rcases List.mem_cons.mp hb with rfl | hb
      · rw [hstart]
        exact hcross a ha e List.mem_cons_self
      · exact hcross a ha b (List.mem_cons_of_mem _ hb)
  · rcases hmem a ha with rfl | ha
    · rw [hstart]
      exact h.positive e he
    · exact h.positive a ha
  · rcases hmem a ha with rfl | ha
    · exact ⟨hstart ▸ (h.aligned e he).start, hsize ▸ (h.aligned e he).size⟩
    · exact h.aligned a ha

end Paged

theorem search_aligned {size : UInt32} (front : List VMEntry) (prev : VMEntry) (rest : List VMEntry)
    (va : UInt32) (h : ∀ e ∈ prev :: rest, e.Aligned) (hva : va.toNat % 4096 = 0) :
    (search size front prev rest va).1.toNat % 4096 = 0 := by
  induction rest generalizing front prev va with
  | nil => exact hva
  | cons temp rest ih =>
    have htail : ∀ e ∈ temp :: rest, e.Aligned := fun e he => h e (List.mem_cons_of_mem _ he)
    have hstop := (h prev List.mem_cons_self).stop
    unfold search
    split
    · exact ih _ _ _ htail hva
    · split
      · exact hva
      · dsimp only
        split
        · exact hstop
        · exact ih _ _ _ htail hstop

theorem place_aligned {es : List VMEntry} {size va : UInt32} (h : ∀ e ∈ es, e.Aligned)
    (hva : va.toNat % 4096 = 0) : (place es size va).1.toNat % 4096 = 0 := by
  cases es with
  | nil => exact hva
  | cons prev rest => exact search_aligned [] prev rest va h hva

theorem mmap_paged {cfg : Config} {es es' : List VMEntry} {a : MmapArgs} {va : UInt32}
    (hp : Paged es) (hc : Accommodated cfg es (.mmap a)) (ha : a.hint.toNat % 4096 = 0)
    (h : mmap cfg es a = .mapped va es') :
    Paged es' ∧ ∃ front back file, es = front ++ back ∧ es' = front ++ a.newEntry file va :: back := by
  obtain ⟨front, back, file, rfl, rfl, hfront, hback⟩ := mmap_accommodated hp.toTidy hc h
  have hpos := mmap_va_pos hp.toTidy h
  have hva : va.toNat % 4096 = 0 := by
    rw [(mmap_mapped h).2.1]
    exact place_aligned hp.aligned ha
  refine ⟨⟨⟨hp.ordered.insert hfront hback, fun e he => ?_⟩, fun e he => ?_⟩,
    front, back, file, rfl, rfl⟩
  · rcases List.mem_append.mp he with he | he
    · exact hp.positive e (List.mem_append_left _ he)
    · rcases List.mem_cons.mp he with rfl | he
      · exact hpos
      · exact hp.positive e (List.mem_append_right _ he)
  · rcases List.mem_append.mp he with he | he
    · exact hp.aligned e (List.mem_append_left _ he)
    · rcases List.mem_cons.mp he with rfl | he
      · exact ⟨hva, frameup_aligned _⟩
      · exact hp.aligned e (List.mem_append_right _ he)

theorem replaceEntry_spec {va : UInt32} {e : VMEntry} (e' : VMEntry) {es : List VMEntry}
    (h : es.find? (fun e => e.holds va) = some e) :
    ∃ front back, es = front ++ e :: back ∧ replaceEntry va e' es = front ++ e' :: back ∧
      e.holds va = true := by
  induction es with
  | nil => cases h
  | cons c es ih =>
    by_cases hc : c.holds va = true
    · simp only [List.find?_cons, hc, Option.some.injEq] at h
      subst h
      exact ⟨[], es, rfl, by simp [replaceEntry, hc], hc⟩
    · simp only [List.find?_cons, hc] at h
      obtain ⟨front, back, rfl, hr, he⟩ := ih h
      exact ⟨c :: front, back, rfl, by simp [replaceEntry, hc, hr], he⟩

end MMapKernel.Vmm
