import MMapKernel.Vmm.FaultRace

/-!
# Runs of undisturbed page faults

The list of the entries linked so far is the list in memory. What a handler knows of it, the
part it has walked over, stays true while others link at the end.
-/

open Transition LinkedList
namespace MMapKernel.Vmm.FaultRace

variable {P : ℕ}

def Passed (s : State P) (f : ℕ) (prev : Option ℕ) : Prop :=
  ∃ l₁ l₂, s.linked = l₁ ++ l₂ ∧ prev = l₁.getLast? ∧ ∀ m ∈ l₁, (s.nodes m).file ≠ f

def Handler.Knows (s : State P) : Handler → Prop
  | .idle => True
  | .looking f prev cur => Passed s f prev ∧ (cur = none ∨ slot s.next s.nodeList prev = cur)
  | .missed f prev | .allocated f prev _ => Passed s f prev
  | .created prev n =>
    Passed s (s.nodes n).file prev ∧ n ∉ s.linked ∧ n < s.made ∧ s.next n = none
  | .filling n | .found n => n ∈ s.linked
  | .filled n => n ∈ s.linked ∧ s.isFilled (s.nodes n).pa

structure Inv (s : State P) : Prop where
  chain : Chain s.next s.nodeList s.linked
  nodup : s.linked.Nodup
  old : ∀ n ∈ s.linked, n < s.made
  files : ∀ m ∈ s.linked, ∀ n ∈ s.linked, (s.nodes m).file = (s.nodes n).file → m = n
  knows : ∀ p, (s.handler p).Knows s
  own : ∀ p r prev prev' n, s.handler p = .created prev n → s.handler r = .created prev' n → p = r
  fill : ∀ n ∈ s.linked, s.isFilled (s.nodes n).pa ∨ ∃ p, s.handler p = .filling n
  mapped : ∀ p pa, (p, pa) ∈ s.mapped → s.isFilled pa

theorem Inv.sound {s : State P} (h : Inv s) : Sound s where
  kept _ hn := h.chain.onList_iff.mpr hn
  unique m n hm hn hf := h.files m (h.chain.onList_iff.mp hm) n (h.chain.onList_iff.mp hn) hf
  filled := h.mapped

section
variable {s : State P} {prev : Option ℕ} {m n : ℕ}

theorem link_file (s : State P) (prev : Option ℕ) (n m : ℕ) :
    ((s.link prev n).nodes m).file = (s.nodes m).file := by
  cases prev with
  | none => rfl
  | some k =>
    by_cases hk : m = k
    · subst hk
      simp [State.link]
    · simp [State.link, hk]

theorem link_pa (s : State P) (prev : Option ℕ) (n m : ℕ) :
    ((s.link prev n).nodes m).pa = (s.nodes m).pa := by
  cases prev with
  | none => rfl
  | some k =>
    by_cases hk : m = k
    · subst hk
      simp [State.link]
    · simp [State.link, hk]

theorem link_next_of_ne (hm : prev ≠ some m) : (s.link prev n).next m = s.next m := by
  cases prev with
  | none => rfl
  | some k =>
    have hk : m ≠ k := fun hmk => hm (congrArg some hmk.symm)
    simp [State.next, State.link, hk]

theorem link_next_some : (s.link (some m) n).next = Function.update s.next m (some n) := by
  funext k
  by_cases hk : k = m
  · subst hk
    simp [State.next, State.link]
  · simp [State.next, State.link, hk]

theorem link_slot {prev' : Option ℕ} {c : ℕ} (hs : slot s.next s.nodeList prev = none)
    (hc : slot s.next s.nodeList prev' = some c) :
    slot (s.link prev n).next (s.link prev n).nodeList prev' = some c := by
  have hne : prev ≠ prev' := by
    rintro rfl
    rw [hs] at hc
    cases hc
  cases prev' with
  | none =>
    cases prev with
    | none => exact absurd rfl hne
    | some m => exact hc
  | some k => exact (link_next_of_ne hne).trans hc

end

structure Grows (s t : State P) (l : List ℕ) : Prop where
  linked : t.linked = s.linked ++ l
  file : ∀ m < s.made, (t.nodes m).file = (s.nodes m).file
  pa : ∀ m < s.made, (t.nodes m).pa = (s.nodes m).pa
  made : s.made ≤ t.made
  filled : ∀ pa, s.isFilled pa → t.isFilled pa
  slot : ∀ prev c, (∀ m, prev = some m → m ∈ s.linked) → slot s.next s.nodeList prev = some c →
    slot t.next t.nodeList prev = some c

variable {s t : State P} {p : Fin P} {h' : Handler} {l : List ℕ}

theorem Passed.grow {f : ℕ} {prev : Option ℕ} (hp : Passed s f prev)
    (hold : ∀ n ∈ s.linked, n < s.made) (hg : Grows s t l) : Passed t f prev := by
  obtain ⟨l₁, l₂, hl, hprev, hf⟩ := hp
  refine ⟨l₁, l₂ ++ l, ?_, hprev, fun m hm => ?_⟩
  · rw [hg.linked, hl, List.append_assoc]
  · have hml : m ∈ s.linked := by
      rw [hl]
      exact List.mem_append_left l₂ hm
    rw [hg.file m (hold m hml)]
    exact hf m hm

theorem Passed.prev_linked {f m : ℕ} {prev : Option ℕ} (hp : Passed s f prev) (hm : prev = some m) :
    m ∈ s.linked := by
  obtain ⟨l₁, l₂, hl, hprev, -⟩ := hp
  rw [hl]
  apply List.mem_append_left
  apply List.mem_of_getLast?
  rw [← hprev, hm]

theorem Handler.Knows.grow {h : Handler} (hk : h.Knows s) (hold : ∀ n ∈ s.linked, n < s.made)
    (hg : Grows s t l)
    (hc : ∀ prev n, h = .created prev n → n ∉ l ∧ t.next n = none) : h.Knows t := by
  have hmem : ∀ n ∈ s.linked, n ∈ t.linked := by
    intro n hn
    rw [hg.linked]
    exact List.mem_append_left l hn
  cases h with
  | idle => trivial
  | looking f prev cur =>
    refine ⟨hk.1.grow hold hg, ?_⟩
    cases cur with
    | none => exact Or.inl rfl
    | some n =>
      have hs := hk.2.resolve_left (by simp)
      exact Or.inr (hg.slot prev n (fun m hm => hk.1.prev_linked hm) hs)
  | missed f prev => exact Passed.grow hk hold hg
  | allocated f prev pa => exact Passed.grow hk hold hg
  | created prev n =>
    obtain ⟨hp, hn, hlt, -⟩ := hk
    obtain ⟨hnl, hnext⟩ := hc prev n rfl
    refine ⟨?_, ?_, hlt.trans_le hg.made, hnext⟩
    · rw [hg.file n hlt]
      exact hp.grow hold hg
    · rw [hg.linked, List.mem_append, not_or]
      exact ⟨hn, hnl⟩
  | filling n => exact hmem n hk
  | filled n =>
    refine ⟨hmem n hk.1, ?_⟩
    rw [hg.pa n (hold n hk.1)]
    exact hg.filled _ hk.2
  | found n => exact hmem n hk

namespace Inv

theorem known {h₀ : Handler} (h : Inv s) (hp : s.handler p = h₀) : h₀.Knows s := by
  rw [← hp]
  exact h.knows p

theorem knows_update (h : Inv s) (hg : Grows s t l) (hh : t.handler = Function.update s.handler p h')
    (hk : h'.Knows t)
    (hc : ∀ r, r ≠ p → ∀ prev n, s.handler r = .created prev n → n ∉ l ∧ t.next n = none)
    (r : Fin P) : (t.handler r).Knows t := by
  rw [hh]
  by_cases hr : r = p
  · subst hr
    rw [Function.update_self]
    exact hk
  · rw [Function.update_of_ne hr]
    exact (h.knows r).grow h.old hg (hc r hr)

theorem own_update (h : Inv s) (hh : t.handler = Function.update s.handler p h')
    (hn : ∀ prev n, h' = .created prev n → ∀ r prev', s.handler r ≠ .created prev' n) :
    ∀ q r prev prev' n, t.handler q = .created prev n → t.handler r = .created prev' n → q = r := by
  intro q r prev prev' n hq hr
  rw [hh] at hq hr
  by_cases hqp : q = p
  · by_cases hrp : r = p
    · rw [hqp, hrp]
    · rw [hqp, Function.update_self] at hq
      rw [Function.update_of_ne hrp] at hr
      exact absurd hr (hn prev n hq r prev')
  · rw [Function.update_of_ne hqp] at hq
    by_cases hrp : r = p
    · rw [hrp, Function.update_self] at hr
      exact absurd hq (hn prev' n hr q prev)
    · rw [Function.update_of_ne hrp] at hr
      exact h.own q r prev prev' n hq hr

theorem fill_update (h : Inv s) (hg : Grows s t l)
    (hh : t.handler = Function.update s.handler p h')
    (hp : ∀ n, s.handler p = .filling n → t.isFilled (t.nodes n).pa) :
    ∀ n ∈ s.linked, t.isFilled (t.nodes n).pa ∨ ∃ r, t.handler r = .filling n := by
  intro n hn
  rcases h.fill n hn with hf | ⟨r, hr⟩
  · left
    rw [hg.pa n (h.old n hn)]
    exact hg.filled _ hf
  · by_cases hrp : r = p
    · rw [hrp] at hr
      exact Or.inl (hp n hr)
    · right
      refine ⟨r, ?_⟩
      rw [hh, Function.update_of_ne hrp]
      exact hr

theorem stay (h : Inv s) (ht : t.nodes = s.nodes ∧ t.made = s.made ∧ t.nodeList = s.nodeList ∧
      t.isFilled = s.isFilled ∧ t.linked = s.linked)
    (hh : t.handler = Function.update s.handler p h') (hk : h'.Knows s)
    (hf : ∀ n, s.handler p ≠ .filling n) (hc : ∀ prev n, h' ≠ .created prev n)
    (hmap : ∀ q pa, (q, pa) ∈ t.mapped → s.isFilled pa) : Inv t := by
  obtain ⟨hn, hm, hl, hi, hlink⟩ := ht
  have hnext : t.next = s.next := by
    funext n
    rw [State.next, hn]
    rfl
  have hg : Grows s t [] := by
    refine ⟨by simp [hlink], by simp [hn], by simp [hn], hm.ge, by simp [hi], ?_⟩
    rw [hnext, hl]
    exact fun prev c _ hs => hs
  refine ⟨?_, ?_, ?_, ?_, ?_, ?_, ?_, ?_⟩
  · rw [hnext, hl, hlink]
    exact h.chain
  · rw [hlink]
    exact h.nodup
  · rw [hlink, hm]
    exact h.old
  · rw [hlink, hn]
    exact h.files
  · refine h.knows_update hg hh (hk.grow h.old hg fun prev n hpn => absurd hpn (hc prev n)) ?_
    intro r _ prev n hr
    rw [hnext]
    exact ⟨List.not_mem_nil, (h.known hr).2.2.2⟩
  · exact h.own_update hh fun prev n hpn => absurd hpn (hc prev n)
  · rw [hlink]
    exact h.fill_update hg hh fun n hpn => absurd hpn (hf n)
  · rw [hi]
    exact hmap

theorem ahead {f n : ℕ} {prev : Option ℕ} (h : Inv s)
    (hp : s.handler p = .looking f prev (some n)) :
    ∃ l₁ l₂, s.linked = l₁ ++ n :: l₂ ∧ ∀ m ∈ l₁, (s.nodes m).file ≠ f := by
  obtain ⟨⟨l₁, l₂, hl, hprev, hf⟩, hcur⟩ := h.known hp
  have hslot := hcur.resolve_left (by simp)
  have hchain := h.chain
  rw [hl] at hchain
  rw [hprev, hchain.slot_eq] at hslot
  obtain ⟨l₃, rfl⟩ := List.head?_eq_some_iff.mp hslot
  exact ⟨l₁, l₃, hl, hf⟩

theorem look {f n : ℕ} {prev : Option ℕ} (h : Inv s)
    (hp : s.handler p = .looking f prev (some n)) (hne : f ≠ (s.nodes n).file) :
    Inv (s.enter p (.looking f (some n) (s.next n))) := by
  obtain ⟨l₁, l₂, hl, hf⟩ := h.ahead hp
  refine h.stay ⟨rfl, rfl, rfl, rfl, rfl⟩ rfl ⟨⟨l₁ ++ [n], l₂, ?_, ?_, ?_⟩, Or.inr rfl⟩ ?_ (by simp)
    h.mapped
  · rw [hl, List.append_cons]
  · simp
  · intro m hm
    rcases List.mem_append.mp hm with hm | hm
    · exact hf m hm
    · rw [List.mem_singleton.mp hm]
      exact Ne.symm hne
  · simp [hp]

theorem find {f n : ℕ} {prev : Option ℕ} (h : Inv s)
    (hp : s.handler p = .looking f prev (some n)) : Inv (s.enter p (.found n)) := by
  obtain ⟨l₁, l₂, hl, -⟩ := h.ahead hp
  have hn : n ∈ s.linked := by simp [hl]
  exact h.stay ⟨rfl, rfl, rfl, rfl, rfl⟩ rfl hn (by simp [hp]) (by simp) h.mapped

theorem create {f pa : ℕ} {prev : Option ℕ} (h : Inv s)
    (hp : s.handler p = .allocated f prev pa) :
    Inv ((s.create f pa).enter p (.created prev s.made)) := by
  have hk := h.known hp
  have hnode : ∀ m < s.made, ((s.create f pa).nodes m) = s.nodes m := by
    intro m hm
    simp [State.create, hm.ne]
  have hnext : ∀ m < s.made, (s.create f pa).next m = s.next m := by
    intro m hm
    rw [State.next, hnode m hm]
    rfl
  have hg : Grows s ((s.create f pa).enter p (.created prev s.made)) [] := by
    refine ⟨(List.append_nil _).symm, fun m hm => ?_, fun m hm => ?_, Nat.le_succ _, fun _ hf => hf,
      fun prev' c hlink hs => ?_⟩
    · exact congrArg NodeEntry.file (hnode m hm)
    · exact congrArg NodeEntry.pa (hnode m hm)
    · cases prev' with
      | none => exact hs
      | some m => exact (hnext m (h.old m (hlink m rfl))).trans hs
  have hmade : s.made ∉ s.linked := fun hm => (h.old _ hm).false
  refine ⟨?_, h.nodup, fun n hn => (h.old n hn).trans (Nat.lt_succ_self _), ?_, ?_, ?_, ?_, h.mapped⟩
  · exact h.chain.congr fun a ha => hnext a (h.old a ha)
  · intro m hm n hn hf
    apply h.files m hm n hn
    rw [← hnode m (h.old m hm), ← hnode n (h.old n hn)]
    exact hf
  · refine h.knows_update hg rfl ⟨?_, hmade, Nat.lt_succ_self _, ?_⟩ fun r _ prev' n hr => ?_
    · have hfile : (((s.create f pa).enter p (.created prev s.made)).nodes s.made).file = f := by
        simp [State.enter, State.create]
      rw [hfile]
      exact Passed.grow hk h.old hg
    · simp [State.next, State.enter, State.create]
    · have hkr := h.known hr
      exact ⟨List.not_mem_nil, (hnext n hkr.2.2.1).trans hkr.2.2.2⟩
  · refine h.own_update rfl fun prev' n hn r prev'' hr => ?_
    cases hn
    exact (h.known hr).2.2.1.false
  · exact h.fill_update hg rfl fun n hn => by simp [hp] at hn

theorem fills {n : ℕ} (h : Inv s) (hp : s.handler p = .filling n) :
    Inv ((s.fill (s.nodes n).pa).enter p (.filled n)) := by
  have hmono : ∀ pa, s.isFilled pa → (s.fill (s.nodes n).pa).isFilled pa := by
    intro pa hf
    by_cases hpa : pa = (s.nodes n).pa
    · simp [State.fill, hpa]
    · simpa [State.fill, hpa] using hf
  have hself : (s.fill (s.nodes n).pa).isFilled (s.nodes n).pa := by simp [State.fill]
  have hg : Grows s ((s.fill (s.nodes n).pa).enter p (.filled n)) [] :=
    ⟨(List.append_nil _).symm, fun _ _ => rfl, fun _ _ => rfl, le_rfl, hmono, fun _ _ _ hs => hs⟩
  refine ⟨h.chain, h.nodup, h.old, h.files, ?_, ?_, ?_, fun q pa hq => hmono pa (h.mapped q pa hq)⟩
  · refine h.knows_update hg rfl ⟨h.known hp, hself⟩ fun r _ prev' m hr => ?_
    exact ⟨List.not_mem_nil, (h.known hr).2.2.2⟩
  · exact h.own_update rfl fun prev' m hm => by cases hm
  · refine h.fill_update hg rfl fun m hm => ?_
    rw [hp] at hm
    cases hm
    exact hself

theorem map {n : ℕ} (h : Inv s) (hp : ∀ m, s.handler p ≠ .filling m)
    (hn : s.isFilled (s.nodes n).pa) : Inv ((s.userMap p (s.nodes n).pa).enter p .idle) := by
  refine h.stay ⟨rfl, rfl, rfl, rfl, rfl⟩ rfl trivial hp (by simp) fun q pa hq => ?_
  rcases List.mem_cons.mp hq with hq | hq
  · cases hq
    exact hn
  · exact h.mapped q pa hq

theorem all_passed {f : ℕ} {prev : Option ℕ} (h : Inv s) (hp : Passed s f prev)
    (hs : slot s.next s.nodeList prev = none) :
    prev = s.linked.getLast? ∧ ∀ m ∈ s.linked, (s.nodes m).file ≠ f := by
  obtain ⟨l₁, l₂, hl, hprev, hf⟩ := hp
  have hchain := h.chain
  rw [hl] at hchain
  rw [hprev, hchain.slot_eq, List.head?_eq_none_iff] at hs
  rw [hs, List.append_nil] at hl
  rw [hl]
  exact ⟨hprev, hf⟩

theorem link {n : ℕ} {prev : Option ℕ} (h : Inv s) (hp : s.handler p = .created prev n)
    (hs : slot s.next s.nodeList prev = none) : Inv ((s.link prev n).enter p (.filling n)) := by
  obtain ⟨hpassed, hn, hlt, hnull⟩ := h.known hp
  obtain ⟨hprev, hfiles⟩ := h.all_passed hpassed hs
  have hnext : ∀ m, m ∉ s.linked → (s.link prev n).next m = s.next m := by
    intro m hm
    apply link_next_of_ne
    intro hpm
    exact hm (hpassed.prev_linked hpm)
  have hg : Grows s ((s.link prev n).enter p (.filling n)) [n] :=
    ⟨rfl, fun m _ => link_file s prev n m, fun m _ => link_pa s prev n m, le_rfl, fun _ hf => hf,
      fun _ _ _ hc => link_slot hs hc⟩
  refine ⟨?_, ?_, ?_, ?_, ?_, ?_, ?_, h.mapped⟩
  · cases prev with
    | none =>
      have hnil : s.linked = [] := List.getLast?_eq_none_iff.mp hprev.symm
      change Chain _ _ (s.linked ++ [n])
      rw [hnil]
      exact ⟨rfl, hnull⟩
    | some m =>
      have hc := h.chain.snoc h.nodup hn hnull hprev.symm
      rw [← link_next_some] at hc
      exact hc
  · exact List.nodup_append.mpr ⟨h.nodup, List.nodup_singleton n, by
      rintro a ha b hb rfl
      exact hn (List.mem_singleton.mp hb ▸ ha)⟩
  · intro m hm
    rcases List.mem_append.mp hm with hm | hm
    · exact h.old m hm
    · rw [List.mem_singleton.mp hm]
      exact hlt
  · intro a ha b hb hab
    have hab' : (s.nodes a).file = (s.nodes b).file := by
      rw [← link_file s prev n a, ← link_file s prev n b]
      exact hab
    rcases List.mem_append.mp ha with ha | ha
    · rcases List.mem_append.mp hb with hb | hb
      · exact h.files a ha b hb hab'
      · rw [List.mem_singleton.mp hb] at hab'
        exact absurd hab' (hfiles a ha)
    · rcases List.mem_append.mp hb with hb | hb
      · rw [List.mem_singleton.mp ha] at hab'
        exact absurd hab'.symm (hfiles b hb)
      · rw [List.mem_singleton.mp ha, List.mem_singleton.mp hb]
  · refine h.knows_update hg rfl ?_ fun r hr prev' m hm => ?_
    · exact List.mem_append_right _ (List.mem_singleton_self n)
    · have hkr := h.known hm
      refine ⟨fun hmn => ?_, (hnext m hkr.2.1).trans hkr.2.2.2⟩
      rw [List.mem_singleton.mp hmn] at hm
      exact hr (h.own r p prev' prev n hm hp)
  · exact h.own_update rfl fun prev' m hm => by cases hm
  · intro m hm
    rcases List.mem_append.mp hm with hm | hm
    · exact h.fill_update hg rfl (fun k hk => by simp [hp] at hk) m hm
    · right
      refine ⟨p, ?_⟩
      rw [List.mem_singleton.mp hm]
      exact Function.update_self ..

theorem run {t : State P} (h : Inv s) (hg : Undisturbed s (.run p)) (ht : run s p = some t) :
    Inv t := by
  obtain ⟨hlink, hfound⟩ := hg p rfl
  unfold FaultRace.run at ht
  split at ht
  case h_1 f prev hp =>
    cases ht
    exact h.stay ⟨rfl, rfl, rfl, rfl, rfl⟩ rfl (h.known hp).1 (by simp [hp]) (by simp) h.mapped
  case h_2 f prev n hp =>
    split at ht
    case isTrue hf =>
      cases ht
      exact h.find hp
    case isFalse hf =>
      cases ht
      exact h.look hp hf
  case h_3 f prev pa hp =>
    cases ht
    exact h.create hp
  case h_4 prev n hp =>
    cases ht
    exact h.link hp (hlink prev n hp)
  case h_5 n hp =>
    cases ht
    exact h.fills hp
  case h_6 n hp =>
    cases ht
    exact h.map (by simp [hp]) (h.known hp).2
  case h_7 n hp =>
    cases ht
    apply h.map
    · simp [hp]
    · rcases h.fill n (h.known hp) with hf | ⟨r, hr⟩
      · exact hf
      · exact absurd hr (hfound n hp r)
  case h_8 => cases ht

theorem step {a : Act P} (h : Inv s) (hg : Undisturbed s a) (ht : step s a = some t) : Inv t := by
  cases a with
  | fault p f =>
    simp only [FaultRace.step, Option.ite_none_right_eq_some, Option.some.injEq] at ht
    rw [← ht.2]
    refine h.stay ⟨rfl, rfl, rfl, rfl, rfl⟩ rfl ⟨?_, Or.inr rfl⟩ (by simp [ht.1]) (by simp) h.mapped
    exact ⟨[], s.linked, rfl, rfl, by simp⟩
  | alloc p pa =>
    simp only [FaultRace.step] at ht
    split at ht
    case h_1 f prev hp =>
      split at ht
      case isTrue => cases ht
      case isFalse =>
        cases ht
        have hk : Passed s f prev := h.known hp
        exact h.stay ⟨rfl, rfl, rfl, rfl, rfl⟩ rfl hk (by simp [hp]) (by simp) h.mapped
    case h_2 => cases ht
  | run p => exact h.run hg ht

theorem quiet (hq : Quiet s) : Inv s := by
  refine ⟨?_, ?_, ?_, ?_, fun p => ?_, fun p r prev prev' n hp => ?_, ?_, fun p pa hp => ?_⟩
  · rw [hq.linked]
    exact hq.nodeList
  · simp [hq.linked]
  · simp [hq.linked]
  · simp [hq.linked]
  · rw [hq.handler]
    trivial
  · rw [hq.handler] at hp
    cases hp
  · simp [hq.linked]
  · simp [hq.mapped] at hp

end Inv

theorem inv_inductive : ((faults (P := P)).restrict Undisturbed).Inductive Inv where
  init _ hq := .quiet hq
  step _ _ _ h hst := h.step hst.1 hst.2

/-- In every run of undisturbed steps no linked entry is lost, no file gets two entries, and no
frame is mapped before it is filled. -/
theorem undisturbed_faults_sound (hs : Reachable (faults.restrict Undisturbed) s) : Sound s :=
  (hs.invariant inv_inductive).sound

def start (P : ℕ) : State P where
  nodes _ := ⟨0, 0, none⟩
  made := 0
  nodeList := none
  frames := []
  isFilled _ := false
  mapped := []
  handler _ := .idle
  linked := []

theorem start_quiet : Quiet (start P) := ⟨rfl, rfl, rfl, fun _ => rfl⟩

def undisturbed (s : State P) : Act P → Bool
  | .run p =>
    match s.handler p with
    | .created prev _ => (slot s.next s.nodeList prev).isNone
    | .found n => decide (∀ r, s.handler r ≠ .filling n)
    | _ => true
  | _ => true

theorem undisturbed_sound (s : State P) (a : Act P) (h : undisturbed s a) : Undisturbed s a := by
  rintro p rfl
  refine ⟨fun prev n hp => ?_, fun n hp => ?_⟩
  · simpa [undisturbed, hp] using h
  · simpa [undisturbed, hp] using h

def oneAfterTheOther : List (Act 2) :=
  [.fault 0 7, .run 0, .alloc 0 64, .run 0, .run 0, .run 0, .run 0, .fault 1 7, .run 1, .run 1]

theorem second_fault_sound : ∃ s : State 2, Reachable (faults.restrict Undisturbed) s ∧
    s.linked = [0] ∧ s.mapped = [(1, 64), (0, 64)] ∧ Sound s := by
  have hrun : (Transition.run step undisturbed (start 2) oneAfterTheOther).map
      (fun s => (s.linked, s.mapped)) = some ([0], [(1, 64), (0, 64)]) := by decide
  obtain ⟨s, hs, hvals⟩ := Option.map_eq_some_iff.mp hrun
  obtain ⟨hl, hm⟩ := Prod.mk.inj hvals
  have hr : Reachable (faults.restrict Undisturbed) s := by
    refine run_reachable ?_ (.start start_quiet) hs
    intro s a t ha hst
    exact ⟨undisturbed_sound s a ha, hst⟩
  exact ⟨s, hr, hl, hm, undisturbed_faults_sound hr⟩

def bothMiss : List (Act 2) :=
  [.fault 0 7, .fault 1 7, .run 0, .run 1, .alloc 0 64, .alloc 1 65, .run 0, .run 1, .run 0, .run 1]

theorem concurrent_faults_lose_entry : ¬∀ s : State 2, Reachable faults s → Sound s := by
  intro hall
  have hrun : (Transition.run step (fun _ _ => true) (start 2) bothMiss).map
      (fun s => (s.linked, s.nodeList, s.next 1)) = some ([0, 1], some 1, none) := by decide
  obtain ⟨s, hs, hvals⟩ := Option.map_eq_some_iff.mp hrun
  obtain ⟨hl, hvals⟩ := Prod.mk.inj hvals
  obtain ⟨hhead, hnext⟩ := Prod.mk.inj hvals
  have hr : Reachable faults s :=
    run_reachable (S := faults) (fun _ _ _ _ hst => hst) (.start start_quiet) hs
  have hchain : Chain s.next s.nodeList [1] := ⟨hhead, hnext⟩
  have hkept : s.OnList 0 := (hall s hr).kept 0 (by rw [hl]; decide)
  have hmem := hchain.onList_iff.mp hkept
  cases List.mem_singleton.mp hmem

end MMapKernel.Vmm.FaultRace
