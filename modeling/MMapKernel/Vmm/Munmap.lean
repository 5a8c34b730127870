import MMapKernel.Vmm.SharingRuns

/-!
# Which pages `munmap` removes

`munmap` looks at the address only: it takes out the entry that holds it and unmaps all pages of that
entry, whatever the length. The request is met exactly if the call comes back and these pages are the
ones asked for; in a list whose entries are aligned and apart, if the length rounds up to the size of
the mapping.
-/

open Transition
namespace MMapKernel.Vmm

/-- What the call follows is there: `node_list` is not null where the last page goes, and the `node` of
the entry points to a `NodeEntry`. -/
def Returns (cfg : Config) (k : Kernel) (p : Process) (s : UInt32) : Prop :=
  isSpecial cfg s = false → ∀ e rest, takeEntry s p.entryList = some (e, rest) →
    ∃ n x, e.node.value = .entry n ∧ k.nodes[n]? = some x ∧
      (e.isShared = false ∨ x.numProcesses - 1 = 0 → k.nodeList ≠ [])

def taken (cfg : Config) (p : Process) (s : UInt32) : List Page × List VMEntry :=
  if isSpecial cfg s then ([], p.entryList)
  else match takeEntry s p.entryList with
    | none => ([], p.entryList)
    | some (e, rest) => (e.pages.map pageOf, rest)

section Effect
variable {cfg : Config} {k k' : Kernel} {pid : ℕ} {p p' : Process} {s len : UInt32} {e : VMEntry}
  {front back rest : List VMEntry}

structure Leaves (cfg : Config) (p : Process) (s : UInt32) (p' : Process) : Prop where
  live : p'.status = .live
  entries : p'.entryList = (taken cfg p s).2
  lookup : ∀ g, p'.pd.lookup g = if g ∈ (taken cfg p s).1 then none else p.pd.lookup g

theorem Paged.takeEntry {es : List VMEntry} {va : UInt32} (h : Paged es) (he : e ∈ es)
    (hin : e.holds va = true) :
    ∃ front back, es = front ++ e :: back ∧ takeEntry va es = some (e, front ++ back) := by
  obtain ⟨before, after, rfl⟩ := List.append_of_mem he
  cases htake : Vmm.takeEntry va (before ++ e :: after) with
  | none =>
    -- the search passes over nothing that holds the address
    exfalso
    clear h he
    induction before with
    | nil => simp [Vmm.takeEntry, hin] at htake
    | cons c before ih =>
      rw [List.cons_append, Vmm.takeEntry] at htake
      split at htake
      · cases htake
      · exact ih (Option.map_eq_none_iff.mp htake)
  | some r =>
    obtain ⟨a, rest⟩ := r
    obtain ⟨front, back, hes, rfl, hina, -⟩ := takeEntry_spec htake
    have hae : e = a := by
      by_contra hne
      have hmem : e ∈ front ++ back := by
        rw [hes] at he
        simp only [List.mem_append, List.mem_cons] at he ⊢
        tauto
      rw [hes] at h
      rw [h.holds_unique hina e hmem] at hin
      cases hin
    subst hae
    exact ⟨front, back, hes, rfl⟩

end Effect

end MMapKernel.Vmm
