import ObjectGraph.Proofs.Synced

/-! Caches and the entries that they were given out with. All handles that go through a cache go
through the same entry. -/
namespace ObjectGraph

variable {g g' : Graph} {p : Location} {h h' : Handle} {e d : Entry} {m : Move} {s t : Session}
  {Given : Graph → Value → Prop}

namespace Location

/-- The entries that the location is below. -/
def entries : Location → List Entry
  | cell _ _ => []
  | entry host key elem cache _ => ⟨host, key, elem, cache⟩ :: host.entries

theorem cache_mem_of_mem_entries (he : e ∈ p.entries) : e.cache ∈ p.caches := by
  induction p with
  | cell => cases he
  | entry host key elem cache path ih =>
    rcases List.mem_cons.1 he with rfl | he
    · exact .head _
    · exact .tail _ (ih he)

/-- No entry is on the way to the cell that the location is not below. -/
theorem mem_entries_of_mem_chain (he : e ∈ p.chain g) : e ∈ p.entries := by
  induction p with
  | cell => cases he
  | entry host key elem cache path ih =>
    rcases mem_chain_entry he with rfl | ⟨_, he⟩
    · exact .head _
    · exact .tail _ (ih he)

theorem entries_step {s : Step} : (p.step s).entries = p.entries := by
  cases p <;> rfl

end Location

namespace Handle

/-- The entries that a handle goes through, or went through to find a pointer. -/
def entries : Handle → List Entry
  | direct p => p.entries
  | entry e => e :: e.host.entries

theorem mem_entries_of_mem_chain (he : e ∈ h.chain g) : e ∈ h.entries := by
  cases h with
  | direct p => exact Location.mem_entries_of_mem_chain he
  | entry d =>
    exact Location.mem_entries_of_mem_chain (p := .entry d.host d.key d.elem d.cache []) he

theorem mem_entries_of_mem_location (he : e ∈ (h.location g).entries) : e ∈ h.entries := by
  cases h with
  | direct p => exact he
  | entry d =>
    simp only [Handle.location, Entry.location] at he
    split at he
    · cases he
    · exact he

theorem Anchored.cache_lt (ha : h.Anchored g) (he : e ∈ h.entries) :
    e.cache.index < g.nextCache := by
  cases h with
  | direct p => exact Location.Anchored.lt ha (Location.cache_mem_of_mem_entries he)
  | entry d =>
    obtain ⟨hh, hc, _⟩ := ha
    rcases List.mem_cons.1 he with rfl | he
    · exact hc
    · exact hh.lt (Location.cache_mem_of_mem_entries he)

/-- A move meets no new entry but the one that it gives, and that one has a new cache. -/
theorem entries_move (hm : h.move g m = .ok (g', h')) :
    ∀ e ∈ h'.entries, e ∈ h.entries ∨ e.cache = g.newCache.2 ∧ h' = .entry e := by
  intro e he
  rcases move_cases hm with ⟨_, c, rfl⟩ | ⟨_, s, rfl⟩ | ⟨_, key, elem, rfl, -⟩ |
    ⟨d, k, rfl, -, -, rfl⟩
  · cases he
  · rw [entries, Location.entries_step] at he
    exact Or.inl (mem_entries_of_mem_location he)
  · rcases List.mem_cons.1 he with rfl | he
    · exact Or.inr ⟨rfl, rfl⟩
    · exact Or.inl (mem_entries_of_mem_location he)
  · rcases List.mem_cons.1 he with rfl | he
    · exact Or.inr ⟨rfl, rfl⟩
    · exact Or.inl (.tail _ he)

end Handle

namespace Session

/-- The entries that handles have met. -/
def entries (s : Session) : List Entry := s.handles.flatMap Handle.entries

theorem mem_entries : e ∈ s.entries ↔ ∃ h ∈ s.handles, e ∈ h.entries := List.mem_flatMap

/-- Each cache is for one entry. -/
def Owned (s : Session) : Prop := ∀ e ∈ s.entries, ∀ d ∈ s.entries, e.cache = d.cache → e = d

theorem owned_move (ho : s.Owned) (ha : ∀ h ∈ s.handles, h.Anchored s.graph) (hh : h ∈ s.handles)
    (hm : h.move s.graph m = .ok (g, h')) : Owned ⟨g, h' :: s.handles⟩ := by
  have hcases : ∀ e ∈ (⟨g, h' :: s.handles⟩ : Session).entries,
      e ∈ s.entries ∨ e.cache = s.graph.newCache.2 ∧ h' = .entry e := by
    intro e he
    obtain ⟨k, hk, hek⟩ := mem_entries.1 he
    rcases List.mem_cons.1 hk with rfl | hk
    · rcases Handle.entries_move hm e hek with heh | hnew
      · exact Or.inl (mem_entries.2 ⟨h, hh, heh⟩)
      · exact Or.inr hnew
    · exact Or.inl (mem_entries.2 ⟨k, hk, hek⟩)
  have hnew : ∀ e ∈ s.entries, e.cache ≠ s.graph.newCache.2 := by
    intro e he hc
    obtain ⟨k, hk, he⟩ := mem_entries.1 he
    have hlt := (ha k hk).cache_lt he
    rw [hc] at hlt
    exact Nat.lt_irrefl _ hlt
  intro e he d hd hc
  rcases hcases e he with he | ⟨hce, he⟩
  · rcases hcases d hd with hd | ⟨hcd, _⟩
    · exact ho e he d hd hc
    · exact absurd (hc.trans hcd) (hnew e he)
  · rcases hcases d hd with hd | ⟨_, hd⟩
    · exact absurd (hc.symm.trans hce) (hnew d hd)
    · exact Handle.entry.inj (he.symm.trans hd)

theorem Step.owned (ht : Step Given s t) (ho : s.Owned)
    (ha : ∀ h ∈ s.handles, h.Anchored s.graph) : t.Owned := by
  cases ht with
  | move hh hm => exact owned_move ho ha hh hm
  | _ => exact ho

/-- In all that callers can do, each cache stays with its entry. -/
theorem Unchecked.owned (hs : s.Unchecked) : s.Owned := by
  induction hs with
  | start => simp [Owned, entries]
  | step hs ht ih => exact ht.owned ih hs.anchored
  | put _ ih => exact ih

end Session

end ObjectGraph
