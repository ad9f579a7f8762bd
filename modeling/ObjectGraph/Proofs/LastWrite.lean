import ObjectGraph.Proofs.ReadBack
import ObjectGraph.Proofs.Updates

/-! The last write wins. The first of two writes through a handle may fill caches, replace the parts
of the old value, or put an interface where there was none. The second one still comes to what it
would have come to without it. -/
namespace ObjectGraph

variable {g g' : Graph} {p : Location} {h : Handle} {v w old new : Value} {path : Path}

/-- What is written to a slot does not depend on what was written there before: an interface takes
any value, and any other slot has kept its type. -/
theorem Value.overwrite_overwrite (h : v.overwrite path old = .ok new) :
    w.overwrite path new = w.overwrite path old := by
  unfold overwrite at h ⊢
  split at h
  · simp only [*, if_true]
  · rw [ty_of_assignTo h]

theorem Location.Anchored.store_store (ha : p.Anchored g) (h : p.store g v = .ok g') :
    p.store g' w = p.store g w :=
  (anchored_withPath.2 ha).update_update h fun _ _ _ => Value.overwrite_overwrite

namespace Handle

/-- A write after another one through the same handle comes to what it would have come to alone. -/
theorem Anchored.set_again (ha : h.Anchored g) (hv : h.set g v = .ok g') :
    h.set g' w = h.set g w := by
  cases h with
  | direct p => exact Location.Anchored.store_store ha hv
  | entry e =>
    obtain ⟨hhost, _, hlt⟩ := ha
    rcases Graph.storeEntry_cases hv with ⟨c, path, ht, hs⟩ | ⟨hn, stored, g₀, _, hu, rfl⟩
    · rw [set_of_target ht, set_of_target (target_set hv ht)]
      exact Location.Anchored.store_store trivial hs
    · apply Location.storeEntry_storeEntry (Location.not_mem_caches hlt) hn
      exact fun m => hhost.update_update hu fun _ _ _ => Value.insert_insert

end Handle

/-- After a write through a handle any other write through it succeeds or fails as it would have
done before, with the same fault, and it leaves the same cells and caches. To write one value twice
is to write it once. -/
theorem set_set {s : Session} (hs : s.Unchecked) (hh : h ∈ s.handles)
    (hv : h.set s.graph v = .ok g) :
    (∀ w, h.set g w = h.set s.graph w) ∧ h.set g v = .ok g := by
  have ha := hs.anchored h hh
  refine ⟨fun w => ha.set_again hv, ?_⟩
  rw [ha.set_again hv, hv]

/-- The entry that has the struct with the interface. -/
def inlet : Entry := ⟨.cell ⟨0⟩ [], .string "inlet", gauge.ty, ⟨0⟩⟩

/-- The first write caches the entry. A second one of another struct leaves what it leaves where the
cache is empty, and one of an integer is refused in both. -/
theorem set_set_inlet : gauges.Unchecked ∧ gauges.graph.cached? inlet.cache = none ∧ ∃ g g',
    (Handle.entry inlet).set gauges.graph (.struct gauge [.string "psi", .nilAny]) = .ok g ∧
    (Handle.entry inlet).set g (.struct gauge [.string "kPa", .boxed (.int 7)]) = .ok g' ∧
    (Handle.entry inlet).set gauges.graph (.struct gauge [.string "kPa", .boxed (.int 7)]) =
      .ok g' ∧
    (Handle.entry inlet).set g (.int 7) = .error (.notAssignable .int gauge.ty) := by
  have hm : Handle.entry inlet ∈ gauges.handles := by simp [gauges, inlet]
  obtain ⟨g, hg⟩ : ∃ g, (Handle.entry inlet).set gauges.graph
    (.struct gauge [.string "psi", .nilAny]) = .ok g := ⟨_, rfl⟩
  obtain ⟨g', hg'⟩ : ∃ g', (Handle.entry inlet).set gauges.graph
    (.struct gauge [.string "kPa", .boxed (.int 7)]) = .ok g' := ⟨_, rfl⟩
  obtain ⟨hagain, _⟩ := set_set unchecked_gauges hm hg
  exact ⟨unchecked_gauges, rfl, g, g', hg, (hagain _).trans hg', hg', hagain (.int 7)⟩

end ObjectGraph
