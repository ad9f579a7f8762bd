import ObjectGraph.Proofs.Slots

/-! Properties of all values in a graph, in each cell and in each copy that a cache has. Whatever is
read has them as well. -/
namespace ObjectGraph

variable {P : Value → Prop} {v : Value} {key : Key} {path : Path} {g : Graph} {c : CellId}
  {cache : CacheId} {p : Location} {e : Entry}

namespace Graph

/-- In all cells, and in all copies that caches have, `P` holds of every value at every depth. -/
structure Throughout (P : Value → Prop) (g : Graph) : Prop where
  cells : ∀ ⦃c v⦄, g.content? c = some v → Value.Every P v
  copies : ∀ ⦃i v⦄, g.cached? i = some (.copy v) → Value.Every P v

theorem Throughout.load (hg : g.Throughout P) (h : g.load c path = .ok v) : Value.Every P v := by
  obtain ⟨w, hw, hv⟩ := bind_eq_ok.1 h
  exact (hg.cells (content?_of_readable (mapError_eq_ok.1 hw))).resolve hv

theorem Throughout.current {map : Except Fault Value} (hg : g.Throughout P)
    (hmap : ∀ m, map = .ok m → Value.Every P m) (h : g.current cache key map = .ok (some v)) :
    Value.Every P v := by
  unfold Graph.current at h
  split at h
  · rename_i w hw
    cases h
    exact hg.copies hw
  · obtain ⟨w, hw, he⟩ := map_eq_ok.1 h
    cases he
    exact hg.load hw
  · obtain ⟨m, hm, h⟩ := bind_eq_ok.1 h
    exact (hmap m hm).lookup h

end Graph

theorem Location.every_read (hg : g.Throughout P) (h : p.read g = .ok v) : Value.Every P v := by
  induction p generalizing v with
  | cell => exact hg.load h
  | entry host key elem cache path ih =>
    obtain ⟨current, hc, hv⟩ := bind_eq_ok.1 h
    cases current with
    | none => cases hv
    | some whole => exact (hg.current (fun _ hm => ih hm) hc).resolve hv

theorem Entry.every_read (hg : g.Throughout P) (h : e.read g = .ok (some v)) : Value.Every P v :=
  hg.current (fun _ hm => Location.every_read hg hm) h

end ObjectGraph
