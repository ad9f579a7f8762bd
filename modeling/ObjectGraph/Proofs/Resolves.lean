import ObjectGraph.Proofs.ReadBack

/-! Whether a handle leads to a value after a write through it. It does, unless a nil interface was
written in the place of the content of an interface: a nil interface has no content, and the handle
leads to nothing any more. -/
namespace ObjectGraph

variable {g g' : Graph} {p : Location} {h : Handle} {e : Entry} {c : CellId} {path : Path}
  {v : Value} {s : Session}

namespace Value

theorem kind_ne_invalid : v.kind ≠ .invalid := by
  cases v <;> exact Kind.noConfusion

/-- Once in an interface, every value but the nil interface is its content. -/
theorem exists_part_box : (∃ w, v.box.part .unbox = .ok w) ↔ v ≠ .nilAny := by
  cases v <;> simp [box, part]

end Value

/-- After a write a location has a value, but for a nil interface written over a content. -/
theorem Location.Anchored.exists_read (ha : p.Anchored g) (hs : p.store g v = .ok g') :
    (∃ w, p.read g' = .ok w) ↔ (v = .nilAny → p.path.getLast? ≠ some .unbox) := by
  by_cases hu : p.path.getLast? = some .unbox
  · rw [ha.read_content hs hu, Value.exists_part_box]
    exact ⟨fun hv he => absurd he hv, fun hv he => hv he hu⟩
  · obtain ⟨w, hw, _⟩ := ha.read_slot hs hu
    exact ⟨fun _ _ => hu, fun _ => ⟨w, hw⟩⟩

namespace Handle

/-- The handle leads to a value: there is one, it has a kind and a type, and it can be got. -/
structure Resolves (g : Graph) (h : Handle) : Prop where
  valid : h.isValid g = true
  kind : h.kind g ≠ .invalid
  ty : ∃ t, h.ty g = .ok t
  get : ∃ v, h.get g = .ok v

/-- A handle that reads a value gets it as well. -/
theorem get_of_read (hr : h.read g = .ok (some v)) : h.get g = .ok v.unbox := by
  cases h with
  | direct p =>
    obtain ⟨w, hw, he⟩ := map_eq_ok.1 hr
    cases he
    simp only [Handle.get, hw, ok_map]
  | entry e =>
    have hr : e.read g = .ok (some v) := hr
    simp only [Handle.get, hr, ok_bind]
    rfl

theorem resolves_of_read (hr : h.read g = .ok (some v)) (hk : h.kind g = v.kind)
    (ht : h.ty g = .ok v.ty) : h.Resolves g := by
  refine ⟨?_, hk ▸ Value.kind_ne_invalid, ⟨v.ty, ht⟩, ⟨v.unbox, get_of_read hr⟩⟩
  simp only [isValid, hr, Option.isSome_some]

theorem resolves_direct : (direct p).Resolves g ↔ ∃ v, p.read g = .ok v := by
  constructor
  · intro hr
    obtain ⟨t, ht⟩ := hr.ty
    obtain ⟨v, hv, _⟩ := map_eq_ok.1 ht
    exact ⟨v, hv⟩
  · rintro ⟨v, hv⟩
    apply resolves_of_read (v := v)
    · simp only [Handle.read, hv, ok_map]
    · simp only [Handle.kind, Location.kind, hv]
    · simp only [Handle.ty, hv, ok_map]

/-- Past a pointer an entry leads to a value when the target has one. -/
theorem resolves_target (hc : g.cached? e.cache = some (.target c path)) :
    (entry e).Resolves g ↔ ∃ v, (Location.cell c path).read g = .ok v := by
  constructor
  · intro hr
    obtain ⟨t, ht⟩ := hr.ty
    simp only [Handle.ty, Entry.ty, hc] at ht
    obtain ⟨v, hv, _⟩ := map_eq_ok.1 ht
    exact ⟨v, hv⟩
  · rintro ⟨v, hv⟩
    have hl : g.load c path = .ok v := hv
    apply resolves_of_read (v := v)
    · rw [Handle.read, Entry.read_of_target hc, hv, ok_map]
    · simp only [Handle.kind, Entry.kind, hc, Location.kind, hv]
    · simp only [Handle.ty, Entry.ty, hc, hl, ok_map]

theorem resolves_copy (hc : g.cached? e.cache = some (.copy v)) : (entry e).Resolves g := by
  apply resolves_of_read (v := v)
  · exact Entry.read_of_copy hc
  · simp only [Handle.kind, Entry.kind, hc]
  · simp only [Handle.ty, Entry.ty, hc]

end Handle

/-- After a write a handle leads to a value, whatever it is a handle on and whatever was written.
Only after a nil interface has been written over the content of an interface it leads to nothing. -/
theorem resolves_of_set (hs : s.Unchecked) (hh : h ∈ s.handles) (hw : h.set s.graph v = .ok g) :
    h.Resolves g ↔ (v = .nilAny → (h.location s.graph).path.getLast? ≠ some .unbox) := by
  have ha := hs.anchored h hh
  cases h with
  | direct p => exact Handle.resolves_direct.trans (Location.Anchored.exists_read ha hw)
  | entry e =>
    rcases Graph.storeEntry_cases hw with ⟨c, path, ht, hst⟩ | ⟨hn, stored, g₀, _, _, rfl⟩
    · rw [Handle.resolves_target (Handle.target_set hw ht), Handle.location,
        Entry.location_of_target ht]
      exact Location.Anchored.exists_read trivial hst
    · have hpath : ((Handle.entry e).location s.graph).path = [] := by
        rw [Handle.location, Entry.location_of_not_targets hn]
        rfl
      simp [hpath, Handle.resolves_copy Graph.cached?_setCache_self]

/-- What the interface in a cell holds. -/
def lodger : Handle := .direct (.cell ⟨0⟩ [.unbox])

/-- A cell with an integer in an interface, and a handle on the integer. -/
def lodged : Session where
  graph := (Graph.empty.alloc (.boxed (.int 1))).1
  handles := [lodger, .root ⟨0⟩]

theorem reachable_lodged : lodged.Reachable Built := by
  have h₁ := Session.Reachable.start.step (.alloc (Built.int (i := 1)).box)
  have h₂ := h₁.step (.root (c := ⟨0⟩) rfl)
  exact h₂.step (.move (m := .elem) (.head _) rfl)

/-- An interface with a boolean is written over the integer, and the handle leads to the boolean. -/
theorem resolves_of_set_lodger : ∃ g, lodged.Unchecked ∧ lodger ∈ lodged.handles ∧
    lodger.set lodged.graph (.boxed (.bool true)) = .ok g ∧ lodger.Resolves g ∧
    lodger.value? g = some (.bool true) := by
  have hs := reachable_lodged.unchecked
  obtain ⟨g, hg, hv⟩ : ∃ g, lodger.set lodged.graph (.boxed (.bool true)) = .ok g ∧
    lodger.value? g = some (.bool true) := ⟨_, rfl, rfl⟩
  have hr := (resolves_of_set hs (.head _) hg).2 (fun h => by cases h)
  exact ⟨g, hs, .head _, hg, hr, hv⟩

/-- A nil interface is written over the integer. The write succeeds, and the handle has no value, no
kind and no type, and gives nothing. -/
theorem not_resolves_lodger : ∃ g x, lodged.Reachable Built ∧ lodger ∈ lodged.handles ∧
    Built lodged.graph .nilAny ∧ lodger.set lodged.graph .nilAny = .ok g ∧
    lodger.isValid g = false ∧ lodger.kind g = .invalid ∧ lodger.ty g = .error x ∧
    lodger.get g = .error x :=
  ⟨_, _, reachable_lodged, .head _, .zero (t := .any), rfl, rfl, rfl, rfl, rfl⟩

end ObjectGraph
