import ObjectGraph.Proofs.Slots

/-! A write is read back: out of its interface, the value at a location is the one last written
there, whether it lies in a cell, in a copy that a cache has, or past a pointer. -/
namespace ObjectGraph

namespace Value

variable {v w : Value} {s : Step} {path : Path} {t : Ty}

theorem unbox_box : v.box.unbox = v.unbox := by
  cases v <;> rfl

/-- What a slot keeps of a value is the value itself, once it is out of its interface. -/
theorem unbox_of_assignTo (h : v.assignTo t = .ok w) : w.unbox = v.unbox := by
  rcases assignTo_cases h with ⟨rfl, _⟩ | ⟨rfl, _⟩
  · rfl
  · exact unbox_box

theorem resolve_concat : v.resolve (path ++ [s]) = v.resolve path >>= part s := by
  induction path generalizing v with
  | nil => cases h : v.part s <;> simp [resolve, h]
  | cons s' path ih =>
    simp only [List.cons_append, resolve]
    cases v.part s' with
    | error e => rfl
    | ok u => exact ih

end Value

namespace Location

variable {g g' : Graph} {p : Location} {s : Step} {path : Path} {v : Value}

/-- One step further the part of the value is read. -/
theorem read_concat :
    (p.withPath (path ++ [s])).read g = (p.withPath path).read g >>= Value.part s := by
  cases p with
  | cell c r =>
    simp only [withPath, read, Graph.load, Value.resolve_concat, bind_assoc]
  | entry host key elem cache r =>
    simp only [withPath, read, bind_assoc]
    congr 1
    funext current
    cases current with
    | none => rfl
    | some whole => exact Value.resolve_concat

theorem withPath_path : p.withPath p.path = p := by
  cases p <;> rfl

/-- The content of an interface is no slot of its own. What is written in its place is read out of
the interface that is left there. -/
theorem Anchored.read_content (ha : p.Anchored g) (hs : p.store g v = .ok g')
    (hu : p.path.getLast? = some .unbox) : p.read g' = v.box.part .unbox := by
  obtain ⟨old, new, _, hw, hn⟩ := ha.store hs
  have hnew : new = v.box := by simpa [Value.overwrite, hu, eq_comm] using hw
  obtain ⟨path, hp⟩ := List.getLast?_eq_some_iff.1 hu
  have hslot : p.path.slot = path := by simp [Path.slot, hp]
  rw [← withPath_path (p := p), hp, read_concat, ← hslot, hn, hnew]
  rfl

/-- Any other slot is read as it was written. -/
theorem Anchored.read_slot (ha : p.Anchored g) (hs : p.store g v = .ok g')
    (hu : p.path.getLast? ≠ some .unbox) : ∃ w, p.read g' = .ok w ∧ w.unbox = v.unbox := by
  obtain ⟨old, new, _, hw, hn⟩ := ha.store hs
  have hslot : p.path.slot = p.path := by simp [Path.slot, hu]
  rw [hslot, withPath_path] at hn
  refine ⟨new, hn, Value.unbox_of_assignTo (t := old.ty) ?_⟩
  simpa [Value.overwrite, hu] using hw

/-- An interface that is written in the place of the content of another is not there afterwards. Any
other value that is written is read. -/
theorem Anchored.read_store (ha : p.Anchored g) (hs : p.store g v = .ok g')
    (hv : v.ty = .any → p.path.getLast? ≠ some .unbox) :
    ∃ w, p.read g' = .ok w ∧ w.unbox = v.unbox := by
  by_cases hu : p.path.getLast? = some .unbox
  · have hb : v.box = .boxed v := Value.box_of_ty_ne fun ht => hv ht hu
    refine ⟨v, ?_, rfl⟩
    rw [ha.read_content hs hu, hb]
    rfl
  · exact ha.read_slot hs hu

end Location

/-- After a write a handle reads what was written, out of its interface, and so does each copy of
the handle, which is the same handle. Nothing is said of an interface in the place of the content
of another one. -/
theorem get_of_set {s : Session} {h : Handle} {v : Value} {g : Graph} (hs : s.Unchecked)
    (hh : h ∈ s.handles) (hv : v.ty = .any → (h.location s.graph).path.getLast? ≠ some .unbox)
    (hw : h.set s.graph v = .ok g) : h.get g = .ok v.unbox := by
  have ha := hs.anchored h hh
  cases h with
  | direct p =>
    obtain ⟨w, hr, hu⟩ := Location.Anchored.read_store ha hw hv
    rw [Handle.get, hr, ok_map, hu]
  | entry e =>
    rcases Graph.storeEntry_cases hw with ⟨c, path, ht, hst⟩ | ⟨_, stored, g₀, _, _, rfl⟩
    · have hl : e.location s.graph = .cell c path := by simp only [Entry.location, ht]
      have hv : v.ty = .any → path.getLast? ≠ some .unbox := by
        intro hty
        have hv := hv hty
        rw [Handle.location, hl] at hv
        exact hv
      obtain ⟨w, hr, hu⟩ := Location.Anchored.read_store (p := .cell c path) trivial hst hv
      have ht' := Handle.target_set hw ht
      have hload : g.load c path = .ok w := hr
      simp only [Handle.get, Entry.read, Graph.current, ht', hload, ok_map, ok_bind]
      exact congrArg Except.ok hu
    · have hc : (g₀.setCache e.cache (.copy v)).cached? e.cache = some (.copy v) :=
        Graph.cached?_setCache_self
      simp only [Handle.get, Entry.read, Graph.current, hc, ok_bind]
      rfl

/-- A struct with an interface. -/
def gauge : Layout := ⟨"Gauge", [("unit", .string), ("level", .any)]⟩

/-- The interface in a struct that a map has. -/
def level : Location := .entry (.cell ⟨0⟩ []) (.string "inlet") gauge.ty ⟨0⟩ [.field 1]

def gauges : Session where
  graph := {
    cells := #[.map .string gauge.ty
      [(.string "inlet", .struct gauge [.string "bar", .boxed (.int 3)])]]
    caches := []
    nextCache := 1
    holds := [] }
  handles := [.direct level, .entry ⟨.cell ⟨0⟩ [], .string "inlet", gauge.ty, ⟨0⟩⟩, .root ⟨0⟩]

theorem unchecked_gauges : gauges.Unchecked := by
  have h₁ := Session.Unchecked.start.step (.alloc (v := .map .string gauge.ty
    [(.string "inlet", .struct gauge [.string "bar", .boxed (.int 3)])]) trivial)
  have h₂ := h₁.step (.root (c := ⟨0⟩) rfl)
  have h₃ := h₂.step (.move (m := .entry (.string "inlet")) (.head _) rfl)
  exact h₃.step (.move (m := .field "level") (.head _) rfl)

/-- A float that is not a number is read back with its bits. -/
theorem get_of_set_level : gauges.Unchecked ∧ ∃ g,
    (Handle.direct level).set gauges.graph (.float ⟨0x7ff8000000000001⟩) = .ok g ∧
    (Handle.direct level).get g = .ok (.float ⟨0x7ff8000000000001⟩) := by
  obtain ⟨g, hg⟩ : ∃ g, (Handle.direct level).set gauges.graph
    (.float ⟨0x7ff8000000000001⟩) = .ok g := ⟨_, rfl⟩
  exact ⟨unchecked_gauges, g, hg, get_of_set unchecked_gauges (.head _) (fun h => by cases h) hg⟩

end ObjectGraph
