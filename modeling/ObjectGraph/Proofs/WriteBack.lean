import ObjectGraph.Proofs.InPlace
import ObjectGraph.Proofs.MapOrder

/-! What was read is written back. A handle that was just walked to may read a slot, the content of
an interface, a copy or the target of a pointer. A write of the value read puts the same boxes back
around it, level by level, and so leaves every cell as it was. A map takes the value in the place of
its key, as its entries are in order. -/
namespace ObjectGraph

namespace Value

variable {v old : Value} {hop : Hop} {r : Route} {t : Ty} {types : CellId → Option Ty}

theorem setPart_of_part? (hs : old.Sorted) (h : old.part? hop = some v) :
    setPart v hop old = some old := by
  cases hop with
  | field i =>
    cases old with
    | struct layout fields =>
      obtain ⟨hi, rfl⟩ := List.getElem?_eq_some_iff.1 h
      simp [setPart, hi]
    | _ => cases h
  | index i =>
    cases old with
    | slice elem items =>
      obtain ⟨hi, rfl⟩ := List.getElem?_eq_some_iff.1 h
      simp [setPart, hi]
    | _ => cases h
  | key k =>
    cases old with
    | map key elem entries => exact congrArg (some ∘ map key elem) (Assoc.insert_of_get? hs h)
    | _ => cases h
  | content =>
    cases old with
    | boxed w =>
      cases h
      rfl
    | _ => cases h

/-- A part put where it is leaves the whole as it is. -/
theorem put_of_at? (ho : old.Ordered) (h : at? r old = some v) : put v r old = some old := by
  induction r generalizing old with
  | nil => exact h.symm
  | cons hop r ih =>
    obtain ⟨u, hu, hv⟩ := Option.bind_eq_some_iff.1 h
    rw [put_cons hu, ih (ho.part hu) hv, Option.bind_some, setPart_of_part? ho.here hu]

theorem heldAs_ty : v.heldAs v.ty = v := by
  by_cases h : v.ty = .any
  · simp [heldAs, h, box_of_ty h]
  · simp [heldAs, h]

/-- The slot around a value takes the value, and what it keeps of it is what it has. -/
theorem slot_of_at? (ht : old.Typed types) (hb : old.BoxedOnce) (h : at? r old = some v) :
    ∃ t, slotTy? r.slot old = some t ∧ (v.ty = t ∨ t = .any) ∧
      at? r.slot old = some (v.heldAs t) := by
  by_cases hr : r.getLast? = some .content
  · obtain ⟨q, rfl⟩ := List.getLast?_eq_some_iff.1 hr
    have hq : Route.slot (q ++ [.content]) = q := by simp [Route.slot]
    obtain ⟨x, hx, hxv⟩ := Option.bind_eq_some_iff.1 (at?_append.symm.trans h)
    obtain rfl : x = boxed v := by cases x <;> simp_all [at?, part?]
    have hv : v.ty ≠ .any := (hb.at? hx).here
    rw [hq]
    exact ⟨.any, slotTy?_of_at? ht hx, Or.inr rfl, by simpa [heldAs, box_of_ty_ne hv] using hx⟩
  · have hq : r.slot = r := by simp [Route.slot, hr]
    rw [hq]
    exact ⟨v.ty, slotTy?_of_at? ht h, Or.inl rfl, heldAs_ty.symm ▸ h⟩

end Value

namespace Handle

variable {g g₁ : Graph} {h : Handle} {P : Place} {v v₀ : Value} {c₀ : CellId} {ms : List Move}

/-- A handle has the value at the place that it stands for. -/
theorem Stands.value?_eq (hs : h.Stands g P) (hf : g.isHeld P.cell = false) :
    h.value? g = P.value? g := by
  cases hs with
  | direct hl hv => simp only [Handle.value?, Handle.read, hl.read hf hv, ok_map, hv]
  | @target e c path v hc hv =>
    have hl : (Location.cell c path).read g = .ok v := Graph.load_of_value? hf hv
    simp only [Handle.value?, Handle.read, Entry.read_of_target hc, hl, ok_map, hv]
  | inMap hl => simp only [Handle.value?, Handle.read, hl.read_entry hf]

/-- A walk from a root ends in a handle that stands for the place where the walk ends. -/
theorem stands_of_walk (hty : g.WellTyped) (hbox : g.BoxedOnce) (hfree : g.holds = [])
    (hfresh : g.Fresh) (hc₀ : g.content? c₀ = some v₀)
    (hw : (root c₀).walk g ms = .ok (g₁, h)) :
    ∃ P, Place.walk g ⟨c₀, []⟩ ms = some P ∧ g.Grown g₁ ∧ h.Stands g₁ P := by
  have hcells : ∀ c t, g.cellTy? c = some t → ∃ w, g.content? c = some w := by
    intro c t h
    obtain ⟨w, hw, _⟩ := Option.map_eq_some_iff.1 h
    exact ⟨w, hw⟩
  have hagree := (stands_root hc₀).walk (fun c _ => Graph.tidy_cellTy? hty hbox hfree c) hfresh
    hcells ms
  rcases hagree.cases with ⟨e, he, _⟩ | ⟨g', h', P, hok, hP, hgr, _, hs⟩
  · cases he.symm.trans hw
  · cases hok.symm.trans hw
    exact ⟨P, hP, hgr, hs⟩

end Handle

/-- Whatever value a handle has at the end of a walk from a root, it can be written back, and then
each cell has what it had. -/
theorem set_value_of_walk {g g₁ : Graph} {c₀ : CellId} {v₀ v : Value} {ms : List Move} {h : Handle}
    (hty : g.WellTyped) (hbox : g.BoxedOnce) (hord : g.Ordered) (hfree : g.holds = [])
    (hfresh : g.Fresh) (hc₀ : g.content? c₀ = some v₀)
    (hw : (Handle.root c₀).walk g ms = .ok (g₁, h)) (hv : h.value? g₁ = some v) :
    ∃ g₂, h.set g₁ v = .ok g₂ ∧ g₂.cells = g.cells := by
  obtain ⟨P, _, hgr, hs⟩ := Handle.stands_of_walk hty hbox hfree hfresh hc₀ hw
  have htidy := Graph.tidy_cellTy? hty hbox hfree P.cell
  have htidy₁ := htidy.grown hgr
  rw [hs.value?_eq htidy₁.free, Place.value?_congr hgr.cells] at hv
  obtain ⟨old, ho, hold⟩ := Option.bind_eq_some_iff.1 hv
  have ho₁ : g₁.content? P.cell = some old := (Graph.content?_congr hgr.cells).trans ho
  obtain ⟨t, ht, hvt, hslot⟩ := Value.slot_of_at? (htidy.typed ho) (htidy.boxedOnce ho) hold
  obtain ⟨new, cs, hf, hset⟩ := (hs.writesAt htidy₁).1 t ((Place.slotTy?_slot ho₁).trans ht) hvt
  rw [Place.filled_slot ho₁, Value.put_of_at? (hord ho) hslot] at hf
  cases hf
  refine ⟨_, hset, ?_⟩
  rw [Graph.put_of_content? ho₁]
  exact hgr.cells

/-- The walk ends at a copy of a slice, in an entry of a map in an interface past a pointer. Written
back, the slice is put into its interface, the map into its own, and both cells are as they were. -/
theorem set_value_of_walk_shelf : ∃ g₁ h g₂, (Handle.root ⟨0⟩).walk shelf
      [.entry (.int 7), .elem, .field "content", .elem, .entry (.int 1), .elem] = .ok (g₁, h) ∧
    h.value? g₁ = some (.slice .int [.int 5, .int 6]) ∧
    h.set g₁ (.slice .int [.int 5, .int 6]) = .ok g₂ ∧ g₂.cells = shelf.cells := by
  obtain ⟨g₁, h, hw, hv⟩ : ∃ g₁ h, (Handle.root ⟨0⟩).walk shelf
      [.entry (.int 7), .elem, .field "content", .elem, .entry (.int 1), .elem] = .ok (g₁, h) ∧
    h.value? g₁ = some (.slice .int [.int 5, .int 6]) := ⟨_, _, rfl, rfl⟩
  have hfresh : shelf.Fresh := fun _ _ => rfl
  obtain ⟨g₂, h₂, hcells⟩ := set_value_of_walk (g := shelf) (by decide) (by decide) (by decide) rfl
    hfresh rfl hw hv
  exact ⟨g₁, h, g₂, hw, hv, h₂, hcells⟩

end ObjectGraph
