import ObjectGraph.Proofs.Locality
import ObjectGraph.Proofs.NamedFields
import ObjectGraph.Proofs.Throughout

/-! Moves of handles and the parts of plain values. From a handle with a value, a move leads to what
the value itself has there, and it fails for the reason that the value gives. -/
namespace ObjectGraph

variable {g : Graph} {c d : CellId} {path : Path} {p : Location} {h : Handle} {e : Entry} {m : Move}
  {key : Key} {k : Cached} {v w : Value} {s : Step} {t : Ty}

/-- What the value alone says of a move: the value that it leads to, which a map entry need not
have, or the reason why it fails. -/
def Value.access (g : Graph) (v : Value) : Move → Except Fault (Option Value)
  | .field name =>
    match v.field? name, v with
    | some w, _ => .ok (some w)
    | none, struct layout _ => .error (.noSuchField layout.ty name)
    | none, v => .error (.kindMismatch .field v.kind)
  | .index i =>
    match v.item? i, v.ty with
    | some w, _ => .ok (some w)
    | none, .slice _ => .error (.indexOutOfRange i (v.length?.getD 0))
    | none, _ => .error (.kindMismatch .index v.kind)
  | .entry key =>
    match v.ty with
    | .map k _ => if key.ty = k then .ok (v.get? key) else .error (.notAssignable key.ty.ty k.ty)
    | _ => .error (.kindMismatch .entry v.kind)
  | .elem =>
    match v with
    | pointer .. => (g.pointee? v).mapError .unresolved
    | boxed w => .ok (some w)
    | nilPointer _ | nilAny => .error (.nilDereference v.kind)
    | v => .error (.kindMismatch .elem v.kind)

/-- The value that a move leads to, if the move succeeds. -/
def Handle.moved (g : Graph) (h : Handle) (m : Move) : Except Fault (Option Value) :=
  (fun r => r.2.value? r.1) <$> h.move g m

/-- No cell is held so that it cannot be read. -/
def Graph.Open (g : Graph) : Prop := ∀ c, g.isHeldExclusively c = false

theorem Graph.Open.readable (hg : g.Open) (hv : g.content? c = some v) : g.readable c = .ok v := by
  simp [Graph.readable, hg c, hv]

/-- The target of a pointer can be read. -/
theorem Graph.Open.pointee? (hg : g.Open) (hv : (Value.pointer t c).Typed g.cellTy?) :
    ∃ w, g.readable c = .ok w ∧ g.pointee? (.pointer t c) = .ok (some w) := by
  obtain ⟨w, hw, _⟩ := Option.map_eq_some_iff.1 hv.here
  have hr := hg.readable hw
  exact ⟨w, hr, by simp [Graph.pointee?, hr]⟩

namespace Handle

theorem value?_eq_some : h.value? g = some v ↔ h.read g = .ok (some v) := by
  unfold value?
  split <;> simp_all

theorem value?_direct (hr : p.read g = .ok v) : (direct p).value? g = some v :=
  value?_eq_some.2 (by rw [Handle.read, hr]; rfl)

/-- What a handle reads lies at its location. -/
theorem read_location (hr : h.read g = .ok (some v)) : (h.location g).read g = .ok v := by
  cases h with
  | direct p =>
    obtain ⟨w, hw, he⟩ := map_eq_ok.1 hr
    cases he
    exact hw
  | entry e =>
    have hr : e.read g = .ok (some v) := hr
    by_cases hn : g.Targets e.cache
    · obtain ⟨c, path, hc⟩ := hn
      rw [Handle.location, Entry.location_of_target hc]
      exact (Entry.read_target_iff hc).1 hr
    · have hcur : g.current e.cache e.key (e.host.read g) = .ok (some v) := hr
      rw [Handle.location, Entry.location_of_not_targets hn, Location.read, hcur]
      rfl

theorem moved_field {name : String} (hr : (h.location g).read g = .ok v)
    (hv : v.Typed g.cellTy?) : h.moved g (.field name) = v.access g (.field name) := by
  simp only [moved, Handle.move, Handle.field, Location.field, hr, ok_bind]
  cases v with
  | struct layout fields =>
    cases hi : layout.fieldIndex? name with
    | none => simp only [hi, Value.access, Value.field?, Option.bind_none, error_map, error_bind]
    | some i =>
      have hlen : fields.length = layout.fields.length := by
        simpa using congrArg List.length hv.here
      have hlt : i < fields.length := by
        obtain ⟨hlt, _⟩ := List.findIdx?_eq_some_iff_getElem.1 hi
        omega
      have hw : ((h.location g).step (.field i)).read g = .ok fields[i] := by
        rw [Location.read_step, hr]
        simp [Value.part, hlt]
      simp only [Value.access, Value.field?, hi, Option.bind_some, List.getElem?_eq_getElem hlt]
      exact congrArg Except.ok (value?_direct hw)
  | _ => rfl

theorem moved_index {i : Nat} (hr : (h.location g).read g = .ok v) :
    h.moved g (.index i) = v.access g (.index i) := by
  simp only [moved, Handle.move, Handle.index, Location.index, hr, ok_bind]
  cases v with
  | slice elem items =>
    by_cases hi : i < items.length
    · have hw : ((h.location g).step (.index i)).read g = .ok items[i] := by
        rw [Location.read_step, hr]
        simp [Value.part, hi]
      simp only [hi, if_true, Value.access, Value.item?, List.getElem?_eq_getElem hi]
      exact congrArg Except.ok (value?_direct hw)
    · have hnone : items[i]? = none := List.getElem?_eq_none (Nat.le_of_not_lt hi)
      simp only [hi, if_false, Value.access, Value.item?, hnone]
      rfl
  | _ => rfl

/-- A new entry reads through to its map. -/
theorem moved_entry (hr : (h.location g).read g = .ok v) (hf : g.Fresh) :
    h.moved g (.entry key) = v.access g (.entry key) := by
  have hnew : ∀ elem, v.ty = .map key.ty elem →
      (entry ⟨h.location g, key, elem, g.newCache.2⟩).value? g.newCache.1 = v.get? key := by
    intro elem ht
    have hnone : g.newCache.1.cached? g.newCache.2 = none := hf _ (Nat.le_refl _)
    have hread : (h.location g).read g.newCache.1 = .ok v :=
      hr ▸ Location.read_congr rfl fun _ _ => rfl
    have he : Handle.read g.newCache.1 (entry ⟨h.location g, key, elem, g.newCache.2⟩) =
        .ok (v.part? (.key key)) := by
      rw [Handle.read, Entry.read, hread]
      exact Location.current_uncached hnone ht
    simp only [Handle.value?, he]
    cases v <;> rfl
  simp only [moved, Handle.move, Handle.entryAt, Location.elemFor, hr, ok_bind]
  cases v with
  | nilMap k elem | map k elem _ =>
    by_cases hk : key.ty = k
    · simp only [hk, if_true, Value.access, Value.ty]
      exact congrArg Except.ok (hnew elem (congrArg (Ty.map · elem) hk.symm))
    · simp only [hk, if_false, Value.access, Value.ty]
      rfl
  | _ => rfl

end Handle

/-- The value that a cache stands for. -/
def Cached.value? (g : Graph) : Cached → Option Value
  | copy v => some v
  | target c path => (g.load c path).toOption

theorem Entry.value?_of_cached (hc : g.cached? e.cache = some k) :
    (Handle.entry e).value? g = k.value? g := by
  cases k with
  | copy v => simp only [Handle.value?, Handle.read, read_of_copy hc, Cached.value?]
  | target c path =>
    simp only [Handle.value?, Handle.read, read_of_target hc, Cached.value?, Location.read]
    cases g.load c path <;> rfl

/-- What is below an entry is read through the cache that the entry is given for it. -/
theorem Handle.moved_elem_of_below :
    (entry e).moved g .elem = Cached.value? g <$> e.below g := by
  cases hb : e.below g with
  | error x =>
    rw [moved, move_elem_of_below_error hb]
    rfl
  | ok k =>
    have hvalue : (entry { e with cache := g.newCache.2 }).value?
        (g.newCache.1.setCache g.newCache.2 k) = k.value? g := by
      refine (Entry.value?_of_cached Graph.cached?_setCache_self).trans ?_
      cases k <;> rfl
    rw [moved, move_elem_of_below hb, ok_map, ok_map, hvalue]

namespace Handle

theorem moved_elem_direct (hr : p.read g = .ok v) (hg : g.Open) (hv : v.Typed g.cellTy?) :
    (direct p).moved g .elem = v.access g .elem := by
  simp only [moved, Handle.move, Handle.elem, Location.deref, hr, ok_bind]
  cases v with
  | pointer t c =>
    obtain ⟨w, hw, hp⟩ := hg.pointee? hv
    have hread : (Location.cell c []).read g = .ok w := by
      simp only [Location.read, Graph.load, hw]
      rfl
    simp only [Value.access, hp]
    exact congrArg Except.ok (value?_direct hread)
  | boxed w =>
    have hread : (p.step .unbox).read g = .ok w := Location.read_unbox_iff.2 hr
    exact congrArg Except.ok (value?_direct hread)
  | _ => rfl

theorem moved_elem_entry (hr : e.read g = .ok (some v)) (hg : g.Open) (hv : v.Typed g.cellTy?) :
    (entry e).moved g .elem = v.access g .elem := by
  rw [moved_elem_of_below]
  have hfollow : (Cached.value? g <$> Entry.follow v) = v.access g .elem := by
    cases v with
    | pointer t c =>
      obtain ⟨w, hw, hp⟩ := hg.pointee? hv
      simp only [Value.access, hp, Entry.follow, ok_map, Cached.value?, Graph.load, hw]
      rfl
    | _ => rfl
  by_cases hn : g.Targets e.cache
  · obtain ⟨c, path, hc⟩ := hn
    have hw := (Entry.read_target_iff hc).1 hr
    have hload : g.load c path = .ok v := hw
    simp only [Entry.below, hc, hload, ok_bind]
    cases v with
    | boxed u =>
      have hu : (Location.cell c (path ++ [.unbox])).read g = .ok u :=
        Location.read_unbox_iff (p := .cell c path) |>.2 hw
      have hu : g.load c (path ++ [.unbox]) = .ok u := hu
      simp only [Value.access]
      exact congrArg (Except.ok ∘ Except.toOption) hu
    | _ => exact hfollow
  · have hb : e.below g = Entry.follow v := Entry.below_of_read hn hr
    rw [hb, hfollow]

theorem moved_eq (hf : g.Fresh) (hg : g.Throughout (Value.Declared g.cellTy?)) (ho : g.Open)
    (hr : h.read g = .ok (some v)) : h.moved g m = v.access g m := by
  have hl := read_location hr
  have hv : v.Typed g.cellTy? := Location.every_read hg hl
  cases m with
  | field name => exact moved_field hl hv
  | index i => exact moved_index hl
  | entry key => exact moved_entry hl hf
  | elem =>
    cases h with
    | direct p => exact moved_elem_direct hl ho hv
    | entry e => exact moved_elem_entry hr ho hv

/-- From an entry that its map does not have no move goes on. -/
theorem move_absent (hr : e.read g = .ok none) :
    (entry e).move g m = .error (.absentEntry e.key) := by
  have hn : ¬ g.Targets e.cache := by
    rintro ⟨c, path, hc⟩
    rw [Entry.read_of_target hc] at hr
    obtain ⟨_, _, hr⟩ := map_eq_ok.1 hr
    cases hr
  have hl : (location g (entry e)).read g = .error (.absentEntry e.key) := by
    have hcur : g.current e.cache e.key (e.host.read g) = .ok none := hr
    rw [Handle.location, Entry.location_of_not_targets hn, Location.read, hcur]
    rfl
  cases m with
  | elem => exact move_elem_of_below_error (Entry.below_of_read hn hr)
  | field name => simp only [Handle.move, Handle.field, Location.field, hl, error_bind, error_map]
  | index i => simp only [Handle.move, Handle.index, Location.index, hl, error_bind, error_map]
  | entry key => simp only [Handle.move, Handle.entryAt, Location.elemFor, hl, error_bind]

end Handle

/-- In a well-typed graph with no cell held exclusively, all moves from a handle lead to what its
value has. The target of a pointer can always be read, and where there is no value every move fails. -/
theorem moved_eq_access {s : Session} (hs : s.Unchecked)
    (ht : s.graph.Throughout (Value.Declared s.graph.cellTy?)) (ho : s.graph.Open) (h : Handle) :
    (∀ v, h.value? s.graph = some v → ∀ m, h.moved s.graph m = v.access s.graph m) ∧
    (∀ t c, h.value? s.graph = some (.pointer t c) →
      ∃ w, s.graph.pointee? (.pointer t c) = .ok (some w)) ∧
    ∀ e, h = .entry e → e.read s.graph = .ok none → ∀ m,
      h.move s.graph m = .error (.absentEntry e.key) := by
  refine ⟨fun v hv m => ?_, fun t c hv => ?_, fun e he hr m => ?_⟩
  · exact Handle.moved_eq hs.fresh ht ho (Handle.value?_eq_some.1 hv)
  · have hl := Handle.read_location (Handle.value?_eq_some.1 hv)
    obtain ⟨w, _, hw⟩ := ho.pointee? (Location.every_read ht hl)
    exact ⟨w, hw⟩
  · subst he
    exact Handle.move_absent hr

/-- The map has no such entry. -/
def outlet : Entry := ⟨.cell ⟨0⟩ [], .string "outlet", gauge.ty, ⟨0⟩⟩

theorem moved_eq_access_level :
    (Handle.direct level).moved gauges.graph .elem = .ok (some (.int 3)) ∧
    (Handle.direct level).moved gauges.graph (.field "unit") =
      .error (.kindMismatch .field .interface) ∧
    (Handle.entry outlet).move gauges.graph .elem = .error (.absentEntry (.string "outlet")) := by
  have htyped : gauges.graph.Throughout (Value.Declared gauges.graph.cellTy?) :=
    ⟨(by decide : gauges.graph.WellTyped), fun i v hv => by cases hv⟩
  have hopen : gauges.graph.Open := fun _ => rfl
  obtain ⟨hlevel, _⟩ := moved_eq_access unchecked_gauges htyped hopen (.direct level)
  obtain ⟨_, _, houtlet⟩ := moved_eq_access unchecked_gauges htyped hopen (.entry outlet)
  exact ⟨hlevel _ rfl .elem, hlevel _ rfl (.field "unit"), houtlet outlet rfl rfl .elem⟩

end ObjectGraph
