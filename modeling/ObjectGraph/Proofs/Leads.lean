import ObjectGraph.Proofs.Outcome
import ObjectGraph.Proofs.Walk

/-! The places that locations lead to. A location below map entries reads what lies at its place,
and an update of it, through all the copies on its way, is an update in place. -/
namespace ObjectGraph

/-- The cell can be written, and its content is well-typed with no interface in an interface. -/
structure Graph.Tidy (g : Graph) (types : CellId → Option Ty) (c : CellId) : Prop where
  free : g.isHeld c = false
  typed : ∀ ⦃v⦄, g.content? c = some v → v.Typed types
  boxedOnce : ∀ ⦃v⦄, g.content? c = some v → v.BoxedOnce

namespace Place

variable {g : Graph} {P : Place} {r : Route} {u v w : Value} {types : CellId → Option Ty}

/-- The content of the cell with `w` at the place. -/
def filled (g : Graph) (P : Place) (w : Value) : Option Value :=
  (g.content? P.cell).bind (Value.put w P.route)

theorem filled_along (h : P.value? g = some u) :
    (P.along r).filled g w = (Value.put w r u).bind (P.filled g) := by
  obtain ⟨old, ho, hu⟩ := Option.bind_eq_some_iff.1 h
  have hP : P.filled g = fun x => Value.put x P.route old := by
    funext x
    simp [filled, ho]
  simp only [filled, along, ho, Option.bind_some, Value.put_append hu, hP]

theorem typed_value? (h : g.Tidy types P.cell) (hv : P.value? g = some v) : v.Typed types := by
  obtain ⟨old, ho, hv⟩ := Option.bind_eq_some_iff.1 hv
  exact (h.typed ho).at? hv

theorem boxedOnce_value? (h : g.Tidy types P.cell) (hv : P.value? g = some v) : v.BoxedOnce := by
  obtain ⟨old, ho, hv⟩ := Option.bind_eq_some_iff.1 hv
  exact (h.boxedOnce ho).at? hv

end Place

namespace Graph

/-- The cache leads past a pointer. -/
def Targets (g : Graph) (i : CacheId) : Prop := ∃ c path, g.cached? i = some (.target c path)

variable {g : Graph} {c : CellId} {path : Path} {v w w' : Value} {f : Value → Except Fault Value}
  {e : Fault}

theorem readable_of_free (h : g.isHeld c = false) (hv : g.content? c = some v) :
    g.readable c = .ok v := by
  have hx : g.isHeldExclusively c = false := by
    simp only [isHeld, isHeldExclusively, List.any_eq_false, List.contains_eq_mem,
      decide_eq_false_iff_not] at h ⊢
    exact fun hm => h _ hm (by simp)
  simp [readable, hx, hv]

/-- What a reader finds in a cell is its content. -/
theorem content?_of_readable (h : g.readable c = .ok v) : g.content? c = some v := by
  unfold readable at h
  split at h
  · cases h
  · split at h
    · cases h
      assumption
    · cases h

theorem writable_of_free (h : g.isHeld c = false) (hv : g.content? c = some v) :
    g.writable c = .ok v := by
  simp [writable, h, hv]

theorem load_of_value? (h : g.isHeld c = false)
    (hv : (Place.mk c path.route).value? g = some w) : g.load c path = .ok w := by
  obtain ⟨old, ho, hw⟩ := Option.bind_eq_some_iff.1 hv
  simp only [load, readable_of_free h ho]
  exact Value.resolve_of_at? hw

theorem update_of_value? (h : g.isHeld c = false)
    (hv : (Place.mk c path.route).value? g = some w) (hf : f w = .ok w') :
    ∃ new, (Place.mk c path.route).filled g w' = some new ∧
      g.update c path f = .ok (g.put c new) := by
  obtain ⟨old, ho, hw⟩ := Option.bind_eq_some_iff.1 hv
  obtain ⟨new, hp, hc⟩ := Value.change_of_at? hw hf
  refine ⟨new, by simp [Place.filled, ho, hp], ?_⟩
  simp only [update, writable_of_free h ho, mapError_ok, ok_bind, hc]
  rfl

theorem update_error (h : g.isHeld c = false)
    (hv : (Place.mk c path.route).value? g = some w) (hf : f w = .error e) :
    g.update c path f = .error e := by
  obtain ⟨old, ho, hw⟩ := Option.bind_eq_some_iff.1 hv
  simp only [update, writable_of_free h ho, mapError_ok, ok_bind, Value.change_error hw hf,
    error_bind]

theorem not_targets_of_copy {i : CacheId} (hc : g.cached? i = some (.copy v)) : ¬ g.Targets i := by
  rintro ⟨_, _, ht⟩
  cases hc.symm.trans ht

/-- What is cached and leads past no pointer is a copy. -/
theorem cached?_eq_none {i : CacheId} (hn : ¬ g.Targets i)
    (hv : ∀ v, g.cached? i ≠ some (.copy v)) : g.cached? i = none := by
  cases hc : g.cached? i with
  | none => rfl
  | some k =>
    cases k with
    | copy v => exact absurd hc (hv v)
    | target c path => exact absurd ⟨c, path, hc⟩ hn

end Graph

namespace Entry

variable {g : Graph} {e : Entry} {c : CellId} {path : Path} {v : Value}

theorem location_of_target (hc : g.cached? e.cache = some (.target c path)) :
    e.location g = .cell c path := by
  simp only [location, hc]

theorem location_of_not_targets (hn : ¬ g.Targets e.cache) :
    e.location g = .entry e.host e.key e.elem e.cache [] := by
  unfold location
  split
  · exact absurd ⟨_, _, ‹_›⟩ hn
  · rfl

/-- Past a pointer an entry reads the target. -/
theorem read_of_target (hc : g.cached? e.cache = some (.target c path)) :
    e.read g = some <$> (Location.cell c path).read g := by
  simp only [read, Graph.current, hc]
  rfl

theorem read_target_iff (hc : g.cached? e.cache = some (.target c path)) :
    e.read g = .ok (some v) ↔ (Location.cell c path).read g = .ok v := by
  rw [read_of_target hc, map_eq_ok]
  simp

theorem read_of_copy (hc : g.cached? e.cache = some (.copy v)) : e.read g = .ok (some v) := by
  simp only [read, Graph.current, hc]

/-- Unless its cache leads past a pointer, what is below an entry is what its value holds. -/
theorem below_of_read {current : Option Value} (hn : ¬ g.Targets e.cache) :
    e.read g = .ok current → e.below g = match current with
      | some v => follow v
      | none => .error (.absentEntry e.key) := by
  intro hr
  unfold below
  split
  · exact absurd ⟨_, _, ‹_›⟩ hn
  · rw [hr]
    cases current <;> rfl

end Entry

namespace Location

variable {g : Graph} {p host : Location} {P : Place} {path : Path} {key : Key} {elem : Ty}
  {cache : CacheId} {u u' v w w' m : Value} {f : Value → Except Fault Value} {e : Fault}
  {types : CellId → Option Ty}

/-- The location leads to a place. Below a map entry the place is in the cell of the map. The cache
of the entry is empty, or it copies the content of the interface that the map holds. -/
inductive Leads (g : Graph) : Location → Place → Prop
  | cell {c : CellId} {path : Path} : Leads g (cell c path) ⟨c, path.route⟩
  | uncached {host : Location} {P : Place} {key : Key} {elem : Ty} {cache : CacheId} {path : Path}
      {m : Value} (hl : Leads g host P) (hm : P.value? g = some m) (ht : m.ty = .map key.ty elem)
      (hi : cache.index < g.nextCache) (hc : g.cached? cache = none) :
      Leads g (entry host key elem cache path) (P.along (.key key :: path.route))
  | copied {host : Location} {P : Place} {key : Key} {elem : Ty} {cache : CacheId} {path : Path}
      {m u : Value} (hl : Leads g host P) (hm : P.value? g = some m)
      (ht : m.ty = .map key.ty elem) (hi : cache.index < g.nextCache)
      (hc : g.cached? cache = some (.copy u)) (hu : m.part? (.key key) = some (.boxed u)) :
      Leads g (entry host key elem cache path) (P.along (.key key :: .content :: path.route))

theorem map_of_part? (h : m.part? (.key key) = some u) :
    ∃ k t es, m = .map k t es ∧ Assoc.get? key es = some u := by
  cases m with
  | map k t es => exact ⟨k, t, es, rfl, h⟩
  | _ => cases h

theorem lookup_eq_part? {k : KeyTy} (h : m.ty = .map k elem) :
    m.lookup key = .ok (m.part? (.key key)) := by
  cases m <;> first | rfl | cases h

theorem current_uncached {k : KeyTy} (hc : g.cached? cache = none) (hm : m.ty = .map k elem) :
    g.current cache key (.ok m) = .ok (m.part? (.key key)) := by
  simp only [Graph.current, hc]
  exact lookup_eq_part? hm

theorem current_copied {map : Except Fault Value} (hc : g.cached? cache = some (.copy u)) :
    g.current cache key map = .ok (some u) := by
  simp only [Graph.current, hc]

/-- A location reads what lies at its place. -/
theorem Leads.read (hl : p.Leads g P) (hf : g.isHeld P.cell = false)
    (hv : P.value? g = some v) : p.read g = .ok v := by
  induction hl generalizing v with
  | cell => exact Graph.load_of_value? hf hv
  | uncached _ hm ht _ hc ih =>
    rw [Place.value?_along, hm, Option.bind_some] at hv
    obtain ⟨u, hu, hv⟩ := Option.bind_eq_some_iff.1 hv
    simp only [Location.read, ih hf hm, current_uncached hc ht, hu]
    exact Value.resolve_of_at? hv
  | copied _ hm _ _ hc hu _ =>
    rw [Place.value?_along, hm, Option.bind_some, Value.at?, hu] at hv
    simp only [Location.read, current_copied hc]
    exact Value.resolve_of_at? hv

/-- An entry reads what lies at its place, if anything does. -/
theorem Leads.read_entry {e : Entry} (hl : (entry e.host e.key e.elem e.cache []).Leads g P)
    (hf : g.isHeld P.cell = false) : e.read g = .ok (P.value? g) := by
  cases hl with
  | uncached hl hm ht _ hc =>
    rw [Entry.read, hl.read hf hm, current_uncached hc ht, Place.value?_along, hm]
    simp [Value.at?, Path.route]
  | copied _ hm _ _ hc hu =>
    rw [Entry.read, current_copied hc, Place.value?_along, hm, Option.bind_some, Value.at?, hu]
    rfl

theorem Leads.not_targets {e : Entry} (hl : (entry e.host e.key e.elem e.cache []).Leads g P) :
    ¬ g.Targets e.cache := by
  cases hl with
  | uncached _ _ _ _ hc =>
    rintro ⟨_, _, ht⟩
    cases hc.symm.trans ht
  | copied _ _ _ _ hc => exact Graph.not_targets_of_copy hc

theorem Leads.location_entry {e : Entry} (hl : (entry e.host e.key e.elem e.cache []).Leads g P) :
    e.location g = entry e.host e.key e.elem e.cache [] :=
  Entry.location_of_not_targets hl.not_targets

theorem Leads.below_entry {e : Entry} (hl : (entry e.host e.key e.elem e.cache []).Leads g P)
    (hf : g.isHeld P.cell = false) :
    e.below g = match P.value? g with
      | some v => Entry.follow v
      | none => .error (.absentEntry e.key) :=
  Entry.below_of_read hl.not_targets (hl.read_entry hf)

/-- A write that does not go past a pointer is an insertion into the map. -/
theorem storeEntry_eq {change : (Value → Except Fault Value) → Except Fault Graph}
    (hn : ¬ g.Targets cache) :
    g.storeEntry cache key elem change v = (do
      let w ← v.assignTo elem
      return (← change (Value.insert key w)).setCache cache (.copy v)) := by
  unfold Graph.storeEntry
  split
  · exact absurd ⟨_, _, ‹_›⟩ hn
  · rfl

theorem update_entry {g' : Graph} (hn : ¬ g.Targets cache)
    (hr : g.current cache key (host.read g) = .ok (some u)) (hc : u.change f path = .ok u')
    (ha : u'.assignTo elem = .ok w) (hu : host.update g (Value.insert key w) = .ok g') :
    (entry host key elem cache path).update g f = .ok (g'.setCache cache (.copy u')) := by
  simp only [Location.update, hr, ok_bind, hc, storeEntry_eq hn, ha, hu]
  rfl

/-- The value of an entry has the element type of the map. -/
theorem ty_part?_key (hm : m.Typed types) (ht : m.ty = .map key.ty elem)
    (hu : m.part? (.key key) = some u) : u.ty = elem := by
  obtain ⟨k, t, es, rfl, hget⟩ := map_of_part? hu
  cases ht
  exact (hm.here _ (Assoc.mem_of_get? hget)).2

/-- An update that keeps the type of what lies at its place is an update in place. -/
theorem Leads.update (hl : p.Leads g P) (hg : g.Tidy types P.cell) (hv : P.value? g = some w)
    (hf : f w = .ok w') (ht : w'.ty = w.ty) :
    ∃ new cs, P.filled g w' = some new ∧
      p.update g f = .ok { g.put P.cell new with caches := cs } := by
  induction hl generalizing f w w' with
  | cell =>
    obtain ⟨new, hn, hu⟩ := Graph.update_of_value? hg.free hv hf
    exact ⟨new, g.caches, hn, hu⟩
  | @uncached host P key elem cache path m hl hm hmt _ hc ih =>
    have hg : g.Tidy types P.cell := hg
    rw [Place.value?_along, hm, Option.bind_some] at hv
    obtain ⟨u, hu, hv⟩ := Option.bind_eq_some_iff.1 hv
    obtain ⟨u', hp, hch⟩ := Value.change_of_at? hv hf
    have ha : u'.assignTo elem = .ok u' := by
      simp [Value.assignTo, Value.ty_put_of_at? hv ht hp,
        ty_part?_key (Place.typed_value? hg hm) hmt hu]
    have hr : g.current cache key (host.read g) = .ok (some u) := by
      rw [hl.read hg.free hm, current_uncached hc hmt, hu]
    obtain ⟨k, t, es, rfl, _⟩ := map_of_part? hu
    obtain ⟨new, cs, hn, hup⟩ := ih hg hm (f := Value.insert key u') rfl rfl
    refine ⟨new, Assoc.insert cache.index (.copy u') cs, ?_,
      update_entry (by simp [Graph.Targets, hc]) hr hch ha hup⟩
    rw [Place.filled_along hm, Value.put_cons hu, hp]
    exact hn
  | @copied host P key elem cache path m u hl hm hmt _ hc hu ih =>
    have hg : g.Tidy types P.cell := hg
    rw [Place.value?_along, hm, Option.bind_some, Value.at?, hu] at hv
    have hv : Value.at? path.route u = some w := hv
    obtain ⟨u', hp, hch⟩ := Value.change_of_at? hv hf
    have hut : u'.ty = u.ty := Value.ty_put_of_at? hv ht hp
    have hb : u'.ty ≠ .any := hut ▸ ((Place.boxedOnce_value? hg hm).part hu).here
    have ha : u'.assignTo elem = .ok (.boxed u') := by
      have he : elem = .any := (ty_part?_key (Place.typed_value? hg hm) hmt hu).symm
      simp [Value.assignTo, he, hb, Ty.isAssignableTo, Value.box_of_ty_ne hb]
    obtain ⟨k, t, es, rfl, _⟩ := map_of_part? hu
    obtain ⟨new, cs, hn, hup⟩ := ih hg hm (f := Value.insert key (.boxed u')) rfl rfl
    refine ⟨new, Assoc.insert cache.index (.copy u') cs, ?_,
      update_entry (by simp [Graph.Targets, hc]) (current_copied hc) hch ha hup⟩
    rw [Place.filled_along hm, Value.put_cons hu, Value.put_cons rfl, hp]
    exact hn

/-- Where the new value cannot be made, nothing is written. -/
theorem Leads.update_error (hl : p.Leads g P) (hg : g.isHeld P.cell = false)
    (hv : P.value? g = some w) (hf : f w = .error e) : p.update g f = .error e := by
  cases hl with
  | cell => exact Graph.update_error hg hv hf
  | uncached hl hm ht _ hc =>
    rw [Place.value?_along, hm, Option.bind_some] at hv
    obtain ⟨u, hu, hv⟩ := Option.bind_eq_some_iff.1 hv
    simp only [Location.update, hl.read hg hm, current_uncached hc ht, hu, ok_bind,
      Value.change_error hv hf, error_bind]
  | copied _ hm _ _ hc hu =>
    rw [Place.value?_along, hm, Option.bind_some, Value.at?, hu] at hv
    simp only [Location.update, current_copied hc, ok_bind, Value.change_error hv hf, error_bind]

end Location

end ObjectGraph
