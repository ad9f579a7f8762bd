import ObjectGraph.Proofs.Concrete

/-! The types of locations. A location has one type for good, by the types of the cells and of what
caches copy. In a sound graph it reads values of this type alone, and an update that keeps the type
leaves the graph sound. Neither fails but for data that is not there. -/
namespace ObjectGraph

/-- The faults of an access that is well-typed: data that is not there, and a value that does not
fit. -/
inductive Fault.Ordinary : Fault → Prop
  | notAssignable {s t : Ty} : Ordinary (.notAssignable s t)
  | nilMap {key : Key} : Ordinary (.nilMap key)
  | indexOutOfRange {i n : Nat} : Ordinary (.indexOutOfRange i n)
  | absentEntry {key : Key} : Ordinary (.absentEntry key)

/-- The type of a location, where `elems` gives the types of what the caches copy. -/
inductive Location.HasTy (types : CellId → Option Ty) (elems : CacheId → Option Ty) :
    Location → Ty → Prop
  | cell {c : CellId} {path : Path} {s t : Ty} (hc : types c = some s) (ht : s.at? path = some t) :
      HasTy types elems (cell c path) t
  | entry {host : Location} {key : Key} {elem : Ty} {cache : CacheId} {path : Path} {t : Ty}
      (hh : HasTy types elems host (.map key.ty elem)) (he : elems cache = some elem)
      (ht : elem.at? path = some t) : HasTy types elems (entry host key elem cache path) t

/-- What a cache has: a copy of the type that `elems` says, or the way to a location with a type. -/
def Cached.Typed (types : CellId → Option Ty) (elems : CacheId → Option Ty) (i : CacheId) :
    Cached → Prop
  | copy v => v.Typed types ∧ elems i = some v.ty
  | target c path => ∃ t, Location.HasTy types elems (.cell c path) t

/-- Cells and caches are well-typed, the cells with no interface. -/
structure Graph.Sound (elems : CacheId → Option Ty) (g : Graph) : Prop where
  typed : g.WellTyped
  concrete : ∀ ⦃c t⦄, g.cellTy? c = some t → t.isConcrete = true
  cached : ∀ ⦃i k⦄, g.cached? i = some k → k.Typed g.cellTy? elems i
  unused : ∀ i : CacheId, g.nextCache ≤ i.index → elems i = none

variable {types types' : CellId → Option Ty} {elems elems' : CacheId → Option Ty} {g g' : Graph}
  {c : CellId} {i cache : CacheId} {p q host : Location} {key : Key} {elem t u : Ty} {path : Path}
  {s : Step} {v w : Value} {e : Fault} {f : Value → Except Fault Value}
  {change : (Value → Except Fault Value) → Except Fault Graph}

namespace Location.HasTy

theorem mono (hp : p.HasTy types elems t) (hc : ∀ c t, types c = some t → types' c = some t)
    (he : ∀ i t, elems i = some t → elems' i = some t) : p.HasTy types' elems' t := by
  induction hp with
  | cell hs ht => exact .cell (hc _ _ hs) ht
  | entry _ hi ht ih => exact .entry ih (he _ _ hi) ht

theorem step (hp : p.HasTy types elems t) (hu : t.part? s = some u) :
    (p.step s).HasTy types elems u := by
  have hat : ∀ {r : Ty} {path : Path}, r.at? path = some t → r.at? (path ++ [s]) = some u := by
    intro r path ht
    rw [Ty.at?_concat, ht]
    exact hu
  cases hp with
  | cell hs ht => exact .cell hs (hat ht)
  | entry hh hi ht => exact .entry hh hi (hat ht)

theorem concrete (hp : p.HasTy types elems t)
    (hc : ∀ ⦃c t⦄, types c = some t → t.isConcrete = true) : t.isConcrete = true := by
  induction hp with
  | cell hs ht => exact Ty.isConcrete_at? (hc hs) ht
  | @entry _ _ elem _ _ _ _ _ ht ih =>
    have ih : elem.isConcrete = true := ih
    exact Ty.isConcrete_at? ih ht

/-- No location in a sound graph is the content of an interface, so a write fills the location. -/
theorem slot (hp : p.HasTy types elems t) :
    p.path.getLast? ≠ some .unbox ∧ p.withPath p.path.slot = p := by
  have hu : p.path.getLast? ≠ some .unbox := by
    cases hp with
    | cell _ ht => exact Ty.getLast?_ne_unbox ht
    | entry _ _ ht => exact Ty.getLast?_ne_unbox ht
  have hslot : p.path.slot = p.path := by simp [Path.slot, hu]
  refine ⟨hu, ?_⟩
  rw [hslot]
  cases p <;> rfl

end Location.HasTy

theorem Cached.Typed.mono {k : Cached} (hk : k.Typed types elems i)
    (hc : ∀ c t, types c = some t → types' c = some t)
    (he : ∀ i t, elems i = some t → elems' i = some t) : k.Typed types' elems' i := by
  cases k with
  | copy v =>
    obtain ⟨hv, hi⟩ := hk
    exact ⟨hv.mono hc, he _ _ hi⟩
  | target c path =>
    obtain ⟨t, ht⟩ := hk
    exact ⟨t, ht.mono hc he⟩

/-! The faults of what fits the types -/

theorem ordinary_resolve (hv : v.Typed types) (ht : v.ty.at? path = some t)
    (hr : v.resolve path = .error e) : e.Ordinary := by
  rcases hv.at_or ht with ⟨w, hw, _⟩ | ⟨i, n, he, _⟩
  · cases (Value.resolve_of_at? hw).symm.trans hr
  · cases he.symm.trans hr
    exact .indexOutOfRange

theorem ordinary_change (hv : v.Typed types) (ht : v.ty.at? path = some t)
    (h : v.change f path = .error e) : e.Ordinary ∨ ∃ w, w.ty = t ∧ f w = .error e := by
  rcases Value.change_error_cases hv ht h with ⟨i, n, rfl⟩ | hw
  · exact Or.inl .indexOutOfRange
  · exact Or.inr hw

theorem ordinary_assignTo (h : v.assignTo t = .error e) : e.Ordinary := by
  unfold Value.assignTo at h
  split at h
  · cases h
  · split at h
    · cases h
    · cases h
      exact .notAssignable

theorem ordinary_insert (ht : w.ty = .map key.ty elem) (h : Value.insert key v w = .error e) :
    e.Ordinary := by
  cases w with
  | map => cases h
  | nilMap =>
    cases h
    exact .nilMap
  | _ => cases ht

namespace Graph

theorem isHeld_of_holds (h : g.holds = []) : g.isHeld c = false := by
  simp [isHeld, h]

theorem exists_content (h : g.cellTy? c = some t) : ∃ v, g.content? c = some v ∧ v.ty = t :=
  Option.map_eq_some_iff.1 h

theorem Sound.put (hg : g.Sound elems) (hv : g.content? c = some v) (hw : w.Typed g.cellTy?)
    (ht : w.ty = v.ty) : (g.put c w).Sound elems ∧ (g.put c w).cellTy? = g.cellTy? := by
  have htypes := cellTy?_put (v := w) hv ht
  refine ⟨⟨?_, ?_, ?_, hg.unused⟩, htypes⟩
  · unfold WellTyped
    rw [htypes]
    exact forall_content_put hv hg.typed hw
  · rw [htypes]
    exact hg.concrete
  · rw [htypes]
    exact hg.cached

theorem Sound.setCache {k : Cached} (hg : g.Sound elems) (hk : k.Typed g.cellTy? elems i) :
    (g.setCache i k).Sound elems := by
  refine ⟨hg.typed, hg.concrete, ?_, hg.unused⟩
  intro j k' hj
  by_cases hi : j = i
  · subst hi
    cases cached?_setCache_self.symm.trans hj
    exact hk
  · exact hg.cached ((cached?_setCache_ne hi).symm.trans hj)

/-- An entry takes a value of its type, if its map can be changed with all types kept. -/
theorem Sound.storeEntry (hn : ¬ g.Targets cache) (he : elems cache = some v.ty)
    (hv : v.Typed g.cellTy?)
    (hc : ∀ ⦃f g₀⦄, Value.Keeps g.cellTy? (.map key.ty v.ty) f → change f = .ok g₀ →
      g₀.Sound elems ∧ g₀.cellTy? = g.cellTy?)
    (h : g.storeEntry cache key v.ty change v = .ok g') :
    g'.Sound elems ∧ g'.cellTy? = g.cellTy? := by
  rcases storeEntry_cases h with ⟨c, r, ht, _⟩ | ⟨_, stored, g₀, hs, hu, rfl⟩
  · exact absurd ⟨c, r, ht⟩ hn
  · obtain ⟨hg₀, htypes⟩ := hc (Value.keeps_insert (hv.assignTo hs) (Value.ty_of_assignTo hs)) hu
    exact ⟨hg₀.setCache ⟨htypes ▸ hv, he⟩, htypes⟩

end Graph

namespace Location

/-! Entries -/

/-- An entry that does not lead past a pointer has a value of the element type of its map. -/
theorem typed_current (hg : g.Sound elems) (hn : ¬ g.Targets cache) (he : elems cache = some elem)
    (hh : ∀ m, host.read g = .ok m → m.Typed g.cellTy? ∧ m.ty = .map key.ty elem)
    (hc : g.current cache key (host.read g) = .ok (some v)) :
    v.Typed g.cellTy? ∧ v.ty = elem := by
  unfold Graph.current at hc
  split at hc
  · rename_i w hw
    cases hc
    obtain ⟨ht, hi⟩ := hg.cached hw
    exact ⟨ht, Option.some.inj (hi.symm.trans he)⟩
  · exact absurd ⟨_, _, ‹_›⟩ hn
  · obtain ⟨m, hm, hl⟩ := bind_eq_ok.1 hc
    obtain ⟨hmt, hty⟩ := hh m hm
    rw [lookup_eq_part? hty] at hl
    have hu : m.part? (.key key) = some v := Except.ok.inj hl
    exact ⟨hmt.part hu, ty_part?_key hmt hty hu⟩

theorem ordinary_current (hn : ¬ g.Targets cache)
    (hh : ∀ m, host.read g = .ok m → m.ty = .map key.ty elem)
    (hx : ∀ x, host.read g = .error x → x.Ordinary)
    (hc : g.current cache key (host.read g) = .error e) : e.Ordinary := by
  unfold Graph.current at hc
  split at hc
  · cases hc
  · exact absurd ⟨_, _, ‹_›⟩ hn
  · cases hm : host.read g with
    | error y =>
      rw [hm] at hc
      cases hc
      exact hx _ hm
    | ok m =>
      rw [hm, ok_bind, lookup_eq_part? (hh m hm)] at hc
      cases hc

theorem ordinary_storeEntry (hn : ¬ g.Targets cache)
    (hc : ∀ ⦃f e⦄, change f = .error e →
      e.Ordinary ∨ ∃ w : Value, w.ty = .map key.ty elem ∧ f w = .error e)
    (h : g.storeEntry cache key elem change v = .error e) : e.Ordinary := by
  rw [storeEntry_eq hn] at h
  rcases bind_eq_error.1 h with ha | ⟨stored, _, h⟩
  · exact ordinary_assignTo ha
  · rcases bind_eq_error.1 h with hu | ⟨g₀, _, h⟩
    · rcases hc hu with ho | ⟨w, hw, hi⟩
      · exact ho
      · exact ordinary_insert hw hi
    · cases h

/-! Reads -/

theorem HasTy.read (hp : p.HasTy g.cellTy? elems t) (ha : p.Anchored g) (hg : g.Sound elems)
    (hr : p.read g = .ok v) : v.Typed g.cellTy? ∧ v.ty = t := by
  induction hp generalizing v with
  | cell hs ht =>
    obtain ⟨w, hw, hv⟩ := bind_eq_ok.1 hr
    have hw := Graph.content?_of_readable (mapError_eq_ok.1 hw)
    obtain ⟨x, hx, rfl⟩ := Graph.exists_content hs
    cases hx.symm.trans hw
    exact (hg.typed hw).resolve_at ht hv
  | entry _ he ht ih =>
    obtain ⟨hh, _, _, hn⟩ := ha
    obtain ⟨current, hc, hv⟩ := bind_eq_ok.1 hr
    cases current with
    | none => cases hv
    | some whole =>
      obtain ⟨hw, rfl⟩ := typed_current hg hn he (fun m hm => ih hh hm) hc
      exact hw.resolve_at ht hv

theorem HasTy.read_error (hp : p.HasTy g.cellTy? elems t) (ha : p.Anchored g) (hg : g.Sound elems)
    (hf : g.holds = []) (hr : p.read g = .error e) : e.Ordinary := by
  induction hp generalizing e with
  | @cell c path _ _ hs ht =>
    obtain ⟨x, hx, rfl⟩ := Graph.exists_content hs
    have hl : g.load c path = x.resolve path := by
      rw [Graph.load, Graph.readable_of_free (Graph.isHeld_of_holds hf) hx]
      rfl
    exact ordinary_resolve (hg.typed hx) ht (hl ▸ hr)
  | @entry host key elem cache path _ hhost he ht ih =>
    obtain ⟨hh, _, _, hn⟩ := ha
    have hhr := fun m hm => hhost.read (v := m) hh hg hm
    rcases bind_eq_error.1 hr with hc | ⟨current, hc, hv⟩
    · exact ordinary_current hn (fun m hm => (hhr m hm).2) (fun x hx => ih hh hx) hc
    · cases current with
      | none =>
        cases hv
        exact .absentEntry
      | some whole =>
        obtain ⟨hw, rfl⟩ := typed_current hg hn he hhr hc
        exact ordinary_resolve hw ht hv

/-! Updates -/

/-- An update that keeps the type of the location. Below an entry the copy and the map that it is
put back into are of the types that they had. -/
theorem HasTy.update (hp : p.HasTy g.cellTy? elems t) (ha : p.Anchored g) (hg : g.Sound elems)
    (hf : Value.Keeps g.cellTy? t f) (h : p.update g f = .ok g') :
    g'.Sound elems ∧ g'.cellTy? = g.cellTy? := by
  induction hp generalizing f g' with
  | cell hs ht =>
    obtain ⟨v, v', _, hv, hc, rfl⟩ := Graph.update_cases h
    obtain ⟨x, hx, rfl⟩ := Graph.exists_content hs
    cases hx.symm.trans hv
    obtain ⟨hv', hty⟩ := (hg.typed hv).change ht hf hc
    exact hg.put hv hv' hty
  | @entry host key elem cache path _ hhost he ht ih =>
    obtain ⟨hh, _, _, hn⟩ := ha
    obtain ⟨whole, whole', hc, hch, hs⟩ := update_entry_cases h
    obtain ⟨hw, rfl⟩ := typed_current hg hn he (fun m hm => hhost.read hh hg hm) hc
    obtain ⟨hw', hty⟩ := hw.change ht hf hch
    rw [← hty] at he hs ih
    exact Graph.Sound.storeEntry hn he hw' (fun _ _ hf hu => ih hh hf hu) hs

/-- What an update fails with is ordinary, or the new value could not be made. -/
theorem HasTy.update_error (hp : p.HasTy g.cellTy? elems t) (ha : p.Anchored g)
    (hg : g.Sound elems) (hfree : g.holds = []) (h : p.update g f = .error e) :
    e.Ordinary ∨ ∃ w, w.ty = t ∧ f w = .error e := by
  induction hp generalizing f e with
  | @cell c path _ _ hs ht =>
    obtain ⟨x, hx, rfl⟩ := Graph.exists_content hs
    rw [Location.update, Graph.update,
      Graph.writable_of_free (Graph.isHeld_of_holds hfree) hx, mapError_ok, ok_bind] at h
    rcases bind_eq_error.1 h with hc | ⟨v', _, h⟩
    · exact ordinary_change (hg.typed hx) ht hc
    · cases h
  | @entry host key elem cache path _ hhost he ht ih =>
    obtain ⟨hh, _, _, hn⟩ := ha
    have hhr := fun m hm => hhost.read (v := m) hh hg hm
    rcases bind_eq_error.1 h with hc | ⟨current, hc, h⟩
    · exact Or.inl (ordinary_current hn (fun m hm => (hhr m hm).2)
        (fun x hx => hhost.read_error hh hg hfree hx) hc)
    · cases current with
      | none =>
        cases h
        exact Or.inl .absentEntry
      | some whole =>
        obtain ⟨hw, rfl⟩ := typed_current hg hn he hhr hc
        rcases bind_eq_error.1 h with hch | ⟨whole', hch, h⟩
        · exact ordinary_change hw ht hch
        · exact Or.inl (ordinary_storeEntry hn (fun _ _ hu => ih hh hu) h)

/-! Writes -/

theorem HasTy.store_eq (hp : p.HasTy g.cellTy? elems t) :
    p.store g v = p.update g fun old => v.assignTo old.ty := by
  obtain ⟨hu, hs⟩ := hp.slot
  have hf : v.overwrite p.path = fun old => v.assignTo old.ty := by
    funext old
    simp [Value.overwrite, hu]
  rw [Location.store, hs, hf]

theorem HasTy.store (hp : p.HasTy g.cellTy? elems t) (ha : p.Anchored g) (hg : g.Sound elems)
    (hv : v.Typed g.cellTy?) (h : p.store g v = .ok g') :
    g'.Sound elems ∧ g'.cellTy? = g.cellTy? := by
  refine hp.update ha hg ?_ (hp.store_eq ▸ h)
  intro w w' _ ht hw
  exact ⟨hv.assignTo hw, (Value.ty_of_assignTo hw).trans ht⟩

theorem HasTy.store_error (hp : p.HasTy g.cellTy? elems t) (ha : p.Anchored g)
    (hg : g.Sound elems) (hfree : g.holds = []) (h : p.store g v = .error e) : e.Ordinary := by
  rcases hp.update_error ha hg hfree (hp.store_eq ▸ h) with ho | ⟨w, _, hw⟩
  · exact ho
  · exact ordinary_assignTo hw

/-- A location takes no value of another type. -/
theorem HasTy.ty_of_store (hp : p.HasTy g.cellTy? elems t) (ha : p.Anchored g) (hg : g.Sound elems)
    (h : p.store g v = .ok g') : v.ty = t := by
  obtain ⟨w, w', hw, hf, _⟩ := ha.update (hp.store_eq ▸ h)
  obtain ⟨_, rfl⟩ := hp.read ha hg hw
  exact (Value.eq_of_assignTo (hp.concrete hg.concrete) hf).2

/-! Steps -/

theorem HasTy.deref (hp : p.HasTy g.cellTy? elems t) (ha : p.Anchored g) (hg : g.Sound elems)
    (h : p.deref g = .ok q) : ∃ u, q.HasTy g.cellTy? elems u := by
  obtain ⟨v, hv, h⟩ := bind_eq_ok.1 h
  obtain ⟨hvt, rfl⟩ := hp.read ha hg hv
  cases v with
  | pointer target c =>
    cases h
    exact ⟨target, .cell hvt.here rfl⟩
  | boxed => cases hp.concrete hg.concrete
  | _ => cases h

theorem HasTy.field {name : String} (hp : p.HasTy g.cellTy? elems t) (ha : p.Anchored g)
    (hg : g.Sound elems) (h : p.field g name = .ok q) : ∃ u, q.HasTy g.cellTy? elems u := by
  obtain ⟨layout, fields, i, hv, hi, rfl⟩ := field_cases h
  obtain ⟨-, rfl⟩ := hp.read ha hg hv
  obtain ⟨hlt, _⟩ := List.findIdx?_eq_some_iff_getElem.1 hi
  have hu : layout.ty.part? (.field i) = some layout.fields[i].2 := by
    simp [Layout.ty, Ty.part?, hlt]
  exact ⟨_, hp.step hu⟩

theorem HasTy.index {j : Nat} (hp : p.HasTy g.cellTy? elems t) (ha : p.Anchored g)
    (hg : g.Sound elems) (h : p.index g j = .ok q) : ∃ u, q.HasTy g.cellTy? elems u := by
  obtain rfl := index_eq_step h
  obtain ⟨v, hv, h⟩ := bind_eq_ok.1 h
  obtain ⟨-, rfl⟩ := hp.read ha hg hv
  cases v with
  | slice elem items => exact ⟨elem, hp.step rfl⟩
  | _ => cases h

/-- The element type that an entry keeps is that of the map it is found in. -/
theorem HasTy.elemFor (hp : p.HasTy g.cellTy? elems t) (ha : p.Anchored g) (hg : g.Sound elems)
    (h : p.elemFor g key = .ok elem) : t = .map key.ty elem := by
  obtain ⟨v, hv, h⟩ := bind_eq_ok.1 h
  obtain ⟨-, rfl⟩ := hp.read ha hg hv
  cases v with
  | nilMap k _ | map k _ _ =>
    by_cases hk : key.ty = k
    · simp only [hk, if_true] at h
      cases h
      rw [hk]
      rfl
    · simp only [hk, if_false] at h
      cases h
  | _ => cases h

end Location

end ObjectGraph
