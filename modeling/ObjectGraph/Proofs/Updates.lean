import ObjectGraph.Proofs.Slots

/-! Updates of one location, one after the other. The second starts from the copies that the first
has left in the caches, and what it leaves is what one update with both changes would have left. -/
namespace ObjectGraph

namespace Value

variable {v v' w : Value} {s : Step} {q r path : Path} {t : Ty} {f k j : Value → Except Fault Value}

theorem change_append : v.change f (q ++ r) = v.change (change f r) q := by
  induction q generalizing v with
  | nil => rfl
  | cons s q ih =>
    have hc : change f (q ++ r) = change (change f r) q := funext fun _ => ih
    simp only [List.cons_append, change, hc]

/-- A change below the whole leaves its type. -/
theorem ty_change (h : v.change f (s :: path) = .ok v') : v'.ty = v.ty := by
  obtain ⟨_, _, _, _, hput⟩ := put_of_change h
  exact ty_put hput

theorem changePart_changePart (h : v.changePart f s = .ok v')
    (hk : ∀ u u', v.part? s.hop = some u → f u = .ok u' → k u' = j u) :
    v'.changePart k s = v.changePart j s := by
  obtain ⟨u, u', hu, hf, hs⟩ := setPart_of_changePart h
  have hu' : v'.part? s.hop = some u' := part?_setPart_self hs
  have hku := hk u u' hu hf
  cases hj : j u with
  | error e => rw [changePart_error hu hj, changePart_error hu' (hku.trans hj)]
  | ok w =>
    obtain ⟨x, hx, hc⟩ := changePart_of_part? hu hj
    obtain ⟨x', hx', hc'⟩ := changePart_of_part? hu' (hku.trans hj)
    rw [setPart_setPart hs, hx] at hx'
    cases hx'
    rw [hc, hc']

/-- Two changes at the end of a path are one. -/
theorem change_change (h : v.change f path = .ok v')
    (hk : ∀ w w', v.resolve path = .ok w → f w = .ok w' → k w' = j w) :
    v'.change k path = v.change j path := by
  induction path generalizing v v' with
  | nil => exact hk v v' rfl h
  | cons s path ih =>
    refine changePart_changePart h fun u u' hu hu' => ih hu' fun w w' hw hw' => ?_
    refine hk w w' ?_ hw'
    rw [resolve, part_of_part? hu]
    exact hw

/-- Whether a change can be made, and the type of the whole after it, depend on no more than the
type of the new part. -/
theorem change_of_ty (h : v.change f path = .ok v')
    (hk : ∀ w w', v.resolve path = .ok w → f w = .ok w' → ∃ u, k w = .ok u ∧ u.ty = w'.ty) :
    ∃ v'', v.change k path = .ok v'' ∧ v''.ty = v'.ty := by
  obtain ⟨w, w', hw, hf, hput⟩ := put_of_change h
  obtain ⟨u, hu, ht⟩ := hk w w' (resolve_of_at? hw) hf
  obtain ⟨v'', hput', hc⟩ := change_of_at? hw hu
  refine ⟨v'', hc, ?_⟩
  cases path with
  | nil =>
    cases hput
    cases hput'
    exact ht
  | cons s path => exact (ty_put hput').trans (ty_put hput).symm

theorem assignTo_of_ty (h : v.assignTo t = .ok v') (ht : w.ty = v.ty) :
    ∃ w', w.assignTo t = .ok w' := by
  unfold assignTo at h ⊢
  rw [ht]
  split
  · exact ⟨_, rfl⟩
  · split
    · exact ⟨_, rfl⟩
    · simp_all

theorem insert_insert {key : Key} {m m' : Value} (h : Value.insert key v m = .ok m') :
    Value.insert key w m' = Value.insert key w m := by
  obtain ⟨k, t, es, rfl, rfl⟩ := insert_cases h
  simp only [Value.insert, Assoc.insert_insert]

theorem insert_of_insert {key : Key} {m m' : Value} (h : Value.insert key v m = .ok m') :
    ∃ m'', Value.insert key w m = .ok m'' ∧ m''.ty = m'.ty := by
  obtain ⟨k, t, es, rfl, rfl⟩ := insert_cases h
  exact ⟨_, rfl, rfl⟩

end Value

namespace Graph

variable {g g' : Graph} {c : CellId} {path : Path} {i cache : CacheId} {e : Cached} {key : Key}
  {elem : Ty} {v : Value} {f k j : Value → Except Fault Value}

/-- Caches have no part in the update of a cell. -/
theorem update_setCache :
    (g.setCache i e).update c path f = (·.setCache i e) <$> g.update c path f := by
  have hw : (g.setCache i e).writable c = g.writable c := rfl
  simp only [update, hw]
  cases g.writable c with
  | error x => rfl
  | ok v => cases h : v.change f path <;> simp only [mapError_ok, ok_bind, h] <;> rfl

theorem update_update (h : g.update c path f = .ok g')
    (hk : ∀ w w', g.load c path = .ok w → f w = .ok w' → k w' = j w) :
    g'.update c path k = g.update c path j := by
  obtain ⟨v, v', hc, hv, hch, rfl⟩ := update_cases h
  have hload : g.load c path = v.resolve path := by
    simp only [load, readable_of_free hc hv, mapError_ok, ok_bind]
  have hkj : v'.change k path = v.change j path :=
    Value.change_change hch fun w w' hw => hk w w' (hload.trans hw)
  have hput : (g.put c v').writable c = .ok v' :=
    writable_of_free (g := g.put c v') hc (content?_put_self hv)
  simp only [update, hput, writable_of_free hc hv, mapError_ok, ok_bind, hkj, put_put]

theorem update_of_ty (h : g.update c path f = .ok g')
    (hk : ∀ w w', g.load c path = .ok w → f w = .ok w' → ∃ u, k w = .ok u ∧ u.ty = w'.ty) :
    ∃ g'', g.update c path k = .ok g'' := by
  obtain ⟨v, v', hc, hv, hch, rfl⟩ := update_cases h
  have hload : g.load c path = v.resolve path := by
    simp only [load, readable_of_free hc hv, mapError_ok, ok_bind]
  obtain ⟨v'', hch', _⟩ := Value.change_of_ty hch fun w w' hw => hk w w' (hload.trans hw)
  refine ⟨g.put c v'', ?_⟩
  simp only [update, writable_of_free hc hv, mapError_ok, ok_bind, hch']
  rfl

theorem current_setCache {map : Except Fault Value} (h : cache ≠ i) :
    (g.setCache i e).current cache key map = g.current cache key map := by
  simp only [current, cached?_setCache_ne h]
  rfl

theorem storeEntry_setCache {change change' : (Value → Except Fault Value) → Except Fault Graph}
    (h : cache ≠ i) (hc : ∀ f, change' f = (·.setCache i e) <$> change f) :
    (g.setCache i e).storeEntry cache key elem change' v =
      (·.setCache i e) <$> g.storeEntry cache key elem change v := by
  by_cases ht : g.Targets cache
  · obtain ⟨c, path, ht⟩ := ht
    simp only [storeEntry, cached?_setCache_ne h, ht]
    exact update_setCache
  · have ht' : ¬ (g.setCache i e).Targets cache := by
      rintro ⟨c, path, ht'⟩
      exact ht ⟨c, path, (cached?_setCache_ne h).symm.trans ht'⟩
    rw [Location.storeEntry_eq ht, Location.storeEntry_eq ht']
    cases v.assignTo elem with
    | error x => rfl
    | ok stored =>
      simp only [ok_bind, hc]
      cases change (Value.insert key stored) with
      | error x => rfl
      | ok g₀ => exact congrArg Except.ok (setCache_comm h.symm)

end Graph

namespace Location

variable {g g' : Graph} {p host : Location} {q r path : Path} {i cache : CacheId} {e : Cached}
  {key : Key} {elem : Ty} {v : Value} {f k j : Value → Except Fault Value}

/-- To update a part of what lies at a location is to change the part in an update of the whole. -/
theorem update_append :
    (p.withPath (q ++ r)).update g f = (p.withPath q).update g (Value.change f r) := by
  cases p with
  | cell c path => simp only [withPath, update, Graph.update, Value.change_append]
  | entry host key elem cache path => simp only [withPath, update, Value.change_append]

/-- A cache that is not on the way to the cell has no part in an update. -/
theorem update_setCache (hi : i ∉ p.caches) :
    p.update (g.setCache i e) f = (·.setCache i e) <$> p.update g f := by
  induction p generalizing f with
  | cell c path => exact Graph.update_setCache
  | entry host key elem cache path ih =>
    have hc : cache ≠ i := fun he => hi (he ▸ .head _)
    have hh : i ∉ host.caches := fun hm => hi (.tail _ hm)
    simp only [update, Graph.current_setCache hc, read_setCache hh]
    cases g.current cache key (host.read g) with
    | error x => rfl
    | ok current =>
      cases current with
      | none => rfl
      | some whole =>
        simp only [ok_bind]
        cases whole.change f path with
        | error x => rfl
        | ok whole' => exact Graph.storeEntry_setCache hc fun f => ih hh

/-- An update below an entry puts a copy back. -/
theorem Anchored.update_entry_cases (ha : (entry host key elem cache path).Anchored g)
    (h : (entry host key elem cache path).update g f = .ok g') :
    ∃ whole whole' stored g₀, g.current cache key (host.read g) = .ok (some whole) ∧
      whole.change f path = .ok whole' ∧ whole'.assignTo elem = .ok stored ∧
      host.update g (Value.insert key stored) = .ok g₀ ∧
      g' = g₀.setCache cache (.copy whole') := by
  obtain ⟨whole, whole', hw, hw', hs⟩ := Location.update_entry_cases h
  rcases Graph.storeEntry_cases hs with ⟨c, path, ht, _⟩ | ⟨_, stored, g₀, hst, hg, rfl⟩
  · exact absurd ⟨c, path, ht⟩ ha.2.2.2
  · exact ⟨whole, whole', stored, g₀, hw, hw', hst, hg, rfl⟩

/-- A second write to an entry leaves what it would have left without the first, if the map that it
goes into is left so. -/
theorem storeEntry_storeEntry {w : Value} (hi : cache ∉ host.caches) (hn : ¬ g.Targets cache)
    (hu : ∀ m, host.update g' (Value.insert key m) = host.update g (Value.insert key m)) :
    (g'.setCache cache (.copy v)).storeEntry cache key elem
      (host.update (g'.setCache cache (.copy v))) w =
      g.storeEntry cache key elem (host.update g) w := by
  have hn' : ¬ (g'.setCache cache (.copy v)).Targets cache := by
    rintro ⟨c, path, ht⟩
    cases Graph.cached?_setCache_self.symm.trans ht
  simp only [storeEntry_eq hn, storeEntry_eq hn']
  cases w.assignTo elem with
  | error x => rfl
  | ok stored =>
    simp only [ok_bind, update_setCache hi, hu]
    cases host.update g (Value.insert key stored) with
    | error x => rfl
    | ok g₁ => exact congrArg Except.ok Graph.setCache_setCache

/-- A second update leaves what one update with both changes would have left, and fails as that
would have failed. -/
theorem Anchored.update_update (ha : p.Anchored g) (h : p.update g f = .ok g')
    (hk : ∀ w w', p.read g = .ok w → f w = .ok w' → k w' = j w) :
    p.update g' k = p.update g j := by
  induction p generalizing g' f k j with
  | cell c path => exact Graph.update_update h hk
  | entry host key elem cache path ih =>
    obtain ⟨whole, whole', stored, g₀, hw, hw', hst, hg, rfl⟩ := ha.update_entry_cases h
    have hself := not_mem_caches ha.2.2.1
    have hread : (entry host key elem cache path).read g = whole.resolve path := by
      simp only [Location.read, hw, ok_bind]
    have hc : whole'.change k path = whole.change j path :=
      Value.change_change hw' fun w w' hr => hk w w' (hread.trans hr)
    simp only [Location.update, current_copied Graph.cached?_setCache_self, hw, ok_bind, hc]
    cases whole.change j path with
    | error x => rfl
    | ok whole'' =>
      apply storeEntry_storeEntry hself ha.2.2.2
      -- the map at the host is changed twice under one key
      exact fun stored' => ih ha.1 hg fun _ _ _ => Value.insert_insert

/-- Whether an update can be made depends on no more than the type of the new part. -/
theorem Anchored.update_of_ty (ha : p.Anchored g) (h : p.update g f = .ok g')
    (hk : ∀ w w', p.read g = .ok w → f w = .ok w' → ∃ u, k w = .ok u ∧ u.ty = w'.ty) :
    ∃ g'', p.update g k = .ok g'' := by
  induction p generalizing g' f k with
  | cell c path => exact Graph.update_of_ty h hk
  | entry host key elem cache path ih =>
    obtain ⟨whole, whole', stored, g₀, hw, hw', hst, hg, rfl⟩ := ha.update_entry_cases h
    have hread : (entry host key elem cache path).read g = whole.resolve path := by
      simp only [Location.read, hw, ok_bind]
    obtain ⟨whole'', hc, ht⟩ := Value.change_of_ty hw' fun w w' hr => hk w w' (hread.trans hr)
    obtain ⟨stored', hst'⟩ := Value.assignTo_of_ty hst ht
    obtain ⟨g₁, hg₁⟩ := ih ha.1 hg fun _ _ _ => Value.insert_of_insert
    exact ⟨_, update_entry ha.2.2.2 hw hc hst' hg₁⟩

end Location

end ObjectGraph
