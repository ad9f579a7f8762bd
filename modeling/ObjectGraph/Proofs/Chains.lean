import ObjectGraph.Proofs.Session
import ObjectGraph.Proofs.Stands

/-! The caches between a location and its cell. None of them ever leads past a pointer, and each was
given out after those that are nearer to the cell. -/
namespace ObjectGraph

namespace Graph

variable {g g' g'' : Graph} {c : CellId} {path : Path} {cache : CacheId} {key : Key} {elem : Ty}
  {v : Value} {e : Cached} {f : Value → Except Fault Value}

/-- Caches may have been given out and written, but those that lead past a pointer did so before. -/
structure Later (g g' : Graph) : Prop where
  le : g.nextCache ≤ g'.nextCache
  targets : ∀ ⦃i : CacheId⦄, i.index < g.nextCache → g'.Targets i → g.Targets i
  fresh : g.Fresh → g'.Fresh

theorem Later.refl : g.Later g := ⟨Nat.le_refl _, fun _ _ h => h, id⟩

theorem Later.trans (h : g.Later g') (h' : g'.Later g'') : g.Later g'' := by
  refine ⟨Nat.le_trans h.le h'.le, ?_, fun hf => h'.fresh (h.fresh hf)⟩
  intro i hi ht
  exact h.targets hi (h'.targets (Nat.lt_of_lt_of_le hi h.le) ht)

/-- Nothing but the cells and the holds has changed. -/
theorem later_of_caches (hc : g'.caches = g.caches) (hn : g'.nextCache = g.nextCache) :
    g.Later g' := by
  have hcached : ∀ i, g'.cached? i = g.cached? i := fun i => by rw [cached?, cached?, hc]
  refine ⟨Nat.le_of_eq hn.symm, ?_, ?_⟩
  · rintro i - ⟨c, path, ht⟩
    exact ⟨c, path, hcached i ▸ ht⟩
  · intro hf i hi
    rw [hcached]
    exact hf i (hn ▸ hi)

theorem later_setCache (h : ¬ g.Targets cache) (hi : cache.index < g.nextCache) :
    g.Later (g.setCache cache (.copy v)) := by
  refine ⟨Nat.le_refl _, ?_, ?_⟩
  · rintro i - ⟨c, path, ht⟩
    by_cases he : i = cache
    · subst he
      cases cached?_setCache_self.symm.trans ht
    · exact ⟨c, path, (cached?_setCache_ne he).symm.trans ht⟩
  · intro hf i hi'
    rw [cached?_setCache_ne]
    · exact hf i hi'
    · rintro rfl
      exact Nat.lt_irrefl _ (Nat.lt_of_lt_of_le hi hi')

theorem later_newCache : g.Later g.newCache.1 := ⟨Nat.le_succ _, fun _ _ h => h, fresh_newCache⟩

theorem later_setCache_newCache : g.Later (g.newCache.1.setCache g.newCache.2 e) := by
  refine ⟨Nat.le_succ _, ?_, fresh_setCache_newCache⟩
  rintro i hi ⟨c, path, ht⟩
  exact ⟨c, path, (grown_setCache_newCache.cached i hi).symm.trans ht⟩

/-- All that an update of a cell can be. -/
theorem update_cases (h : g.update c path f = .ok g') :
    ∃ v v', g.isHeld c = false ∧ g.content? c = some v ∧ v.change f path = .ok v' ∧
      g' = g.put c v' := by
  obtain ⟨v, hv, h⟩ := bind_eq_ok.1 h
  obtain ⟨v', hv', h⟩ := bind_eq_ok.1 h
  cases h
  have hw := mapError_eq_ok.1 hv
  unfold writable at hw
  split at hw
  · cases hw
  · split at hw
    · cases hw
      exact ⟨v, v', Bool.eq_false_iff.2 ‹_›, ‹_›, hv', rfl⟩
    · cases hw

theorem later_update (h : g.update c path f = .ok g') : g.Later g' := by
  obtain ⟨_, _, _, _, _, rfl⟩ := update_cases h
  exact later_of_caches rfl rfl

/-- All that a write to an entry can be. -/
theorem storeEntry_cases {change : (Value → Except Fault Value) → Except Fault Graph}
    (h : g.storeEntry cache key elem change v = .ok g') :
    (∃ c path, g.cached? cache = some (.target c path) ∧ g.store c path v = .ok g') ∨
    (¬ g.Targets cache ∧ ∃ stored g₀, v.assignTo elem = .ok stored ∧
      change (Value.insert key stored) = .ok g₀ ∧ g' = g₀.setCache cache (.copy v)) := by
  by_cases ht : g.Targets cache
  · obtain ⟨c, path, hc⟩ := ht
    simp only [storeEntry, hc] at h
    exact Or.inl ⟨c, path, hc, h⟩
  · rw [Location.storeEntry_eq ht] at h
    obtain ⟨stored, hs, h⟩ := bind_eq_ok.1 h
    obtain ⟨g₀, hg, h⟩ := bind_eq_ok.1 h
    cases h
    exact Or.inr ⟨ht, stored, g₀, hs, hg, rfl⟩

theorem later_storeEntry {change : (Value → Except Fault Value) → Except Fault Graph}
    (h : g.storeEntry cache key elem change v = .ok g')
    (hc : ∀ ⦃f g₀⦄, change f = .ok g₀ → g.Later g₀) (hi : cache.index < g.nextCache) :
    g.Later g' := by
  rcases storeEntry_cases h with ⟨c, path, _, h⟩ | ⟨hn, stored, g₀, _, hg, rfl⟩
  · exact later_update h
  · have hl := hc hg
    exact hl.trans (later_setCache (fun ht => hn (hl.targets hi ht)) (Nat.lt_of_lt_of_le hi hl.le))

/-- No cache that has something loses it. One that leads past a pointer stays as it is. -/
structure Ages (g g' : Graph) : Prop where
  target : ∀ ⦃i c path⦄, g.cached? i = some (.target c path) → g'.cached? i = some (.target c path)
  copy : ∀ ⦃i v⦄, g.cached? i = some (.copy v) → ∃ w, g'.cached? i = some (.copy w)

theorem Ages.refl : g.Ages g := ⟨fun _ _ _ h => h, fun _ v h => ⟨v, h⟩⟩

theorem Ages.trans (h : g.Ages g') (h' : g'.Ages g'') : g.Ages g'' := by
  refine ⟨fun _ _ _ ht => h'.target (h.target ht), fun _ _ hc => ?_⟩
  obtain ⟨_, hw⟩ := h.copy hc
  exact h'.copy hw

theorem ages_of_cached (h : ∀ i k, g.cached? i = some k → g'.cached? i = some k) : g.Ages g' :=
  ⟨fun _ _ _ ht => h _ _ ht, fun _ v hv => ⟨v, h _ _ hv⟩⟩

theorem Ages.setCache (h : g.Ages g') (hn : ¬ g.Targets cache) :
    g.Ages (g'.setCache cache (.copy v)) := by
  refine ⟨fun i c path ht => ?_, fun i w hw => ?_⟩
  · have hi : i ≠ cache := fun hi => hn ⟨c, path, hi ▸ ht⟩
    exact (cached?_setCache_ne hi).trans (h.target ht)
  · by_cases hi : i = cache
    · exact ⟨v, hi ▸ cached?_setCache_self⟩
    · obtain ⟨w', hw'⟩ := h.copy hw
      exact ⟨w', (cached?_setCache_ne hi).trans hw'⟩

theorem ages_update (h : g.update c path f = .ok g') : g.Ages g' := by
  obtain ⟨_, _, _, _, _, rfl⟩ := update_cases h
  exact ages_of_cached fun _ _ hk => hk

theorem ages_storeEntry {change : (Value → Except Fault Value) → Except Fault Graph}
    (h : g.storeEntry cache key elem change v = .ok g')
    (hc : ∀ ⦃f g₀⦄, change f = .ok g₀ → g.Ages g₀) : g.Ages g' := by
  rcases storeEntry_cases h with ⟨c, path, _, h⟩ | ⟨hn, stored, g₀, _, hg, rfl⟩
  · exact ages_update h
  · exact (hc hg).setCache hn

end Graph

namespace Location

variable {g g' : Graph} {p q : Location} {i : CacheId} {v : Value} {e : Cached} {path : Path}
  {f : Value → Except Fault Value}

/-- The caches of the entries that the location is below. -/
def caches : Location → List CacheId
  | cell _ _ => []
  | entry host _ _ cache _ => cache :: host.caches

/-- Each cache on the way to the cell was given out after those nearer to the cell, and none leads
past a pointer. -/
def Anchored (g : Graph) : Location → Prop
  | cell _ _ => True
  | entry host _ _ cache _ => host.Anchored g ∧ cache.index < g.nextCache ∧
    (∀ i ∈ host.caches, i.index < cache.index) ∧ ¬ g.Targets cache

theorem Anchored.lt (h : p.Anchored g) (hi : i ∈ p.caches) : i.index < g.nextCache := by
  cases p with
  | cell => cases hi
  | entry host key elem cache path =>
    obtain ⟨_, hc, hlt, _⟩ := h
    rcases List.mem_cons.1 hi with rfl | hi
    · exact hc
    · exact Nat.lt_trans (hlt i hi) hc

/-- A map is not found through the cache of an entry in it. -/
theorem not_mem_caches (h : ∀ j ∈ p.caches, j.index < i.index) : i ∉ p.caches :=
  fun hi => Nat.lt_irrefl _ (h i hi)

theorem Anchored.later (h : p.Anchored g) (hg : g.Later g') : p.Anchored g' := by
  induction p with
  | cell => trivial
  | entry host key elem cache path ih =>
    obtain ⟨hh, hc, hlt, hn⟩ := h
    exact ⟨ih hh, Nat.lt_of_lt_of_le hc hg.le, hlt, fun ht => hn (hg.targets hc ht)⟩

theorem anchored_withPath : (p.withPath path).Anchored g ↔ p.Anchored g := by
  cases p <;> rfl

/-- All that an update below an entry can be. -/
theorem update_entry_cases {host : Location} {key : Key} {elem : Ty}
    (h : (entry host key elem i path).update g f = .ok g') :
    ∃ whole whole', g.current i key (host.read g) = .ok (some whole) ∧
      whole.change f path = .ok whole' ∧
      g.storeEntry i key elem (host.update g) whole' = .ok g' := by
  obtain ⟨current, hw, h⟩ := bind_eq_ok.1 h
  cases current with
  | none => cases h
  | some whole =>
    obtain ⟨whole', hw', h⟩ := bind_eq_ok.1 h
    exact ⟨whole, whole', hw, hw', h⟩

theorem later_update (ha : p.Anchored g) (h : p.update g f = .ok g') : g.Later g' := by
  induction p generalizing f g' with
  | cell c path => exact Graph.later_update h
  | entry host key elem cache path ih =>
    obtain ⟨whole, whole', _, _, hs⟩ := update_entry_cases h
    exact Graph.later_storeEntry hs (fun _ _ hu => ih ha.1 hu) ha.2.1

theorem ages_update (h : p.update g f = .ok g') : g.Ages g' := by
  induction p generalizing f g' with
  | cell c path => exact Graph.ages_update h
  | entry host key elem cache path ih =>
    obtain ⟨_, _, _, _, hs⟩ := update_entry_cases h
    exact Graph.ages_storeEntry hs fun _ _ hu => ih hu

/-- A cache that is not on the way to the cell has no part in a read. -/
theorem read_setCache (hi : i ∉ p.caches) : p.read (g.setCache i e) = p.read g := by
  induction p with
  | cell => rfl
  | entry host key elem cache path ih =>
    have hc : cache ≠ i := fun he => hi (he ▸ .head _)
    have hh : host.read (g.setCache i e) = host.read g := ih fun hm => hi (.tail _ hm)
    simp only [Location.read, Graph.current, Graph.cached?_setCache_ne hc, hh]
    rfl

/-- All that a step to a field can be. -/
theorem field_cases {name : String} (h : p.field g name = .ok q) :
    ∃ layout fields i, p.read g = .ok (.struct layout fields) ∧
      layout.fieldIndex? name = some i ∧ q = p.step (.field i) := by
  obtain ⟨v, hv, h⟩ := bind_eq_ok.1 h
  cases v with
  | struct layout fields =>
    cases hi : layout.fieldIndex? name with
    | none => simp only [hi] at h; cases h
    | some i =>
      simp only [hi] at h
      cases h
      exact ⟨layout, fields, i, hv, hi, rfl⟩
  | _ => cases h

theorem index_eq_step {j : Nat} (h : p.index g j = .ok q) : q = p.step (.index j) := by
  obtain ⟨v, _, h⟩ := bind_eq_ok.1 h
  cases v with
  | slice elem items =>
    by_cases hj : j < items.length
    · simp only [hj, if_true] at h
      cases h
      rfl
    · simp only [hj, if_false] at h
      cases h
  | _ => cases h

/-- What is below a location is a cell, or one step further. -/
theorem deref_cases (h : p.deref g = .ok q) : (∃ c, q = cell c []) ∨ q = p.step .unbox := by
  obtain ⟨v, _, h⟩ := bind_eq_ok.1 h
  cases v <;> cases h
  · exact Or.inl ⟨_, rfl⟩
  · exact Or.inr rfl

end Location

namespace Handle

variable {g g' : Graph} {h h' : Handle} {m : Move} {v : Value}

/-- The location of a handle is anchored, and so is that of the map of an entry. -/
def Anchored (g : Graph) : Handle → Prop
  | direct p => p.Anchored g
  | entry e => e.host.Anchored g ∧ e.cache.index < g.nextCache ∧
    ∀ i ∈ e.host.caches, i.index < e.cache.index

theorem Anchored.later (ha : h.Anchored g) (hg : g.Later g') : h.Anchored g' := by
  cases h with
  | direct p => exact Location.Anchored.later ha hg
  | entry e =>
    obtain ⟨hh, hc, hlt⟩ := ha
    exact ⟨hh.later hg, Nat.lt_of_lt_of_le hc hg.le, hlt⟩

theorem Anchored.location (ha : h.Anchored g) : (h.location g).Anchored g := by
  cases h with
  | direct p => exact ha
  | entry e =>
    obtain ⟨hh, hc, hlt⟩ := ha
    by_cases ht : g.Targets e.cache
    · obtain ⟨c, path, ht⟩ := ht
      rw [Handle.location, Entry.location_of_target ht]
      trivial
    · rw [Handle.location, Entry.location_of_not_targets ht]
      exact ⟨hh, hc, hlt, ht⟩

theorem later_set (ha : h.Anchored g) (hs : h.set g v = .ok g') : g.Later g' := by
  cases h with
  | direct p => exact Location.later_update (Location.anchored_withPath.2 ha) hs
  | entry e => exact Graph.later_storeEntry hs (fun _ _ hu => Location.later_update ha.1 hu) ha.2.1

theorem ages_set (hs : h.set g v = .ok g') : g.Ages g' := by
  cases h with
  | direct p => exact Location.ages_update hs
  | entry e => exact Graph.ages_storeEntry hs fun _ _ hu => Location.ages_update hu

theorem target_set {i : CacheId} {c : CellId} {path : Path} (hs : h.set g v = .ok g')
    (ht : g.cached? i = some (.target c path)) : g'.cached? i = some (.target c path) :=
  (ages_set hs).target ht

/-- All that a move can be: to a cell, one step further, to an entry of a map, or to what is below
the value of an entry. -/
theorem move_cases (hm : h.move g m = .ok (g', h')) :
    (g' = g ∧ ∃ c, h' = root c) ∨
    (g' = g ∧ ∃ s, h' = direct ((h.location g).step s)) ∨
    (g' = g.newCache.1 ∧ ∃ key elem, h' = entry ⟨h.location g, key, elem, g.newCache.2⟩ ∧
      (h.location g).elemFor g key = .ok elem) ∨
    ∃ e k, h = entry e ∧ e.below g = .ok k ∧ g' = g.newCache.1.setCache g.newCache.2 k ∧
      h' = entry { e with cache := g.newCache.2 } := by
  cases m with
  | elem =>
    cases h with
    | direct p =>
      obtain ⟨q, hq, h⟩ := bind_eq_ok.1 hm
      cases h
      rcases Location.deref_cases hq with ⟨c, rfl⟩ | rfl
      · exact Or.inl ⟨rfl, c, rfl⟩
      · exact Or.inr (Or.inl ⟨rfl, .unbox, rfl⟩)
    | entry e =>
      obtain ⟨q, hq, h⟩ := bind_eq_ok.1 hm
      cases h
      obtain ⟨k, hk, hq⟩ := bind_eq_ok.1 hq
      cases hq
      exact Or.inr (Or.inr (Or.inr ⟨e, k, rfl, hk, rfl, rfl⟩))
  | field name =>
    obtain ⟨q, hq, h⟩ := bind_eq_ok.1 hm
    cases h
    obtain ⟨p, hp, rfl⟩ := map_eq_ok.1 hq
    obtain ⟨_, _, i, _, _, rfl⟩ := Location.field_cases hp
    exact Or.inr (Or.inl ⟨rfl, .field i, rfl⟩)
  | index i =>
    obtain ⟨q, hq, h⟩ := bind_eq_ok.1 hm
    cases h
    obtain ⟨p, hp, rfl⟩ := map_eq_ok.1 hq
    obtain rfl := Location.index_eq_step hp
    exact Or.inr (Or.inl ⟨rfl, .index i, rfl⟩)
  | entry key =>
    obtain ⟨elem, he, h⟩ := bind_eq_ok.1 hm
    cases h
    exact Or.inr (Or.inr (Or.inl ⟨rfl, key, elem, rfl, he⟩))

theorem later_move (hm : h.move g m = .ok (g', h')) : g.Later g' := by
  rcases move_cases hm with ⟨rfl, _⟩ | ⟨rfl, _⟩ | ⟨rfl, _⟩ | ⟨_, _, _, _, rfl, _⟩
  · exact .refl
  · exact .refl
  · exact Graph.later_newCache
  · exact Graph.later_setCache_newCache

/-- A move leaves all but the caches that it gives out. -/
theorem grown_move (hm : h.move g m = .ok (g', h')) : g.Grown g' := by
  rcases move_cases hm with ⟨rfl, _⟩ | ⟨rfl, _⟩ | ⟨rfl, _⟩ | ⟨_, _, _, _, rfl, _⟩
  · exact .refl
  · exact .refl
  · exact Graph.grown_newCache
  · exact Graph.grown_setCache_newCache

theorem Anchored.move (ha : h.Anchored g) (hm : h.move g m = .ok (g', h')) : h'.Anchored g' := by
  have hg := later_move hm
  rcases move_cases hm with ⟨rfl, c, rfl⟩ | ⟨rfl, s, rfl⟩ | ⟨rfl, key, elem, rfl, -⟩ |
    ⟨e, k, rfl, -, rfl, rfl⟩
  · trivial
  · exact Location.anchored_withPath.2 ha.location
  · exact ⟨ha.location.later hg, Nat.lt_succ_self _, fun i hi => ha.location.lt hi⟩
  · obtain ⟨hh, _⟩ := ha
    exact ⟨hh.later hg, Nat.lt_succ_self _, fun i hi => hh.lt hi⟩

theorem later_writeDocument {d : Document} (ha : h.Anchored g)
    (hs : h.writeDocument g d = .ok g') : g.Later g' := by
  obtain ⟨t, _, hs⟩ := bind_eq_ok.1 hs
  exact later_set ha (mapError_eq_ok.1 hs)

end Handle

namespace Session

variable {Given : Graph → Value → Prop} {s t : Session}

theorem Step.later (ht : Step Given s t) (ha : ∀ h ∈ s.handles, h.Anchored s.graph) :
    s.graph.Later t.graph := by
  cases ht with
  | alloc => exact Graph.later_of_caches rfl rfl
  | root => exact .refl
  | move hh hm => exact Handle.later_move hm
  | set hh _ hs => exact Handle.later_set (ha _ hh) hs
  | write hh hs => exact Handle.later_writeDocument (ha _ hh) hs
  | hold => exact Graph.later_of_caches rfl rfl
  | release => exact Graph.later_of_caches rfl rfl

theorem Step.anchored (ht : Step Given s t) (ha : ∀ h ∈ s.handles, h.Anchored s.graph) :
    ∀ h ∈ t.handles, h.Anchored t.graph := by
  have hold : ∀ h ∈ s.handles, h.Anchored t.graph := fun h hh => (ha h hh).later (ht.later ha)
  cases ht with
  | root => exact List.forall_mem_cons.2 ⟨trivial, hold⟩
  | move hh hm => exact List.forall_mem_cons.2 ⟨(ha _ hh).move hm, hold⟩
  | _ => exact hold

/-- All handles that are kept are anchored. -/
theorem Unchecked.anchored (hs : s.Unchecked) : ∀ h ∈ s.handles, h.Anchored s.graph := by
  induction hs with
  | start => simp
  | step _ ht ih => exact ht.anchored ih
  | put _ ih => exact fun h hh => (ih h hh).later (Graph.later_of_caches rfl rfl)

theorem Reachable.anchored (hs : s.Reachable Given) : ∀ h ∈ s.handles, h.Anchored s.graph :=
  hs.unchecked.anchored

/-- No cache is in use that was not given out. -/
theorem Unchecked.fresh (hs : s.Unchecked) : s.graph.Fresh := by
  induction hs with
  | start => exact fun _ _ => rfl
  | step hs ht ih => exact (ht.later hs.anchored).fresh ih
  | put _ ih => exact ih

theorem Reachable.fresh (hs : s.Reachable Given) : s.graph.Fresh := hs.unchecked.fresh

end Session

end ObjectGraph
