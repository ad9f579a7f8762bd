import ObjectGraph.Proofs.Slots

/-! A write below map entries puts copies back into one map after the other. Afterwards the cache of
each entry on the way to the cell agrees with the map of that entry, however stale it was before. -/
namespace ObjectGraph

/-- The cache of the entry copies its value, and the map has that value as the entry stores it. -/
def Entry.Synced (g : Graph) (e : Entry) : Prop :=
  ∃ v stored k t es, g.cached? e.cache = some (.copy v) ∧ v.assignTo e.elem = .ok stored ∧
    e.host.read g = .ok (.map k t es) ∧ Assoc.get? e.key es = some stored

/-- The entries on the way from a location to its cell. Past a pointer the way goes to the cell of
the target, which has no more entries. -/
def Location.chain (g : Graph) : Location → List Entry
  | cell _ _ => []
  | entry host key elem cache _ => ⟨host, key, elem, cache⟩ ::
    match g.cached? cache with
    | some (.target ..) => []
    | _ => host.chain g

def Handle.chain (g : Graph) : Handle → List Entry
  | direct p => p.chain g
  | entry e => (Location.entry e.host e.key e.elem e.cache []).chain g

variable {g g' : Graph} {e : Entry} {i cache : CacheId} {k : Cached} {p host : Location} {key : Key}
  {elem : Ty} {v : Value} {f : Value → Except Fault Value}

/-- A cache that neither the entry nor its map is read through does not matter. -/
theorem Entry.Synced.setCache (hs : e.Synced g) (hi : i ≠ e.cache) (hh : i ∉ e.host.caches) :
    e.Synced (g.setCache i k) := by
  obtain ⟨v, stored, kt, t, es, hc, ha, hr, hget⟩ := hs
  refine ⟨v, stored, kt, t, es, ?_, ha, ?_, hget⟩
  · rw [Graph.cached?_setCache_ne (Ne.symm hi), hc]
  · rw [Location.read_setCache hh, hr]

namespace Location

theorem chain_withPath {path : Path} : (p.withPath path).chain g = p.chain g := by
  cases p <;> rfl

theorem chain_of_targets {path : Path} (ht : g.Targets cache) :
    (entry host key elem cache path).chain g = [⟨host, key, elem, cache⟩] := by
  obtain ⟨c, r, ht⟩ := ht
  simp only [chain, ht]

theorem chain_of_not_targets {path : Path} (hn : ¬ g.Targets cache) :
    (entry host key elem cache path).chain g = ⟨host, key, elem, cache⟩ :: host.chain g := by
  simp only [chain]
  split
  · exact absurd ⟨_, _, ‹_›⟩ hn
  · rfl

theorem mem_chain_entry {path : Path} (he : e ∈ (entry host key elem cache path).chain g) :
    e = ⟨host, key, elem, cache⟩ ∨ (¬ g.Targets cache ∧ e ∈ host.chain g) := by
  by_cases ht : g.Targets cache
  · rw [chain_of_targets ht] at he
    exact Or.inl (List.mem_singleton.1 he)
  · rw [chain_of_not_targets ht] at he
    rcases List.mem_cons.1 he with he | he
    · exact Or.inl he
    · exact Or.inr ⟨ht, he⟩

/-- The way is the same where the same caches lead past pointers. -/
theorem chain_congr (h : ∀ i ∈ p.caches, g'.Targets i ↔ g.Targets i) : p.chain g' = p.chain g := by
  induction p with
  | cell => rfl
  | entry host key elem cache path ih =>
    have hc := h cache (.head _)
    by_cases ht : g.Targets cache
    · rw [chain_of_targets ht, chain_of_targets (hc.2 ht)]
    · rw [chain_of_not_targets ht, chain_of_not_targets fun ht' => ht (hc.1 ht'),
        ih fun i hi => h i (.tail _ hi)]

/-- The caches that an entry on the way is read through are on the way too. -/
theorem caches_of_mem_chain (he : e ∈ p.chain g) :
    e.cache ∈ p.caches ∧ ∀ i ∈ e.host.caches, i ∈ p.caches := by
  induction p with
  | cell => cases he
  | entry host key elem cache path ih =>
    rcases mem_chain_entry he with rfl | ⟨_, he⟩
    · exact ⟨.head _, fun i hi => .tail _ hi⟩
    · obtain ⟨hc, hh⟩ := ih he
      exact ⟨.tail _ hc, fun i hi => .tail _ (hh i hi)⟩

/-- A write to an entry leaves it synced, and those that the update of its map has synced before. -/
theorem synced_storeEntry (ha : host.Anchored g) (hlt : ∀ i ∈ host.caches, i.index < cache.index)
    (hu : ∀ {f g₀}, host.update g f = .ok g₀ → ∀ e ∈ host.chain g, e.Synced g₀)
    (hs : g.storeEntry cache key elem (host.update g) v = .ok g') (hn : ¬ g.Targets cache) :
    Entry.Synced g' ⟨host, key, elem, cache⟩ ∧ ∀ e ∈ host.chain g, e.Synced g' := by
  rcases Graph.storeEntry_cases hs with ⟨c, path, ht, _⟩ | ⟨_, stored, g₀, hv, hg, rfl⟩
  · exact absurd ⟨c, path, ht⟩ hn
  · have hself := not_mem_caches hlt
    constructor
    · obtain ⟨old, new, _, hi, hr⟩ := ha.update hg
      obtain ⟨kt, t, es, rfl, rfl⟩ := Value.insert_cases hi
      exact ⟨v, stored, kt, t, _, Graph.cached?_setCache_self, hv, (read_setCache hself).trans hr,
        Assoc.get?_insert_self⟩
    · intro e he
      obtain ⟨hc, hh⟩ := caches_of_mem_chain he
      apply (hu hg e he).setCache
      · rintro rfl
        exact hself hc
      · exact fun hm => hself (hh _ hm)

/-- After an update all entries on the way are synced. Those nearer to the cell are so first, and
the caches that are set later have no part in them. -/
theorem Anchored.synced (ha : p.Anchored g) (h : p.update g f = .ok g') :
    ∀ e ∈ p.chain g, e.Synced g' := by
  induction p generalizing f g' with
  | cell => simp [chain]
  | entry host key elem cache path ih =>
    obtain ⟨hh, _, hlt, hn⟩ := ha
    obtain ⟨whole, whole', _, _, hs⟩ := update_entry_cases h
    obtain ⟨hself, hrest⟩ := synced_storeEntry hh hlt (ih hh) hs hn
    intro e he
    rcases mem_chain_entry he with rfl | ⟨_, he⟩
    · exact hself
    · exact hrest e he

end Location

/-- A write does not change its way to the cell. -/
theorem Handle.chain_set {h : Handle} (ha : h.Anchored g) (hs : h.set g v = .ok g') :
    h.chain g' = h.chain g := by
  have ht : ∀ i : CacheId, i.index < g.nextCache → (g'.Targets i ↔ g.Targets i) := by
    intro i hi
    refine ⟨(later_set ha hs).targets hi, ?_⟩
    rintro ⟨c, path, ht⟩
    exact ⟨c, path, target_set hs ht⟩
  cases h with
  | direct p => exact Location.chain_congr fun i hi => ht i (Location.Anchored.lt ha hi)
  | entry e =>
    obtain ⟨hh, hc, hlt⟩ := ha
    apply Location.chain_congr
    intro i hi
    rcases List.mem_cons.1 hi with rfl | hi
    · exact ht _ hc
    · exact ht i (hh.lt hi)

/-- After a write each entry on the way from the handle to its cell has a copy in its cache, and the
map that it is in has this very value under its key. Only an entry past a pointer is left as it is,
as its map keeps the pointer. -/
theorem synced_of_set {s : Session} {h : Handle} (hs : s.Unchecked) (hh : h ∈ s.handles)
    (hw : h.set s.graph v = .ok g) :
    h.chain g = h.chain s.graph ∧
      ∀ e ∈ h.chain s.graph, ¬ s.graph.Targets e.cache → e.Synced g := by
  have ha := hs.anchored h hh
  refine ⟨Handle.chain_set ha hw, ?_⟩
  intro e he hn
  cases h with
  | direct p =>
    have ha : (p.withPath p.path.slot).Anchored s.graph := Location.anchored_withPath.2 ha
    exact ha.synced hw e (Location.chain_withPath.symm ▸ he)
  | entry d =>
    obtain ⟨hh, _, hlt⟩ := ha
    have he : e ∈ (Location.entry d.host d.key d.elem d.cache []).chain s.graph := he
    rcases Location.mem_chain_entry he with rfl | ⟨hd, he⟩
    · exact (Location.synced_storeEntry hh hlt hh.synced hw hn).1
    · exact (Location.synced_storeEntry hh hlt hh.synced hw hd).2 e he

/-- The entry of a map of maps. -/
def ledger : Entry := ⟨.cell ⟨0⟩ [], .string "may", .map .string .int, ⟨0⟩⟩

/-- An entry of the map in that entry. -/
def amount : Entry := ⟨.entry (.cell ⟨0⟩ []) (.string "may") (.map .string .int) ⟨0⟩ [],
  .string "rent", .int, ⟨1⟩⟩

/-- Both entries have been written and have caches, and then the outer map was emptied. -/
def emptied : Session where
  graph := {
    cells := #[.map .string (.map .string .int) []]
    caches := [(0, .copy (.map .string .int [(.string "rent", .int 5)])), (1, .copy (.int 5))]
    nextCache := 2
    holds := [] }
  handles := [.entry amount, .entry ledger, .root ⟨0⟩]

theorem unchecked_emptied : emptied.Unchecked := by
  have h₁ := Session.Unchecked.start.step (.alloc (v := .map .string (.map .string .int)
    [(.string "may", .map .string .int [])]) trivial)
  have h₂ := h₁.step (.root (c := ⟨0⟩) rfl)
  have h₃ := h₂.step (.move (m := .entry (.string "may")) (.head _) rfl)
  have h₄ := h₃.step (.move (m := .entry (.string "rent")) (.head _) rfl)
  have h₅ := h₄.step (.set (v := .int 5) (.head _) trivial rfl)
  exact h₅.step (.set (v := .map .string (.map .string .int) []) (h := .root ⟨0⟩) (by simp)
    trivial rfl)

theorem synced_of_set_ledger : emptied.Unchecked ∧
    ∃ g, (Handle.entry amount).set emptied.graph (.int 7) = .ok g ∧
    ledger ∈ (Handle.entry amount).chain emptied.graph ∧ ¬ emptied.graph.Targets ledger.cache ∧
    ledger.Synced g ∧ g.content? ⟨0⟩ = some (.map .string (.map .string .int)
      [(.string "may", .map .string .int [(.string "rent", .int 7)])]) := by
  obtain ⟨g, hg, hc⟩ : ∃ g, (Handle.entry amount).set emptied.graph (.int 7) = .ok g ∧
    g.content? ⟨0⟩ = some (.map .string (.map .string .int)
      [(.string "may", .map .string .int [(.string "rent", .int 7)])]) := ⟨_, rfl, rfl⟩
  have hm : ledger ∈ (Handle.entry amount).chain emptied.graph := .tail _ (.head _)
  have hn : ¬ emptied.graph.Targets ledger.cache := by
    rintro ⟨_, _, h⟩
    cases h
  have hs := (synced_of_set unchecked_emptied (.head _) hg).2 ledger hm hn
  exact ⟨unchecked_emptied, g, hg, hm, hn, hs, hc⟩

end ObjectGraph
