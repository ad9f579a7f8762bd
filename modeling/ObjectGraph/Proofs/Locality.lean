import Mathlib.Logic.Relation
import ObjectGraph.Proofs.Owners

/-! What a write leaves alone. It changes the cell that its handle lies in and the caches on the way
to that cell, and so a handle with a copy in its cache answers from the copy through all writes that
other caches take part in. -/
namespace ObjectGraph

variable {g g' : Graph} {c d : CellId} {is : List CacheId} {i cache : CacheId} {host p : Location}
  {key : Key} {elem : Ty} {path : Path} {e : Entry} {h : Handle} {v : Value}
  {f : Value → Except Fault Value} {s t : Session}

/-- At most one cell and the caches of a list have changed. -/
structure Graph.SameOutside (g : Graph) (c : CellId) (is : List CacheId) (g' : Graph) : Prop where
  content : ∀ d, d ≠ c → g'.content? d = g.content? d
  cached : ∀ i, i ∉ is → g'.cached? i = g.cached? i
  holds : g'.holds = g.holds
  nextCache : g'.nextCache = g.nextCache

/-- The cell that a location lies in: that of its map or, past a pointer, that of the target. -/
def Location.base (g : Graph) : Location → CellId
  | cell c _ => c
  | entry host _ _ cache _ =>
    match g.cached? cache with
    | some (.target c _) => c
    | _ => host.base g

def Handle.base (g : Graph) : Handle → CellId
  | direct p => p.base g
  | entry e => (Location.entry e.host e.key e.elem e.cache []).base g

namespace Graph.SameOutside

theorem readable (hg : g.SameOutside c is g') (hd : d ≠ c) : g'.readable d = g.readable d := by
  simp only [Graph.readable, isHeldExclusively, hg.holds, hg.content d hd]
  rfl

theorem mono {js : List CacheId} (hg : g.SameOutside c is g') (h : ∀ i ∈ is, i ∈ js) :
    g.SameOutside c js g' :=
  ⟨hg.content, fun i hi => hg.cached i fun hm => hi (h i hm), hg.holds, hg.nextCache⟩

theorem setCache {k : Cached} (hg : g.SameOutside c is g') :
    g.SameOutside c (i :: is) (g'.setCache i k) := by
  refine ⟨hg.content, ?_, hg.holds, hg.nextCache⟩
  intro j hj
  rw [cached?_setCache_ne (List.ne_of_not_mem_cons hj)]
  exact hg.cached j (List.not_mem_of_not_mem_cons hj)

end Graph.SameOutside

theorem Graph.sameOutside_update (h : g.update c path f = .ok g') : g.SameOutside c is g' := by
  obtain ⟨_, _, _, _, _, rfl⟩ := update_cases h
  exact ⟨fun d hd => content?_put_ne hd, fun _ _ => rfl, rfl, rfl⟩

namespace Location

theorem base_withPath : (p.withPath path).base g = p.base g := by
  cases p <;> rfl

theorem base_of_target {r : Path} (h : g.cached? cache = some (.target c r)) :
    (entry host key elem cache path).base g = c := by
  simp only [base, h]

theorem base_of_not_targets (hn : ¬ g.Targets cache) :
    (entry host key elem cache path).base g = host.base g := by
  simp only [base]
  split
  · exact absurd ⟨_, _, ‹_›⟩ hn
  · rfl

/-- The entries on the way to a cell lie in that cell. -/
theorem base_of_mem_chain (he : e ∈ p.chain g) :
    p.base g = (entry e.host e.key e.elem e.cache []).base g := by
  induction p with
  | cell => cases he
  | entry host key elem cache path ih =>
    rcases mem_chain_entry he with rfl | ⟨hn, he⟩
    · rfl
    · rw [base_of_not_targets hn, ih he]

/-- A write to an entry goes to its target, or to its map and its cache. -/
theorem sameOutside_storeEntry (path : Path)
    (hu : ∀ {f g₀}, host.update g f = .ok g₀ →
      g.SameOutside (host.base g) ((host.chain g).map Entry.cache) g₀)
    (hs : g.storeEntry cache key elem (host.update g) v = .ok g') :
    g.SameOutside ((entry host key elem cache path).base g)
      (((entry host key elem cache path).chain g).map Entry.cache) g' := by
  rcases Graph.storeEntry_cases hs with ⟨c, r, ht, hs⟩ | ⟨hn, stored, g₀, _, hg, rfl⟩
  · rw [base_of_target ht]
    exact Graph.sameOutside_update hs
  · rw [base_of_not_targets hn, chain_of_not_targets hn]
    exact (hu hg).setCache

theorem sameOutside_update (h : p.update g f = .ok g') :
    g.SameOutside (p.base g) ((p.chain g).map Entry.cache) g' := by
  induction p generalizing f g' with
  | cell c path => exact Graph.sameOutside_update h
  | entry host key elem cache path ih =>
    obtain ⟨_, _, _, _, hs⟩ := update_entry_cases h
    exact sameOutside_storeEntry path ih hs

/-- What a location reads depends on its cell and on the caches on the way. -/
theorem read_congr (hr : g'.readable (p.base g) = g.readable (p.base g))
    (hc : ∀ e ∈ p.chain g, g'.cached? e.cache = g.cached? e.cache) : p.read g' = p.read g := by
  induction p with
  | cell c path =>
    have hr : g'.readable c = g.readable c := hr
    simp only [Location.read, Graph.load, hr]
  | entry host key elem cache path ih =>
    have hcache : g'.cached? cache = g.cached? cache := hc ⟨host, key, elem, cache⟩ (.head _)
    by_cases ht : g.Targets cache
    · obtain ⟨c, r, ht⟩ := ht
      rw [base_of_target ht] at hr
      simp only [Location.read, Graph.current, hcache, ht, Graph.load, hr]
    · rw [base_of_not_targets ht] at hr
      rw [chain_of_not_targets ht] at hc
      have hh : host.read g' = host.read g := ih hr fun e he => hc e (.tail _ he)
      cases hk : g.cached? cache with
      | none => simp only [Location.read, Graph.current, hcache, hk, hh]
      | some k =>
        cases k with
        | copy v => simp only [Location.read, Graph.current, hcache, hk]
        | target c r => exact absurd ⟨c, r, hk⟩ ht

end Location

namespace Handle

/-- A write changes no cell but the one that the handle lies in, and no cache but those on the way
to it. -/
theorem sameOutside_set (hs : h.set g v = .ok g') :
    g.SameOutside (h.base g) ((h.chain g).map Entry.cache) g' := by
  cases h with
  | direct p =>
    have hs := Location.sameOutside_update hs
    rwa [Location.base_withPath, Location.chain_withPath] at hs
  | entry e => exact Location.sameOutside_storeEntry [] Location.sameOutside_update hs

theorem sameOutside_writeDocument {d : Document} (hs : h.writeDocument g d = .ok g') :
    g.SameOutside (h.base g) ((h.chain g).map Entry.cache) g' := by
  obtain ⟨_, _, hs⟩ := bind_eq_ok.1 hs
  exact sameOutside_set (mapError_eq_ok.1 hs)

theorem base_of_mem_chain (he : e ∈ h.chain g) : h.base g = (Handle.entry e).base g := by
  cases h with
  | direct p => exact Location.base_of_mem_chain he
  | entry d =>
    exact Location.base_of_mem_chain (p := .entry d.host d.key d.elem d.cache []) he

end Handle

namespace Session

/-- One operation, of any caller, that does not write through the cache `i`. -/
inductive Aside (i : CacheId) : Session → Session → Prop
  | alloc {s : Session} {v : Value} : Aside i s { s with graph := (s.graph.alloc v).1 }
  | root {s : Session} {c : CellId} : Aside i s { s with handles := .root c :: s.handles }
  | move {s : Session} {h h' : Handle} {m : Move} {g : Graph} (hh : h ∈ s.handles)
      (hm : h.move s.graph m = .ok (g, h')) : Aside i s ⟨g, h' :: s.handles⟩
  | set {s : Session} {h : Handle} {v : Value} {g : Graph} (hh : h ∈ s.handles)
      (hi : i ∉ (h.chain s.graph).map Entry.cache) (hs : h.set s.graph v = .ok g) :
      Aside i s { s with graph := g }
  | write {s : Session} {h : Handle} {d : Document} {g : Graph} (hh : h ∈ s.handles)
      (hi : i ∉ (h.chain s.graph).map Entry.cache) (hs : h.writeDocument s.graph d = .ok g) :
      Aside i s { s with graph := g }
  | put {s : Session} {c : CellId} {v : Value} : Aside i s { s with graph := s.graph.put c v }
  | hold {s : Session} {c : CellId} {mode : Hold} :
      Aside i s { s with graph := s.graph.hold c mode }
  | release {s : Session} {c : CellId} : Aside i s { s with graph := s.graph.release c }

/-- A cache that was given out keeps what it has. -/
theorem Aside.cached (ht : Aside i s t) (hi : i.index < s.graph.nextCache) :
    t.graph.cached? i = s.graph.cached? i ∧ i.index < t.graph.nextCache := by
  cases ht with
  | move hh hm =>
    exact ⟨(Handle.grown_move hm).cached _ hi, Nat.lt_of_lt_of_le hi (Handle.grown_move hm).le⟩
  | set hh hn hs =>
    have hg := Handle.sameOutside_set hs
    exact ⟨hg.cached i hn, hg.nextCache ▸ hi⟩
  | write hh hn hs =>
    have hg := Handle.sameOutside_writeDocument hs
    exact ⟨hg.cached i hn, hg.nextCache ▸ hi⟩
  | _ => exact ⟨rfl, hi⟩

theorem cached_of_run (hr : Relation.ReflTransGen (Aside i) s t)
    (hi : i.index < s.graph.nextCache) :
    t.graph.cached? i = s.graph.cached? i ∧ i.index < t.graph.nextCache := by
  induction hr with
  | refl => exact ⟨rfl, hi⟩
  | tail _ ht ih =>
    obtain ⟨hc, hi⟩ := ih
    obtain ⟨hc', hi'⟩ := ht.cached hi
    exact ⟨hc'.trans hc, hi'⟩

/-- No write changes what a location in another cell reads: it shares no cache with the way of the
write, as each cache is for one entry and an entry lies in one cell. -/
theorem Owned.read_of_set (ho : s.Owned) (hh : h ∈ s.handles) (hs : h.set s.graph v = .ok g)
    (hp : ∀ e ∈ p.entries, e ∈ s.entries) (hb : p.base s.graph ≠ h.base s.graph) :
    p.read g = p.read s.graph := by
  have hg := Handle.sameOutside_set hs
  apply Location.read_congr (hg.readable hb)
  intro e he
  apply hg.cached
  intro hm
  obtain ⟨d, hd, hc⟩ := List.mem_map.1 hm
  have hde : d = e := ho d (mem_entries.2 ⟨h, hh, Handle.mem_entries_of_mem_chain hd⟩) e
    (hp e (Location.mem_entries_of_mem_chain he)) hc
  subst hde
  exact hb ((Location.base_of_mem_chain he).trans (Handle.base_of_mem_chain hd).symm)

end Session

/-- What is one level below an entry has a new cache, which is not on the way of the entry. -/
theorem Handle.Anchored.cache_not_mem_elem (ha : (Handle.entry e).Anchored g)
    (hm : (Handle.entry e).move g .elem = .ok (g', h)) :
    ∀ g'', e.cache ∉ (h.chain g'').map Entry.cache := by
  obtain ⟨_, hc, hlt⟩ := ha
  obtain ⟨q, hq, hm⟩ := bind_eq_ok.1 hm
  cases hm
  obtain ⟨k, _, hq⟩ := bind_eq_ok.1 hq
  cases hq
  intro g'' hmem
  obtain ⟨d, hd, hdc⟩ := List.mem_map.1 hmem
  have hd : d ∈ (Location.entry e.host e.key e.elem g.newCache.2 []).chain g'' := hd
  rcases Location.mem_chain_entry hd with rfl | ⟨_, hd⟩
  · have hnew : e.cache.index = g.nextCache := congrArg CacheId.index hdc.symm
    omega
  · have hown := hlt d.cache (Location.caches_of_mem_chain hd).1
    rw [hdc] at hown
    omega

/-- A write changes one cell, and caches on the way to it; a map in another cell stays as it is,
also where the write went past a pointer stored in it. A handle on an entry that has a copy in its
cache answers the same until that cache is written through, and the handles one level below it
write through another. -/
theorem locality_and_isolation (hs : s.Unchecked) :
    (∀ h ∈ s.handles, ∀ v g, h.set s.graph v = .ok g →
      s.graph.SameOutside (h.base s.graph) ((h.chain s.graph).map Entry.cache) g ∧
      ∀ e, .entry e ∈ s.handles → e.host.base s.graph ≠ h.base s.graph →
        e.host.read g = e.host.read s.graph) ∧
    ∀ e v, .entry e ∈ s.handles → s.graph.cached? e.cache = some (.copy v) →
      (∀ t, Relation.ReflTransGen (Session.Aside e.cache) s t →
        (Handle.entry e).value? t.graph = (Handle.entry e).value? s.graph ∧
        (Handle.entry e).ty t.graph = (Handle.entry e).ty s.graph ∧
        (Handle.entry e).kind t.graph = (Handle.entry e).kind s.graph ∧
        (Handle.entry e).get t.graph = (Handle.entry e).get s.graph) ∧
      ∀ g h, (Handle.entry e).move s.graph .elem = .ok (g, h) →
        ∀ g', e.cache ∉ (h.chain g').map Entry.cache := by
  refine ⟨?_, ?_⟩
  · intro h hh v g hw
    refine ⟨Handle.sameOutside_set hw, ?_⟩
    intro e he hb
    have hhost : ∀ d ∈ e.host.entries, d ∈ s.entries :=
      fun d hd => Session.mem_entries.2 ⟨.entry e, he, .tail _ hd⟩
    exact hs.owned.read_of_set hh hw hhost hb
  · intro e v he hc
    have ha := hs.anchored _ he
    refine ⟨?_, fun g h hm => ha.cache_not_mem_elem hm⟩
    intro t hr
    have ht := (Session.cached_of_run hr ha.2.1).1.trans hc
    have hread : ∀ {g : Graph}, g.cached? e.cache = some (.copy v) →
        (Handle.entry e).read g = .ok (some v) := Location.current_copied
    refine ⟨?_, ?_, ?_, ?_⟩
    · simp only [Handle.value?, hread hc, hread ht]
    · simp only [Handle.ty, Entry.ty, hc, ht]
    · simp only [Handle.kind, Entry.kind, hc, ht]
    · have hr' : e.read t.graph = e.read s.graph := (hread ht).trans (hread hc).symm
      simp only [Handle.get, hr']

/-- The entry of an interface with a name, of which a copy is cached. -/
def label : Entry := ⟨.cell ⟨0⟩ [], .string "label", .any, ⟨0⟩⟩

/-- The entry of an interface with a pointer, which has been followed to the other cell. -/
def owner : Entry := ⟨.cell ⟨0⟩ [], .string "owner", .any, ⟨3⟩⟩

/-- Two cells, and the handles on the way to what the entries of the map in the first lead to. -/
def tagged : Session where
  graph := {
    cells := #[.map .string .any [(.string "label", .boxed (.string "web")),
      (.string "owner", .boxed (.pointer .string ⟨1⟩))], .string "ann"]
    caches := [(0, .copy (.boxed (.string "web"))), (2, .copy (.pointer .string ⟨1⟩)),
      (3, .target ⟨1⟩ [])]
    nextCache := 4
    holds := [] }
  handles := [.entry owner, .entry { owner with cache := ⟨2⟩ }, .entry { owner with cache := ⟨1⟩ },
    .entry label, .root ⟨0⟩]

theorem unchecked_tagged : tagged.Unchecked := by
  have h₁ := Session.Unchecked.start.step (.alloc (v := .map .string .any
    [(.string "owner", .boxed (.pointer .string ⟨1⟩))]) trivial)
  have h₂ := h₁.step (.alloc (v := .string "ann") trivial)
  have h₃ := h₂.step (.root (c := ⟨0⟩) rfl)
  have h₄ := h₃.step (.move (m := .entry (.string "label")) (.head _) rfl)
  have h₅ := h₄.step (.set (v := .boxed (.string "web")) (.head _) trivial rfl)
  have h₆ := h₅.step (.move (h := .root ⟨0⟩) (m := .entry (.string "owner")) (by simp) rfl)
  have h₇ := h₆.step (.move (m := .elem) (.head _) rfl)
  exact h₇.step (.move (m := .elem) (.head _) rfl)

/-- The owner is renamed and the map stays as it is. Then the map is emptied, and the label is still
the one that was cached. -/
theorem locality_and_isolation_tagged : tagged.Unchecked ∧
    (∃ g, (Handle.entry owner).set tagged.graph (.string "bob") = .ok g ∧
      g.content? ⟨1⟩ = some (.string "bob") ∧
      owner.host.read g = owner.host.read tagged.graph) ∧
    (∃ g, (Handle.root ⟨0⟩).set tagged.graph (.map .string .any []) = .ok g ∧
      g.content? ⟨0⟩ = some (.map .string .any []) ∧
      (Handle.entry label).value? g = some (.boxed (.string "web"))) ∧
    ∃ g h, (Handle.entry label).move tagged.graph .elem = .ok (g, h) ∧
      ∀ g', label.cache ∉ (h.chain g').map Entry.cache := by
  have hall := locality_and_isolation unchecked_tagged
  have hown : Handle.entry owner ∈ tagged.handles := .head _
  have hlabel : Handle.entry label ∈ tagged.handles := by simp [tagged]
  have hroot : Handle.root ⟨0⟩ ∈ tagged.handles := by simp [tagged]
  obtain ⟨g₁, hg₁, hc₁⟩ : ∃ g, (Handle.entry owner).set tagged.graph (.string "bob") = .ok g ∧
    g.content? ⟨1⟩ = some (.string "bob") := ⟨_, rfl, rfl⟩
  obtain ⟨g₂, hg₂, hc₂⟩ : ∃ g, (Handle.root ⟨0⟩).set tagged.graph (.map .string .any []) = .ok g ∧
    g.content? ⟨0⟩ = some (.map .string .any []) := ⟨_, rfl, rfl⟩
  obtain ⟨g₃, h, hm⟩ : ∃ g h, (Handle.entry label).move tagged.graph .elem = .ok (g, h) :=
    ⟨_, _, rfl⟩
  have hrun : Relation.ReflTransGen (Session.Aside label.cache) tagged
      { tagged with graph := g₂ } :=
    .single (.set hroot (by simp [Handle.chain, Handle.root, Location.chain]) hg₂)
  obtain ⟨hruns, helem⟩ := hall.2 label _ hlabel rfl
  exact ⟨unchecked_tagged,
    ⟨g₁, hg₁, hc₁, (hall.1 _ hown _ g₁ hg₁).2 owner hown (by decide)⟩,
    ⟨g₂, hg₂, hc₂, (hruns _ hrun).1⟩,
    g₃, h, hm, helem g₃ h hm⟩

end ObjectGraph
