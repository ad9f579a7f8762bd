import ObjectGraph.Proofs.Linked

/-! The lives of caches. A cache that leads past a pointer stays as it is, a copy gives way to
another copy only, and what was filled is never empty again. Sessions in which caches may lead
anywhere never come to a cache that leads to an entry: they are the sessions on graphs. -/
namespace ObjectGraph

variable {g g' : Graph} {i : CacheId} {p : Location} {h : Handle} {v : Value} {t t' : Session}
  {Given : Graph → Value → Prop}

/-- Caches that are given out were empty before. -/
theorem Graph.Grown.ages (hg : g.Grown g') (hf : g.Fresh) : g.Ages g' := by
  refine Graph.ages_of_cached fun i k hk => ?_
  have hi : i.index < g.nextCache := by
    by_contra hi
    cases (hf i (Nat.le_of_not_lt hi)).symm.trans hk
  exact (hg.cached i hi).trans hk

namespace Handle

/-- The direct reference that the handle has: its own location, or that of the map of its entry. -/
def reference : Handle → Location
  | direct p => p
  | entry e => e.host

/-- The caches that a write through the handle may come by on its way to the cell. -/
def caches : Handle → List CacheId
  | direct p => p.caches
  | entry e => e.cache :: e.host.caches

end Handle

theorem Location.Anchored.nodup (ha : p.Anchored g) : p.caches.Nodup := by
  induction p with
  | cell => exact List.nodup_nil
  | entry host key elem cache path ih =>
    obtain ⟨hh, _, hlt, _⟩ := ha
    exact List.nodup_cons.2 ⟨not_mem_caches hlt, ih hh⟩

theorem Location.Anchored.not_targets (ha : p.Anchored g) (hi : i ∈ p.caches) : ¬ g.Targets i := by
  induction p with
  | cell => cases hi
  | entry host key elem cache path ih =>
    obtain ⟨hh, _, _, hn⟩ := ha
    rcases List.mem_cons.1 hi with rfl | hi
    · exact hn
    · exact ih hh hi

theorem Handle.Anchored.nodup (ha : h.Anchored g) : h.caches.Nodup := by
  cases h with
  | direct p => exact Location.Anchored.nodup ha
  | entry e =>
    obtain ⟨hh, _, hlt⟩ := ha
    exact List.nodup_cons.2 ⟨Location.not_mem_caches hlt, hh.nodup⟩

theorem Handle.Anchored.reference (ha : h.Anchored g) : h.reference.Anchored g := by
  cases h with
  | direct p => exact ha
  | entry e => exact ha.1

theorem Session.Step.ages (ht : Step Given t t') (hf : t.graph.Fresh) : t.graph.Ages t'.graph := by
  cases ht with
  | alloc | hold | release => exact Graph.ages_of_cached fun _ _ hk => hk
  | root => exact .refl
  | move _ hm => exact (Handle.grown_move hm).ages hf
  | set _ _ hs => exact Handle.ages_set hs
  | write _ hs =>
    obtain ⟨_, _, hs⟩ := bind_eq_ok.1 hs
    exact Handle.ages_set (mapError_eq_ok.1 hs)

/-! Sessions with levels -/

/-- A graph whose caches may lead to any location, with the handles on it that are kept. -/
structure LinkedSession where
  graph : Linked
  handles : List Handle

def Session.linked (t : Session) : LinkedSession := ⟨t.graph.linked, t.handles⟩

namespace Linked

/-- Puts another graph under the caches. -/
def onGround (s : Linked) (g : Graph) : Linked := { s with ground := g }

/-- No cache that has something loses it. A target of a pointer stays as it is. -/
structure Ages (s s' : Linked) : Prop where
  filled : ∀ i, s.link? i ≠ none → s'.link? i ≠ none
  target : ∀ i p, s.link? i = some (.target p) → s'.link? i = some (.target p)
  copy : ∀ i v, s.link? i = some (.copy v) → ∃ w, s'.link? i = some (.copy w)

/-- Whatever is done with the handle ends in as many levels as it has maps around it, and comes to
what it comes to in `g`. -/
structure EndsAs (s : Linked) (g : Graph) (h : Handle) : Prop where
  read : ∀ n, h.nesting ≤ n → s.read n h = (h.read g).mapError .fault
  set : ∀ n v, h.nesting ≤ n → s.set n h v = (Graph.linked <$> h.set g v).mapError .fault
  move : ∀ n m, h.nesting ≤ n →
    s.move n h m = (Prod.map Graph.linked id <$> h.move g m).mapError .fault

theorem endsAs_linked : g.linked.EndsAs g h where
  read _ hn := by rw [meets_read.eq hn, id_map]
  set _ _ hn := meets_set.eq hn
  move _ _ hn := meets_move.eq hn

theorem link?_eq_target {q : Location} (h : g.linked.link? i = some (.target q)) :
    ∃ c path, q = .cell c path ∧ g.cached? i = some (.target c path) := by
  rw [link?_linked] at h
  obtain ⟨k, hk, h⟩ := Option.map_eq_some_iff.1 h
  cases k with
  | copy v => cases h
  | target c path =>
    cases h
    exact ⟨c, path, rfl, hk⟩

theorem link?_eq_copy (h : g.linked.link? i = some (.copy v)) : g.cached? i = some (.copy v) := by
  rw [link?_linked] at h
  obtain ⟨k, hk, h⟩ := Option.map_eq_some_iff.1 h
  cases k with
  | copy v =>
    cases h
    exact hk
  | target c path => cases h

theorem ages_linked (h : g.Ages g') : g.linked.Ages g'.linked := by
  have htarget : ∀ i q, g.linked.link? i = some (.target q) →
      g'.linked.link? i = some (.target q) := by
    intro i q hi
    obtain ⟨c, path, rfl, hk⟩ := link?_eq_target hi
    rw [link?_linked, h.target hk]
    rfl
  have hcopy : ∀ i v, g.linked.link? i = some (.copy v) →
      ∃ w, g'.linked.link? i = some (.copy w) := by
    intro i v hi
    obtain ⟨w, hw⟩ := h.copy (link?_eq_copy hi)
    refine ⟨w, ?_⟩
    rw [link?_linked, hw]
    rfl
  refine ⟨fun i hi => ?_, htarget, hcopy⟩
  obtain ⟨l, hl⟩ := Option.ne_none_iff_exists'.1 hi
  cases l with
  | copy v =>
    obtain ⟨w, hw⟩ := hcopy i v hl
    simp [hw]
  | target q => simp [htarget i q hl]

end Linked

namespace LinkedSession

/-- One operation, in whatever number of levels it needs. -/
inductive Step : LinkedSession → LinkedSession → Prop
  | alloc {s : LinkedSession} {v : Value} :
      Step s { s with graph := s.graph.onGround (s.graph.ground.alloc v).1 }
  | root {s : LinkedSession} {c : CellId} {v : Value}
      (hc : s.graph.ground.content? c = some v) : Step s { s with handles := .root c :: s.handles }
  | move {s : LinkedSession} {h h' : Handle} {m : Move} {n : Nat} {g : Linked}
      (hh : h ∈ s.handles) (hm : s.graph.move n h m = .ok (g, h')) : Step s ⟨g, h' :: s.handles⟩
  | set {s : LinkedSession} {h : Handle} {v : Value} {n : Nat} {g : Linked}
      (hh : h ∈ s.handles) (hs : s.graph.set n h v = .ok g) : Step s { s with graph := g }
  | hold {s : LinkedSession} {c : CellId} {mode : Hold} :
      Step s { s with graph := s.graph.onGround (s.graph.ground.hold c mode) }
  | release {s : LinkedSession} {c : CellId} :
      Step s { s with graph := s.graph.onGround (s.graph.ground.release c) }
  | put {s : LinkedSession} {c : CellId} {v : Value} :
      Step s { s with graph := s.graph.onGround (s.graph.ground.put c v) }

inductive Reachable : LinkedSession → Prop
  | start : Reachable (Session.linked ⟨.empty, []⟩)
  | step {s s' : LinkedSession} (hs : Reachable s) (ht : Step s s') : Reachable s'

variable {s s' : LinkedSession}

/-- A step from a session on a graph is one of that session. -/
theorem Step.unlinked (hs : Step t.linked s') (ht : t.Unchecked) :
    ∃ t' : Session, s' = t'.linked ∧ t'.Unchecked ∧ t.graph.Ages t'.graph := by
  have hstep : ∀ {t' : Session}, t.Step (fun _ _ => True) t' →
      t'.Unchecked ∧ t.graph.Ages t'.graph := fun hst => ⟨ht.step hst, hst.ages ht.fresh⟩
  cases hs with
  | alloc => exact ⟨_, rfl, hstep (.alloc trivial)⟩
  | root hc => exact ⟨_, rfl, hstep (.root hc)⟩
  | move hh hm =>
    obtain ⟨⟨g', h'⟩, hmove, hg⟩ := Linked.meets_move.of_ok hm
    cases hg
    exact ⟨⟨g', h' :: t.handles⟩, rfl, hstep (.move hh hmove)⟩
  | set hh hs =>
    obtain ⟨g', hset, rfl⟩ := Linked.meets_set.of_ok hs
    exact ⟨{ t with graph := g' }, rfl, hstep (.set hh trivial hset)⟩
  | hold => exact ⟨_, rfl, hstep .hold⟩
  | release => exact ⟨_, rfl, hstep .release⟩
  | put => exact ⟨_, rfl, ht.put, Graph.ages_of_cached fun _ _ hk => hk⟩

theorem Step.of_linked (hst : t.Step (fun _ _ => True) t') : Step t.linked t'.linked := by
  have hset : ∀ {h : Handle} {v : Value} {g : Graph}, h ∈ t.handles → h.set t.graph v = .ok g →
      Step t.linked (Session.linked { t with graph := g }) := by
    intro h v g hh hs
    refine .set (v := v) (n := h.nesting) hh ?_
    rw [Session.linked, Linked.meets_set.eq (Nat.le_refl _), hs]
    rfl
  cases hst with
  | alloc _ => exact .alloc
  | root hc => exact .root hc
  | @move h _ m _ hh hm =>
    refine .move (n := h.nesting) (m := m) hh ?_
    rw [Session.linked, Linked.meets_move.eq (Nat.le_refl _), hm]
    rfl
  | set hh _ hs => exact hset hh hs
  | write hh hs =>
    obtain ⟨_, _, hs⟩ := bind_eq_ok.1 hs
    exact hset hh (mapError_eq_ok.1 hs)
  | hold => exact .hold
  | release => exact .release

/-- Sessions with levels are the sessions on graphs. -/
theorem reachable_iff : s.Reachable ↔ ∃ t : Session, t.Unchecked ∧ s = t.linked := by
  constructor
  · intro hs
    induction hs with
    | start => exact ⟨_, .start, rfl⟩
    | step _ ht ih =>
      obtain ⟨t, hu, rfl⟩ := ih
      obtain ⟨t', rfl, hu', _⟩ := ht.unlinked hu
      exact ⟨t', hu', rfl⟩
  · rintro ⟨t, hu, rfl⟩
    induction hu with
    | start => exact .start
    | step _ ht ih => exact ih.step (.of_linked ht)
    | put _ ih => exact ih.step .put

theorem ages_of_run (hu : t.Unchecked) (hr : Relation.ReflTransGen Step t.linked s') :
    ∃ t' : Session, s' = t'.linked ∧ t'.Unchecked ∧ t.graph.Ages t'.graph := by
  induction hr with
  | refl => exact ⟨t, rfl, hu, .refl⟩
  | tail _ ht ih =>
    obtain ⟨t₁, rfl, hu₁, ha₁⟩ := ih
    obtain ⟨t₂, rfl, hu₂, ha₂⟩ := ht.unlinked hu₁
    exact ⟨t₂, rfl, hu₂, ha₁.trans ha₂⟩

end LinkedSession

/-- Sessions in which caches may lead anywhere are the sessions on graphs, so none of those caches
ever leads to an entry. What a cache has it keeps for the rest of a run, but that one copy may give
way to another. The caches by the way of a write are distinct, and none that a direct reference goes
through leads past a pointer. So reads, writes and moves end, in as many levels as the handle has
maps around it. -/
theorem caches_well_founded (s : LinkedSession) :
    (s.Reachable ↔ ∃ t : Session, t.Unchecked ∧ s = t.linked) ∧
    (s.Reachable →
      (∀ s', Relation.ReflTransGen LinkedSession.Step s s' → s.graph.Ages s'.graph) ∧
      (∀ i p, s.graph.link? i = some (.target p) → ∃ c path, p = .cell c path) ∧
      (∀ h ∈ s.handles, h.caches.Nodup ∧ ∀ p, p = h.reference ∨ p = s.graph.location h →
        ∀ i ∈ p.caches, ∀ q, s.graph.link? i ≠ some (.target q)) ∧
      ∀ t : Session, s = t.linked → ∀ h ∈ s.handles, s.graph.EndsAs t.graph h) := by
  refine ⟨LinkedSession.reachable_iff, fun hs => ?_⟩
  obtain ⟨t, hu, rfl⟩ := LinkedSession.reachable_iff.1 hs
  refine ⟨fun s' hr => ?_, fun i p hi => ?_, fun h hh => ?_, fun t' ht' h _ => ?_⟩
  · obtain ⟨t', rfl, _, ha⟩ := LinkedSession.ages_of_run hu hr
    exact Linked.ages_linked ha
  · obtain ⟨c, path, rfl, _⟩ := Linked.link?_eq_target hi
    exact ⟨c, path, rfl⟩
  · have ha : h.Anchored t.graph := hu.anchored h hh
    refine ⟨ha.nodup, fun p hp i hi q hq => ?_⟩
    obtain ⟨c, path, _, hk⟩ := Linked.link?_eq_target hq
    have hp : p.Anchored t.graph := by
      rcases hp with rfl | rfl
      · exact ha.reference
      · exact Linked.location_linked (g := t.graph) ▸ ha.location
    exact hp.not_targets hi ⟨c, path, hk⟩
  · rw [ht']
    exact Linked.endsAs_linked

/-- A map in an interface, whose one entry is a pointer. -/
def gates : Value := .map .string (.pointer .int) [(.string "gate", .pointer .int ⟨1⟩)]

/-- The map as the content of the entry that has the interface. -/
def north : Entry := ⟨.cell ⟨0⟩ [], .string "north", .any, ⟨1⟩⟩

/-- The entry with the pointer. -/
def gate : Entry := ⟨.entry (.cell ⟨0⟩ []) (.string "north") .any ⟨1⟩ [], .string "gate",
  .pointer .int, ⟨2⟩⟩

/-- The pointer was followed once, and its entry is kept. -/
def yard : Session where
  graph := {
    cells := #[.map .string .any [(.string "north", .boxed gates)], .int 5]
    caches := [(1, .copy gates), (3, .target ⟨1⟩ [])]
    nextCache := 4
    holds := [] }
  handles := [.entry { gate with cache := ⟨3⟩ }, .entry gate, .entry north,
    .entry { north with cache := ⟨0⟩ }, .root ⟨0⟩]

theorem unchecked_yard : yard.Unchecked := by
  have h₁ := Session.Unchecked.start.step
    (.alloc (v := .map .string .any [(.string "north", .boxed gates)]) trivial)
  have h₂ := h₁.step (.alloc (v := .int 5) trivial)
  have h₃ := h₂.step (.root (c := ⟨0⟩) rfl)
  have h₄ := h₃.step (.move (m := .entry (.string "north")) (.head _) rfl)
  have h₅ := h₄.step (.move (m := .elem) (.head _) rfl)
  have h₆ := h₅.step (.move (m := .entry (.string "gate")) (.head _) rfl)
  exact h₆.step (.move (m := .elem) (.head _) rfl)

/-- A write of a nil pointer to the entry replaces the copy of the map around it. The cache that was
filled by following the pointer leads where it led, and the entry is read in two levels. -/
theorem caches_well_founded_yard : yard.linked.Reachable ∧ ∃ s,
    Relation.ReflTransGen LinkedSession.Step yard.linked s ∧
    (∃ w, s.graph.link? ⟨1⟩ = some (.copy w)) ∧
    s.graph.link? ⟨3⟩ = some (.target (.cell ⟨1⟩ [])) ∧
    (Handle.entry gate).caches = [⟨2⟩, ⟨1⟩] ∧ (Handle.entry gate).caches.Nodup ∧
    ∀ n, 2 ≤ n → yard.linked.graph.read n (.entry gate) = .ok (some (.pointer .int ⟨1⟩)) := by
  obtain ⟨hiff, hreach⟩ := caches_well_founded yard.linked
  have hs : yard.linked.Reachable := hiff.2 ⟨yard, unchecked_yard, rfl⟩
  have hm : Handle.entry gate ∈ yard.linked.handles := .tail _ (.head _)
  obtain ⟨hages, _, hchains, hends⟩ := hreach hs
  obtain ⟨g, hg⟩ : ∃ g, (Handle.entry gate).set yard.graph (.nilPointer .int) = .ok g := ⟨_, rfl⟩
  have hrun := Relation.ReflTransGen.single
    (LinkedSession.Step.of_linked (t := yard) (.set (v := .nilPointer .int) hm trivial hg))
  have ha := hages _ hrun
  obtain ⟨hnodup, _⟩ := hchains _ hm
  exact ⟨hs, _, hrun, ha.copy _ gates rfl, ha.target _ _ rfl, rfl, hnodup,
    (hends yard rfl _ hm).read⟩

end ObjectGraph
