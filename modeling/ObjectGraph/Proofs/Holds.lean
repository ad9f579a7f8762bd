import ObjectGraph.Proofs.Acts
import ObjectGraph.Proofs.Locality

/-! Cells that a caller holds. A hold stops each write that ends in its cell, whatever copies are
cached on the way there, and what differs under a shared hold is nothing but those writes. -/
namespace ObjectGraph

variable {g g' : Graph} {hs : List (CellId × Hold)} {c d : CellId} {mode : Hold} {cache : CacheId}
  {key : Key} {elem : Ty} {path : Path} {host p : Location} {e : Entry} {h : Handle} {v : Value}
  {f : Value → Except Fault Value} {m : Move} {op : Operation} {q : Query}

/-! Writes that succeed -/

theorem Graph.isHeld_of_mem (hm : (c, mode) ∈ g.holds) : g.isHeld c = true :=
  List.any_eq_true.2 ⟨_, hm, by simp⟩

theorem Graph.free_of_update (h : g.update c path f = .ok g') : g.isHeld c = false := by
  obtain ⟨_, _, hfree, _, _, _⟩ := update_cases h
  exact hfree

namespace Location

/-- The copies on the way do not take up a write: it has to come to the cell. -/
theorem free_of_storeEntry (path : Path)
    (hu : ∀ {f g₀}, host.update g f = .ok g₀ → g.isHeld (host.base g) = false)
    (hs : g.storeEntry cache key elem (host.update g) v = .ok g') :
    g.isHeld ((entry host key elem cache path).base g) = false := by
  rcases Graph.storeEntry_cases hs with ⟨c, r, ht, hs⟩ | ⟨hn, _, _, _, hg, _⟩
  · rw [base_of_target ht]
    exact Graph.free_of_update hs
  · rw [base_of_not_targets hn]
    exact hu hg

theorem free_of_update (h : p.update g f = .ok g') : g.isHeld (p.base g) = false := by
  induction p generalizing f g' with
  | cell c path => exact Graph.free_of_update h
  | entry host key elem cache path ih =>
    obtain ⟨_, _, _, _, hs⟩ := update_entry_cases h
    exact free_of_storeEntry path ih hs

end Location

namespace Handle

theorem free_of_set (hs : h.set g v = .ok g') : g.isHeld (h.base g) = false := by
  cases h with
  | direct p =>
    have hf := Location.free_of_update hs
    rwa [Location.base_withPath] at hf
  | entry e => exact Location.free_of_storeEntry [] Location.free_of_update hs

theorem free_of_writeDocument {d : Document} (hs : h.writeDocument g d = .ok g') :
    g.isHeld (h.base g) = false := by
  obtain ⟨_, _, hs⟩ := bind_eq_ok.1 hs
  exact free_of_set (mapError_eq_ok.1 hs)

end Handle

/-- The operation is to change what its handle leads to. -/
def Operation.IsWrite : Operation → Prop
  | set _ | write _ => True
  | move _ | ask _ => False

theorem Handle.free_of_outcome {r : Graph × Answer} (hop : op.IsWrite)
    (ho : h.outcome g op = .ok r) : g.isHeld (h.base g) = false := by
  cases op with
  | set v =>
    obtain ⟨_, hs, _⟩ := bind_eq_ok.1 ho
    exact free_of_set (mapError_eq_ok.1 hs)
  | write d =>
    obtain ⟨_, hs, _⟩ := bind_eq_ok.1 ho
    exact free_of_writeDocument hs
  | move m => cases hop
  | ask q => cases hop

/-! Other holds -/

namespace Graph

/-- The same cells and caches under other holds. -/
def under (g : Graph) (hs : List (CellId × Hold)) : Graph := { g with holds := hs }

/-- The graph with one hold less. -/
def without (g : Graph) (c : CellId) (mode : Hold) : Graph := g.under (g.holds.erase (c, mode))

/-- Under the other holds a reader finds the same in each cell. -/
def ReadsUnder (g : Graph) (hs : List (CellId × Hold)) : Prop :=
  ∀ d, (g.under hs).readable d = g.readable d

theorem readsUnder_erase : g.ReadsUnder (g.holds.erase (c, .shared)) := by
  intro d
  have hd : (d, Hold.exclusive) ∈ g.holds.erase (c, .shared) ↔ (d, Hold.exclusive) ∈ g.holds :=
    List.mem_erase_of_ne (by simp)
  simp only [readable, isHeldExclusively, under, List.contains_eq_mem, hd]
  rfl

theorem writable_without (hd : d ≠ c) : (g.without c mode).writable d = g.writable d := by
  have hheld : (g.without c mode).isHeld d = g.isHeld d := by
    rw [Bool.eq_iff_iff]
    simp only [isHeld, List.any_eq_true, decide_eq_true_eq]
    refine exists_congr fun x => and_congr_left fun hx => List.mem_erase_of_ne ?_
    rintro rfl
    exact hd hx.symm
  simp only [writable, hheld]
  rfl

theorem load_under (hr : g.ReadsUnder hs) : (g.under hs).load c path = g.load c path := by
  simp only [load, hr c]

theorem current_under {map : Except Fault Value} (hr : g.ReadsUnder hs) :
    (g.under hs).current cache key map = g.current cache key map := by
  simp only [current, load_under hr]
  rfl

theorem cellDocument_under (hr : g.ReadsUnder hs) {n : Nat} :
    (g.under hs).cellDocument n = g.cellDocument n := by
  induction n with
  | zero => rfl
  | succ n ih =>
    funext c
    simp only [cellDocument, hr c, ih]

theorem update_under (hw : (g.under hs).writable c = g.writable c) :
    (g.under hs).update c path f = (·.under hs) <$> g.update c path f := by
  simp only [update, hw, map_bind]
  rfl

end Graph

namespace Location

theorem read_under (hr : g.ReadsUnder hs) : p.read (g.under hs) = p.read g :=
  read_congr (hr _) fun _ _ => rfl

theorem kind_under (hr : g.ReadsUnder hs) : p.kind (g.under hs) = p.kind g := by
  simp only [kind, read_under hr]

/-- A write to an entry needs its own cell only. -/
theorem storeEntry_under (path : Path)
    (hw : (g.under hs).writable ((entry host key elem cache path).base g) =
      g.writable ((entry host key elem cache path).base g))
    (hu : (g.under hs).writable (host.base g) = g.writable (host.base g) →
      ∀ f, host.update (g.under hs) f = (·.under hs) <$> host.update g f) :
    (g.under hs).storeEntry cache key elem (host.update (g.under hs)) v =
      (·.under hs) <$> g.storeEntry cache key elem (host.update g) v := by
  by_cases ht : g.Targets cache
  · obtain ⟨c, r, ht⟩ := ht
    have ht' : (g.under hs).cached? cache = some (.target c r) := ht
    rw [base_of_target ht] at hw
    simp only [Graph.storeEntry, ht, ht']
    exact Graph.update_under hw
  · rw [base_of_not_targets ht] at hw
    rw [storeEntry_eq ht, storeEntry_eq (g := g.under hs) ht]
    simp only [hu hw, map_eq_pure_bind, bind_assoc, pure_bind]
    rfl

theorem update_under (hr : g.ReadsUnder hs)
    (hw : (g.under hs).writable (p.base g) = g.writable (p.base g)) :
    p.update (g.under hs) f = (·.under hs) <$> p.update g f := by
  induction p generalizing f with
  | cell c path => exact Graph.update_under hw
  | entry host key elem cache path ih =>
    -- the copy that is changed comes of a read, so the holds have a part only in putting it back
    simp only [Location.update, Graph.current_under hr, read_under hr, map_bind]
    refine bind_congr fun current => ?_
    cases current with
    | none => rfl
    | some whole =>
      rw [map_bind]
      exact bind_congr fun _ => storeEntry_under path hw fun hw _ => ih hw

end Location

namespace Entry

theorem read_under (hr : g.ReadsUnder hs) : e.read (g.under hs) = e.read g := by
  simp only [read, Graph.current_under hr, Location.read_under hr]

theorem ty_under (hr : g.ReadsUnder hs) : e.ty (g.under hs) = e.ty g := by
  simp only [ty, Graph.load_under hr]
  rfl

theorem kind_under (hr : g.ReadsUnder hs) : e.kind (g.under hs) = e.kind g := by
  simp only [kind, Location.kind_under hr]
  rfl

theorem below_under (hr : g.ReadsUnder hs) : e.below (g.under hs) = e.below g := by
  simp only [below, Graph.load_under hr, read_under hr]
  rfl

end Entry

namespace Handle

theorem move_under (hr : g.ReadsUnder hs) :
    h.move (g.under hs) m = (fun r => (r.1.under hs, r.2)) <$> h.move g m := by
  have hp : ∀ p : Location, p.read (g.under hs) = p.read g := fun p => Location.read_under hr
  have hl : h.location (g.under hs) = h.location g := by cases h <;> rfl
  cases m with
  | elem =>
    cases h with
    | direct p =>
      simp only [move, elem, Location.deref, hp, map_bind]
      rfl
    | entry e =>
      simp only [move, elem, Entry.deref, Entry.below_under hr]
      cases e.below g <;> rfl
  | field name =>
    simp only [move, field, hl, Location.field, hp, map_bind]
    rfl
  | index i =>
    simp only [move, index, hl, Location.index, hp, map_bind]
    rfl
  | entry key =>
    simp only [move, entryAt, hl, Location.elemFor, hp, map_bind]
    rfl

theorem read_under (hr : g.ReadsUnder hs) : h.read (g.under hs) = h.read g := by
  cases h with
  | direct p => simp only [read, Location.read_under hr]
  | entry e => exact Entry.read_under hr

theorem get_under (hr : g.ReadsUnder hs) : h.get (g.under hs) = h.get g := by
  cases h with
  | direct p => simp only [get, Location.read_under hr]
  | entry e => simp only [get, Entry.read_under hr]

theorem present_under (hr : g.ReadsUnder hs) : h.present (g.under hs) = h.present g := by
  cases h with
  | direct p => simp only [present, Location.read_under hr]
  | entry e => simp only [present, Entry.read_under hr]

theorem ty_under (hr : g.ReadsUnder hs) : h.ty (g.under hs) = h.ty g := by
  cases h with
  | direct p => simp only [ty, Location.read_under hr]
  | entry e => exact Entry.ty_under hr

theorem kind_under (hr : g.ReadsUnder hs) : h.kind (g.under hs) = h.kind g := by
  cases h with
  | direct p => exact Location.kind_under hr
  | entry e => exact Entry.kind_under hr

theorem answer_under (hr : g.ReadsUnder hs) : h.answer (g.under hs) q = h.answer g q := by
  cases q with
  | value => simp only [answer, value?, read_under hr]
  | ty => simp only [answer, ty_under hr]
  | kind => simp only [answer, kind_under hr]
  | get => simp only [answer, get_under hr]
  | isValid => simp only [answer, isValid, read_under hr]
  | isNil => simp only [answer, isNil, present_under hr]
  | length => simp only [answer, length, present_under hr]
  | isEmpty => simp only [answer, isEmpty, length, present_under hr]
  | document =>
    simp only [answer, readDocument, get_under hr, Value.document, Graph.cellDocument_under hr]
    rfl

theorem set_under (hr : g.ReadsUnder hs)
    (hw : (g.under hs).writable (h.base g) = g.writable (h.base g)) :
    h.set (g.under hs) v = (·.under hs) <$> h.set g v := by
  cases h with
  | direct p =>
    have hb : (p.withPath p.path.slot).base g = p.base g := Location.base_withPath
    exact Location.update_under hr (hb ▸ hw)
  | entry e =>
    exact Location.storeEntry_under [] hw fun hw _ => Location.update_under hr hw

theorem outcome_under (hr : g.ReadsUnder hs)
    (hw : op.IsWrite → (g.under hs).writable (h.base g) = g.writable (h.base g)) :
    h.outcome (g.under hs) op = (fun r => (r.1.under hs, r.2)) <$> h.outcome g op := by
  cases op with
  | move m =>
    simp only [outcome, move_under hr]
    cases h.move g m <;> rfl
  | set v =>
    simp only [outcome, set_under hr (hw trivial)]
    cases h.set g v <;> rfl
  | write d =>
    simp only [outcome, writeDocument, ty_under hr, set_under hr (hw trivial)]
    cases h.ty g with
    | error x => rfl
    | ok t =>
      simp only [mapError_ok, ok_bind]
      cases h.set g (d.valueFor t) <;> rfl
  | ask q =>
    simp only [outcome, answer_under hr, map_bind]
    rfl

/-- No operation on a handle takes a hold or gives one up. -/
theorem holds_of_outcome {r : Graph × Answer} (ho : h.outcome g op = .ok r) :
    r.1.holds = g.holds := by
  cases op with
  | move m =>
    obtain ⟨⟨g', h'⟩, hm, ho⟩ := bind_eq_ok.1 ho
    cases ho
    rcases move_cases (mapError_eq_ok.1 hm) with ⟨rfl, _⟩ | ⟨rfl, _⟩ | ⟨rfl, _⟩ |
      ⟨_, _, _, _, rfl, _⟩ <;> rfl
  | set v =>
    obtain ⟨g', hs, ho⟩ := bind_eq_ok.1 ho
    cases ho
    exact (sameOutside_set (mapError_eq_ok.1 hs)).holds
  | write d =>
    obtain ⟨g', hs, ho⟩ := bind_eq_ok.1 ho
    cases ho
    exact (sameOutside_writeDocument hs).holds
  | ask q =>
    obtain ⟨_, _, ho⟩ := bind_eq_ok.1 ho
    cases ho
    rfl

/-- Whoever holds the cells, an entry with a copy in its cache answers from the copy. -/
theorem answer_of_copy (hc : g.cached? e.cache = some (.copy v)) (hq : q ≠ .document) :
    (entry e).answer (g.under hs) q = (entry e).answer g q := by
  have hc' : (g.under hs).cached? e.cache = some (.copy v) := hc
  have hr : e.read (g.under hs) = e.read g :=
    (Entry.read_of_copy hc').trans (Entry.read_of_copy hc).symm
  cases q with
  | ty => simp only [answer, Handle.ty, Entry.ty, hc, hc']
  | kind => simp only [answer, Handle.kind, Entry.kind, hc, hc']
  | document => exact absurd rfl hq
  | _ =>
    simp only [answer, value?, isValid, Handle.get, isNil, length, isEmpty, present, read, hr]

end Handle

/-- The program gives what it would give without the hold, and it leaves the graph that it would
leave, but for the hold. -/
def Act.Unaffected {ε α : Type} (a : Act ε α) (g : Graph) (c : CellId) (mode : Hold) : Prop :=
  a.run (g.without c mode) = ((a.run g).1, (a.run g).2.without c mode)

/-- So it is with an operation that comes to the same under the holds that are left. -/
theorem Act.unaffected_of_outcome
    (ho : h.outcome (g.without c mode) op =
      (fun r => (r.1.under (g.holds.erase (c, mode)), r.2)) <$> h.outcome g op) :
    (perform h op).Unaffected g c mode := by
  have hr : ∀ g, (perform h op).run g = settle g (h.outcome g op) := settles_perform h op
  rw [Unaffected, hr, hr, ho]
  cases hx : h.outcome g op with
  | error x => rfl
  | ok r =>
    have hh : r.1.holds = g.holds := Handle.holds_of_outcome hx
    simp only [ok_map, settle, Graph.without, hh]

/-- No write that ends in a cell that is held succeeds or changes anything. Were a shared hold given
up, then nothing else would come out in another way, and no answer that an entry gives from a copy
depends on any hold. -/
theorem holds_block_writes (hm : (c, mode) ∈ g.holds) :
    (∀ h op, op.IsWrite → h.base g = c → ∃ x, (Act.perform h op).run g = (.error x, g)) ∧
    (mode = .shared → ∀ h op, (op.IsWrite → h.base g ≠ c) →
      (Act.perform h op).Unaffected g c mode) ∧
    ∀ e v q, g.cached? e.cache = some (.copy v) → q ≠ .document →
      (Act.perform (.entry e) (.ask q)).Unaffected g c mode := by
  refine ⟨?_, ?_, ?_⟩
  · intro h op hop hb
    have hr : (Act.perform h op).run g = Act.settle g (h.outcome g op) := Act.settles_perform h op g
    rw [hr]
    cases ho : h.outcome g op with
    | error x => exact ⟨x, rfl⟩
    | ok r =>
      -- had it succeeded, then its cell would be free
      have hfree := Handle.free_of_outcome hop ho
      rw [hb, Graph.isHeld_of_mem hm] at hfree
      cases hfree
  · rintro rfl h op hb
    exact Act.unaffected_of_outcome (Handle.outcome_under Graph.readsUnder_erase fun hop =>
      Graph.writable_without (hb hop))
  · intro e v q hc hq
    refine Act.unaffected_of_outcome ?_
    have ha : (Handle.entry e).answer (g.without c mode) q = (Handle.entry e).answer g q :=
      Handle.answer_of_copy hc hq
    simp only [Handle.outcome, ha, map_bind]
    rfl

/-- The tins on a shelf that is an entry of a map itself. -/
def tins : Entry :=
  ⟨.entry (.cell ⟨0⟩ []) (.string "shelf") (.map .string .int) ⟨0⟩ [], .string "tins", .int, ⟨1⟩⟩

/-- The tins have been counted, so that copies of them and of the shelf are cached. The second cell
has a count of its own. -/
def stock : Session where
  graph := {
    cells := #[.map .string (.map .string .int)
      [(.string "shelf", .map .string .int [(.string "tins", .int 2)])], .int 5]
    caches := [(0, .copy (.map .string .int [(.string "tins", .int 2)])), (1, .copy (.int 2))]
    nextCache := 2
    holds := [] }
  handles := [.entry tins, .entry ⟨.cell ⟨0⟩ [], .string "shelf", .map .string .int, ⟨0⟩⟩,
    .root ⟨0⟩]

theorem unchecked_stock : stock.Unchecked := by
  have h₁ := Session.Unchecked.start.step (.alloc (v := .map .string (.map .string .int)
    [(.string "shelf", .map .string .int [])]) trivial)
  have h₂ := h₁.step (.alloc (v := .int 5) trivial)
  have h₃ := h₂.step (.root (c := ⟨0⟩) rfl)
  have h₄ := h₃.step (.move (m := .entry (.string "shelf")) (.head _) rfl)
  have h₅ := h₄.step (.move (m := .entry (.string "tins")) (.head _) rfl)
  exact h₅.step (.set (v := .int 2) (.head _) trivial rfl)

/-- While the cell of the shelf is held, the tins, of which there could be three otherwise, stay as
they are, the other cell can be written, and an exclusive hold does not hide how many tins there
are. -/
theorem holds_block_writes_stock : stock.Unchecked ∧
    (∃ g, (Handle.entry tins).set stock.graph (.int 3) = .ok g) ∧
    (∃ x, (Act.perform (.entry tins) (.set (.int 3))).run (stock.graph.hold ⟨0⟩ .shared) =
      (.error x, stock.graph.hold ⟨0⟩ .shared)) ∧
    (Act.perform (.root ⟨1⟩) (.set (.int 6))).Unaffected (stock.graph.hold ⟨0⟩ .shared) ⟨0⟩
      .shared ∧
    (Act.perform (.entry tins) (.ask .value)).Unaffected (stock.graph.hold ⟨0⟩ .exclusive) ⟨0⟩
      .exclusive := by
  have hs : (⟨0⟩, Hold.shared) ∈ (stock.graph.hold ⟨0⟩ .shared).holds := .head _
  have hx : (⟨0⟩, Hold.exclusive) ∈ (stock.graph.hold ⟨0⟩ .exclusive).holds := .head _
  obtain ⟨hblocked, hother, -⟩ := holds_block_writes hs
  obtain ⟨-, -, hcopy⟩ := holds_block_writes hx
  exact ⟨unchecked_stock, ⟨_, rfl⟩, hblocked (.entry tins) _ trivial rfl,
    hother rfl (.root ⟨1⟩) _ fun _ => by decide, hcopy tins (.int 2) _ rfl (by decide)⟩

end ObjectGraph
