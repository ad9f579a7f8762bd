import ObjectGraph.Proofs.Chains

/-! What a write leaves in the slot that it overwrites, whatever was written there since the handle
was made. -/
namespace ObjectGraph

namespace Value

variable {v v' : Value} {s : Step} {path : Path} {f : Value → Except Fault Value}

theorem insert_cases {key : Key} {w : Value} (h : Value.insert key w v = .ok v') :
    ∃ k t es, v = map k t es ∧ v' = map k t (Assoc.insert key w es) := by
  cases v <;> cases h
  exact ⟨_, _, _, rfl, rfl⟩

theorem ty_of_insert {key : Key} {w : Value} (h : Value.insert key w v = .ok v') :
    v'.ty = v.ty := by
  obtain ⟨_, _, _, rfl, rfl⟩ := insert_cases h
  rfl

end Value

namespace Location

variable {g g' : Graph} {p : Location} {v : Value} {f : Value → Except Fault Value}

/-- An update makes what a location reads into what it reads afterwards. -/
theorem Anchored.update (ha : p.Anchored g) (h : p.update g f = .ok g') :
    ∃ w w', p.read g = .ok w ∧ f w = .ok w' ∧ p.read g' = .ok w' := by
  cases p with
  | cell c path =>
    obtain ⟨v, v', hc, hv, hch, rfl⟩ := Graph.update_cases h
    obtain ⟨w, w', hw, hf, hw'⟩ := Value.change_cases hch
    refine ⟨w, w', ?_, hf, ?_⟩
    · rw [Location.read, Graph.load, Graph.readable_of_free hc hv]
      exact hw
    · have hv' := Graph.content?_put_self (v := v') hv
      rw [Location.read, Graph.load, Graph.readable_of_free (g := g.put c v') hc hv']
      exact hw'
  | entry host key elem cache path =>
    obtain ⟨whole, whole', hr, hch, hs⟩ := update_entry_cases h
    obtain ⟨w, w', hw, hf, hw'⟩ := Value.change_cases hch
    rcases Graph.storeEntry_cases hs with ⟨c, path, ht, _⟩ | ⟨_, stored, g₀, _, _, rfl⟩
    · exact absurd ⟨c, path, ht⟩ ha.2.2.2
    · refine ⟨w, w', ?_, hf, ?_⟩
      · rw [Location.read, hr]
        exact hw
      · rw [Location.read, current_copied Graph.cached?_setCache_self]
        exact hw'

/-- A write overwrites what the slot of the location holds. -/
theorem Anchored.store (ha : p.Anchored g) (h : p.store g v = .ok g') :
    ∃ old new, (p.withPath p.path.slot).read g = .ok old ∧ v.overwrite p.path old = .ok new ∧
      (p.withPath p.path.slot).read g' = .ok new :=
  Anchored.update (anchored_withPath.2 ha) h

end Location

variable {Given : Graph → Value → Prop} {s : Session} {v : Value} {g : Graph}

/-- A write keeps the type of the slot that it overwrites. Only one to the content of an interface
may not: it leaves an interface in the slot, whatever has been written there since. -/
theorem ty_slot_of_set {p : Location} (hs : s.Reachable Given) (hp : .direct p ∈ s.handles)
    (h : (Handle.direct p).set s.graph v = .ok g) :
    ∃ old new, (p.withPath p.path.slot).read s.graph = .ok old ∧
      (p.withPath p.path.slot).read g = .ok new ∧
      (new.ty = old.ty ↔ (p.path.getLast? = some .unbox → old.ty = .any)) := by
  obtain ⟨old, new, ho, hw, hn⟩ := Location.Anchored.store (hs.anchored _ hp) h
  refine ⟨old, new, ho, hn, ?_⟩
  unfold Value.overwrite at hw
  split at hw
  · cases hw
    simp [*, Value.ty_box, eq_comm]
  · simp [*, Value.ty_of_assignTo hw]

/-- The content of the interface that is the first item of a list in an interface. -/
def item : Location := .cell ⟨0⟩ [.unbox, .index 0, .unbox]

/-- A cell with a list in an interface, and the handles on the way to what its first item holds. -/
def listed (items : Value) : Session where
  graph := (Graph.empty.alloc items.box).1
  handles := [.direct item, .direct (.cell ⟨0⟩ [.unbox, .index 0]), .direct (.cell ⟨0⟩ [.unbox]),
    .root ⟨0⟩]

theorem reachable_listed_any : (listed (.slice .any [.boxed (.int 1)])).Reachable Built := by
  have hb : Built .empty (.slice .any [.boxed (.int 1)]) :=
    .slice (rfl : Value.sliceOf .any [.int 1] = _) (by simpa using .int)
  have h₁ := Session.Reachable.start.step (.alloc hb.box)
  have h₂ := h₁.step (.root (c := ⟨0⟩) rfl)
  have h₃ := h₂.step (.move (m := .elem) (.head _) rfl)
  have h₄ := h₃.step (.move (m := .index 0) (.head _) rfl)
  exact h₄.step (.move (m := .elem) (.head _) rfl)

theorem ty_slot_of_set_item : ∃ g old new,
    (Handle.direct item).set (listed (.slice .any [.boxed (.int 1)])).graph (.bool true) = .ok g ∧
    (item.withPath item.path.slot).read (listed (.slice .any [.boxed (.int 1)])).graph = .ok old ∧
    (item.withPath item.path.slot).read g = .ok new ∧ new.ty = old.ty := by
  obtain ⟨g, hg⟩ : ∃ g, (Handle.direct item).set (listed (.slice .any [.boxed (.int 1)])).graph
    (.bool true) = .ok g := ⟨_, rfl⟩
  obtain ⟨old, new, ho, hn, hty⟩ := ty_slot_of_set reachable_listed_any (.head _) hg
  cases ho
  exact ⟨g, _, new, hg, rfl, hn, hty.2 fun _ => rfl⟩

/-- The list is replaced by one of integers, and the handle on the item is still kept. -/
theorem reachable_listed_int : (listed (.slice .int [.int 5])).Reachable Built := by
  have hb : Built (listed (.slice .any [.boxed (.int 1)])).graph (.slice .int [.int 5]) :=
    .slice (rfl : Value.sliceOf .int [.int 5] = _) (by simpa using .int)
  have hr : Handle.root ⟨0⟩ ∈ (listed (.slice .any [.boxed (.int 1)])).handles := by simp [listed]
  exact reachable_listed_any.step (.set hr hb rfl)

/-- A write through that handle puts an interface among the integers. -/
theorem set_item_of_ints : ∃ g, (listed (.slice .int [.int 5])).Reachable Built ∧
    .direct item ∈ (listed (.slice .int [.int 5])).handles ∧
    (Handle.direct item).set (listed (.slice .int [.int 5])).graph (.bool true) = .ok g ∧
    (item.withPath item.path.slot).read (listed (.slice .int [.int 5])).graph = .ok (.int 5) ∧
    (item.withPath item.path.slot).read g = .ok (.boxed (.bool true)) ∧
    (Value.boxed (.bool true)).ty ≠ (Value.int 5).ty :=
  ⟨_, reachable_listed_int, .head _, rfl, rfl, rfl, by decide⟩

/-- What an entry stores is of the key and element types of the map that it goes into just when the
map still has the type that it had when the entry was found. -/
theorem fits_of_set {e : Entry} (hs : s.Reachable Given) (he : .entry e ∈ s.handles)
    (hn : ¬ s.graph.Targets e.cache) (h : (Handle.entry e).set s.graph v = .ok g) :
    ∃ old k t es stored, e.host.read s.graph = .ok old ∧ e.host.read g = .ok (.map k t es) ∧
      Assoc.get? e.key es = some stored ∧
      ((k = e.key.ty ∧ t = stored.ty) ↔ old.ty = .map e.key.ty e.elem) := by
  obtain ⟨hh, hc, hlt⟩ := hs.anchored _ he
  rcases Graph.storeEntry_cases h with ⟨c, path, ht, _⟩ | ⟨_, stored, g₀, ha, hu, rfl⟩
  · exact absurd ⟨c, path, ht⟩ hn
  · obtain ⟨old, new, ho, hi, hr⟩ := hh.update hu
    obtain ⟨k, t, es, rfl, rfl⟩ := Value.insert_cases hi
    have hself : e.cache ∉ e.host.caches := fun hm => Nat.lt_irrefl _ (hlt _ hm)
    refine ⟨_, k, t, Assoc.insert e.key stored es, stored, ho,
      (Location.read_setCache hself).trans hr, Assoc.get?_insert_self, ?_⟩
    rw [Value.ty_of_assignTo ha]
    simp [Value.ty]

/-- The entry under a number in a map in an interface. -/
def numbered : Entry := ⟨.cell ⟨0⟩ [.unbox], .int 1, .bool, ⟨0⟩⟩

/-- A cell with a map in an interface, and the handles on the way to one entry. -/
def charted (entries : Value) : Session where
  graph := { (Graph.empty.alloc entries.box).1 with nextCache := 1 }
  handles := [.entry numbered, .direct (.cell ⟨0⟩ [.unbox]), .root ⟨0⟩]

theorem not_targets_charted {entries : Value} :
    ¬ (charted entries).graph.Targets numbered.cache := by
  rintro ⟨_, _, h⟩
  cases h

theorem reachable_charted_bool : (charted (.map .int .bool [])).Reachable Built := by
  have hb : Built .empty (.map .int .bool []) :=
    .map (rfl : Value.mapOf .int .bool [] = _) (by simp)
  have h₁ := Session.Reachable.start.step (.alloc hb.box)
  have h₂ := h₁.step (.root (c := ⟨0⟩) rfl)
  have h₃ := h₂.step (.move (m := .elem) (.head _) rfl)
  exact h₃.step (.move (m := .entry (.int 1)) (.head _) rfl)

theorem fits_of_set_numbered : ∃ g k t es stored,
    (Handle.entry numbered).set (charted (.map .int .bool [])).graph (.bool true) = .ok g ∧
    numbered.host.read g = .ok (.map k t es) ∧ Assoc.get? numbered.key es = some stored ∧
    k = numbered.key.ty ∧ t = stored.ty := by
  obtain ⟨g, hg⟩ : ∃ g, (Handle.entry numbered).set (charted (.map .int .bool [])).graph
    (.bool true) = .ok g := ⟨_, rfl⟩
  obtain ⟨old, k, t, es, stored, ho, hr, hs, hfit⟩ :=
    fits_of_set reachable_charted_bool (.head _) not_targets_charted hg
  cases ho
  exact ⟨g, k, t, es, stored, hg, hr, hs, hfit.2 rfl⟩

/-- The map is replaced by one of strings, and the handle on the entry is still kept. -/
theorem reachable_charted_string : (charted (.map .int .string [])).Reachable Built := by
  have hb : Built (charted (.map .int .bool [])).graph (.map .int .string []) :=
    .map (rfl : Value.mapOf .int .string [] = _) (by simp)
  have hr : Handle.root ⟨0⟩ ∈ (charted (.map .int .bool [])).handles := by simp [charted]
  exact reachable_charted_bool.step (.set hr hb rfl)

/-- A write through that handle puts a boolean among the strings. -/
theorem set_numbered_of_strings : ∃ g, (charted (.map .int .string [])).Reachable Built ∧
    .entry numbered ∈ (charted (.map .int .string [])).handles ∧
    ¬ (charted (.map .int .string [])).graph.Targets numbered.cache ∧
    (Handle.entry numbered).set (charted (.map .int .string [])).graph (.bool true) = .ok g ∧
    numbered.host.read g = .ok (.map .int .string [(.int 1, .bool true)]) ∧
    (Value.bool true).ty ≠ .string :=
  ⟨_, reachable_charted_string, .head _, not_targets_charted, rfl, rfl, by decide⟩

end ObjectGraph
