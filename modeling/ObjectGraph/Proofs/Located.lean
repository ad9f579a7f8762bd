import ObjectGraph.Proofs.Commute

/-! Slots found along a path. A reader and a writer go along a path by rules of their own, and they
come to the same part or to the same fault. What is put into the slot that the writer has found is
what a reader finds there, and nothing on the way or beside it is another value. -/
namespace ObjectGraph

/-- A slot in a value: what it holds, and the whole value with anything else in it. -/
structure Slot where
  held : Value
  fill : Value → Value

namespace Value

variable {v v' w : Value} {s next : Step} {p q : Path} {slot : Slot}
  {f : Value → Except Fault Value}

/-- The slot one step away. -/
def slotAt : Step → Value → Except Fault Slot
  | .field i, v@(struct layout fields) =>
    match fields[i]? with
    | some w => .ok ⟨w, fun u => struct layout (fields.set i u)⟩
    | none => .error (.unresolved (.noPart (.field i) v.ty))
  | .index i, nilSlice _ => .error (.indexOutOfRange i 0)
  | .index i, slice elem items =>
    match items[i]? with
    | some w => .ok ⟨w, fun u => slice elem (items.set i u)⟩
    | none => .error (.indexOutOfRange i items.length)
  | .unbox, boxed w => .ok ⟨w, boxed⟩
  | step, v => .error (.unresolved (.noPart step v.ty))

/-- The slot at the end of a path. -/
def locate : Path → Value → Except Fault Slot
  | [], v => .ok ⟨v, id⟩
  | step :: path, v => do
    let outer ← v.slotAt step
    let inner ← outer.held.locate path
    return ⟨inner.held, fun w => outer.fill (inner.fill w)⟩

/-- A value looks from outside as it did: it has its type and as many parts as before, and it is
nil if it was. -/
structure SameFrame (v v' : Value) : Prop where
  ty : v'.ty = v.ty
  parts : v'.inside.length = v.inside.length
  nil : v'.isNil? = v.isNil?

/-! One step -/

/-- All that a step can come to: the reader and the writer fail for one cause, or they find one
slot. -/
theorem slotAt_cases (s : Step) (v : Value) :
    (∃ e, v.slotAt s = .error e ∧ v.part s = .error e ∧ ∀ f, v.changePart f s = .error e) ∨
    ∃ slot : Slot, v.slotAt s = .ok slot ∧ v.part s = .ok slot.held ∧
      (∀ f, v.changePart f s = slot.fill <$> f slot.held) ∧
      ∀ w, setPart w s.hop v = some (slot.fill w) := by
  cases s with
  | field i =>
    cases v with
    | struct layout fields =>
      cases hi : fields[i]? with
      | none =>
        simp only [slotAt, part, changePart, hi]
        exact Or.inl ⟨_, rfl, rfl, fun _ => rfl⟩
      | some u =>
        have hlt := (List.getElem?_eq_some_iff.1 hi).1
        simp only [slotAt, part, changePart, hi]
        exact Or.inr ⟨_, rfl, rfl, fun _ => rfl, fun _ => if_pos hlt⟩
    | _ => exact Or.inl ⟨_, rfl, rfl, fun _ => rfl⟩
  | index i =>
    cases v with
    | slice elem items =>
      cases hi : items[i]? with
      | none =>
        simp only [slotAt, part, changePart, hi]
        exact Or.inl ⟨_, rfl, rfl, fun _ => rfl⟩
      | some u =>
        have hlt := (List.getElem?_eq_some_iff.1 hi).1
        simp only [slotAt, part, changePart, hi]
        exact Or.inr ⟨_, rfl, rfl, fun _ => rfl, fun _ => if_pos hlt⟩
    | _ => exact Or.inl ⟨_, rfl, rfl, fun _ => rfl⟩
  | unbox =>
    cases v with
    | boxed u => exact Or.inr ⟨_, rfl, rfl, fun _ => rfl, fun _ => rfl⟩
    | _ => exact Or.inl ⟨_, rfl, rfl, fun _ => rfl⟩

theorem slotAt_spec (h : v.slotAt s = .ok slot) :
    v.part s = .ok slot.held ∧ ∀ w, setPart w s.hop v = some (slot.fill w) := by
  rcases slotAt_cases s v with ⟨e, he, _⟩ | ⟨_, hs, hp, _, hset⟩
  · cases he.symm.trans h
  · cases hs.symm.trans h
    exact ⟨hp, hset⟩

/-- Any other step leads where it led before, and fails as it failed before. -/
theorem part_setPart_ne (h : setPart w s.hop v = some v') (hn : next ≠ s) :
    v'.part next = v.part next := by
  rcases setPart_cases h with ⟨i, layout, fields, hs, rfl, -, rfl⟩ |
    ⟨i, elem, items, hs, rfl, -, rfl⟩ | ⟨k, _, _, _, hs, -⟩ | ⟨u, hs, rfl, rfl⟩
  · obtain rfl : s = .field i := Step.hop_injective hs
    cases next with
    | field j =>
      have hj : (fields.set i w)[j]? = fields[j]? :=
        List.getElem?_set_ne fun hij => hn (congrArg Step.field hij.symm)
      simp only [part, hj]
      rfl
    | _ => rfl
  · obtain rfl : s = .index i := Step.hop_injective hs
    cases next with
    | index j =>
      have hj : (items.set i w)[j]? = items[j]? :=
        List.getElem?_set_ne fun hij => hn (congrArg Step.index hij.symm)
      simp only [part, hj, List.length_set]
    | _ => rfl
  · cases s <;> cases hs
  · obtain rfl : s = .unbox := Step.hop_injective hs
    cases next with
    | unbox => exact absurd rfl hn
    | _ => rfl

/-- What has a part is not nil. -/
theorem sameFrame_setPart (h : setPart w s.hop v = some v') :
    v.SameFrame v' ∧ v.isNil? ≠ some true := by
  rcases setPart_cases h with ⟨_, _, _, -, rfl, -, rfl⟩ | ⟨_, _, _, -, rfl, -, rfl⟩ |
    ⟨_, _, _, _, hs, -⟩ | ⟨_, -, rfl, rfl⟩
  · exact ⟨⟨rfl, List.length_set, rfl⟩, by simp [isNil?]⟩
  · exact ⟨⟨rfl, List.length_set, rfl⟩, by simp [isNil?]⟩
  · cases s <;> cases hs
  · exact ⟨⟨rfl, rfl, rfl⟩, by simp [isNil?]⟩

/-! Whole paths -/

/-- The reader comes to what the slot holds, or fails for the same cause. -/
theorem held_locate : Slot.held <$> v.locate p = v.resolve p := by
  induction p generalizing v with
  | nil => rfl
  | cons s p ih =>
    rcases slotAt_cases s v with ⟨e, he, hp, _⟩ | ⟨outer, hs, hp, _⟩
    · simp only [locate, resolve, he, hp, error_bind, error_map]
    · simp only [locate, resolve, hs, hp, ok_bind, ← ih]
      cases outer.held.locate p <;> rfl

/-- To change the part at the end of a path is to put something else into the slot there. -/
theorem change_eq_locate :
    v.change f p = (do let slot ← v.locate p; return slot.fill (← f slot.held)) := by
  induction p generalizing v with
  | nil =>
    simp only [change, locate, ok_bind, id_eq]
    exact (bind_pure (f v)).symm
  | cons s p ih =>
    rcases slotAt_cases s v with ⟨e, he, _, hc⟩ | ⟨outer, hs, _, hc, _⟩
    · simp only [change, locate, he, hc, error_bind]
    · simp only [change, locate, hs, hc, ih, ok_bind]
      cases outer.held.locate p with
      | error e => rfl
      | ok inner => cases h : f inner.held <;> simp only [ok_bind, pure_bind, h] <;> rfl

theorem locate_cons (h : v.locate (s :: p) = .ok slot) :
    ∃ outer inner : Slot, v.slotAt s = .ok outer ∧ outer.held.locate p = .ok inner ∧
      slot = ⟨inner.held, fun w => outer.fill (inner.fill w)⟩ := by
  obtain ⟨outer, ho, h⟩ := bind_eq_ok.1 h
  obtain ⟨inner, hi, h⟩ := bind_eq_ok.1 h
  cases h
  exact ⟨outer, inner, ho, hi, rfl⟩

/-- What is put into the slot at the end of a path is found there. -/
theorem resolve_fill (h : v.locate p = .ok slot) : (slot.fill w).resolve p = .ok w := by
  induction p generalizing v slot with
  | nil =>
    cases h
    rfl
  | cons s p ih =>
    obtain ⟨outer, inner, ho, hi, rfl⟩ := locate_cons h
    have hpart := part_of_part? (part?_setPart_self ((slotAt_spec ho).2 (inner.fill w)))
    simp only [resolve, hpart, ok_bind]
    exact ih hi

/-- A path that is apart leads where it led before, and fails as it failed before. -/
theorem resolve_fill_of_apart (h : v.locate p = .ok slot) (ha : q.Apart p) :
    (slot.fill w).resolve q = v.resolve q := by
  induction p generalizing v slot q with
  | nil => exact absurd List.nil_prefix ha.2
  | cons s p ih =>
    cases q with
    | nil => exact absurd List.nil_prefix ha.1
    | cons next q =>
      obtain ⟨outer, inner, ho, hi, rfl⟩ := locate_cons h
      obtain ⟨hpart, hset⟩ := slotAt_spec ho
      have hset := hset (inner.fill w)
      by_cases hn : next = s
      · subst hn
        have ha : Path.Apart q p := by simpa [Path.Apart] using ha
        simp only [resolve, hpart, part_of_part? (part?_setPart_self hset), ok_bind]
        exact ih hi ha
      · simp only [resolve, part_setPart_ne hset hn]

/-- All values that the path goes through look from outside as they did. -/
theorem sameFrame_fill (h : v.locate p = .ok slot) (hq : q <+: p) (hne : q ≠ p) :
    ∃ x x', v.resolve q = .ok x ∧ (slot.fill w).resolve q = .ok x' ∧ x.SameFrame x' ∧
      x.isNil? ≠ some true := by
  induction p generalizing v slot q with
  | nil => exact absurd (List.prefix_nil.1 hq) hne
  | cons s p ih =>
    obtain ⟨outer, inner, ho, hi, rfl⟩ := locate_cons h
    obtain ⟨hpart, hset⟩ := slotAt_spec ho
    have hset := hset (inner.fill w)
    cases q with
    | nil => exact ⟨v, outer.fill (inner.fill w), rfl, rfl, sameFrame_setPart hset⟩
    | cons next q =>
      obtain ⟨rfl, hqp⟩ := List.cons_prefix_cons.1 hq
      simp only [resolve, hpart, part_of_part? (part?_setPart_self hset), ok_bind]
      exact ih hi hqp fun he => hne (congrArg (next :: ·) he)

/-- A writer goes along a path to what a reader finds there, or it fails as the reader does. What it
puts into the slot is then found at the path, no path apart from it leads to another value or
another fault, and the values that the path goes through look as they did. -/
theorem locate_agrees (v : Value) (p : Path) :
    Slot.held <$> v.locate p = v.resolve p ∧
    (∀ f, v.change f p = (do let slot ← v.locate p; return slot.fill (← f slot.held))) ∧
    ∀ slot, v.locate p = .ok slot → ∀ w,
      (slot.fill w).resolve p = .ok w ∧
      (∀ q : Path, q.Apart p → (slot.fill w).resolve q = v.resolve q) ∧
      ∀ q : Path, q <+: p → q ≠ p →
        ∃ x x', v.resolve q = .ok x ∧ (slot.fill w).resolve q = .ok x' ∧ x.SameFrame x' ∧
          x.isNil? ≠ some true := by
  refine ⟨held_locate, fun f => change_eq_locate, ?_⟩
  intro slot h w
  refine ⟨resolve_fill h, fun q ha => resolve_fill_of_apart h ha, ?_⟩
  exact fun q hq hne => sameFrame_fill h hq hne

/-- A shelf in an interface, with a label and with two places, the second of them empty. -/
def stack : Value := .boxed (.struct ⟨"stack", [("label", .string), ("places", .slice .any)]⟩
  [.string "top", .slice .any [.boxed (.int 1), .nilAny]])

/-- A text is put where the number is. There is still nothing in the empty place, there is still no
ninth one, and there are two places as before. -/
theorem locate_agrees_stack : ∃ slot u,
    stack.locate [.unbox, .field 1, .index 0, .unbox] = .ok slot ∧ slot.held = .int 1 ∧
    slot.fill (.string "one") = u ∧
    u.resolve [.unbox, .field 1, .index 0, .unbox] = .ok (.string "one") ∧
    u.resolve [.unbox, .field 1, .index 1, .unbox] =
      .error (.unresolved (.noPart .unbox .any)) ∧
    u.resolve [.unbox, .field 1, .index 8] = .error (.indexOutOfRange 8 2) ∧
    ∃ x x', stack.resolve [.unbox, .field 1] = .ok x ∧ u.resolve [.unbox, .field 1] = .ok x' ∧
      x.SameFrame x' := by
  obtain ⟨hheld, _, hfill⟩ := locate_agrees stack [.unbox, .field 1, .index 0, .unbox]
  obtain ⟨slot, hs⟩ : ∃ slot, stack.locate [.unbox, .field 1, .index 0, .unbox] = .ok slot :=
    ⟨_, rfl⟩
  obtain ⟨hself, happart, hframe⟩ := hfill slot hs (.string "one")
  obtain ⟨x, x', hx, hx', hxx, _⟩ :=
    hframe [.unbox, .field 1] (by simp) (by simp)
  refine ⟨slot, _, hs, ?_, rfl, hself, ?_, ?_, x, x', hx, hx', hxx⟩
  · rw [hs] at hheld
    exact Except.ok.inj hheld
  · exact happart _ (by simp [Path.Apart])
  · exact happart _ (by simp [Path.Apart])

end Value

end ObjectGraph
