import ObjectGraph.Path

/-! Routes into values. Unlike a path, a route goes through map entries too, and what lies at its
end is replaced in place, with no copy on the way. -/
namespace ObjectGraph

/-- A hop from a value to a part of it. -/
inductive Hop where
  | field (i : Nat)
  | index (i : Nat)
  | key (k : Key)
  | content
  deriving DecidableEq, Repr

abbrev Route := List Hop

def Step.hop : Step → Hop
  | field i => .field i
  | index i => .index i
  | unbox => .content

/-- The route that a path is. -/
def Path.route (path : Path) : Route := path.map Step.hop

theorem Path.route_concat {path : Path} {s : Step} :
    Path.route (path ++ [s]) = path.route ++ [s.hop] := by
  simp [Path.route]

/-- The slot that a write at the end of a route fills: that of the interface, for its content. -/
def Route.slot (r : Route) : Route :=
  if r.getLast? = some .content then r.dropLast else r

/-- Neither route leads on from the other. -/
def Route.Apart (q r : Route) : Prop := ¬ q <+: r ∧ ¬ r <+: q

namespace Value

variable {v v' w w' u : Value} {hop next : Hop} {q r : Route} {s : Step} {path : Path}
  {f : Value → Except Fault Value} {e : Fault} {t : Ty}

/-- The part one hop away. -/
def part? : Hop → Value → Option Value
  | .field i, struct _ fields => fields[i]?
  | .index i, slice _ items => items[i]?
  | .key k, map _ _ entries => Assoc.get? k entries
  | .content, boxed w => some w
  | _, _ => none

/-- The value with `w` for the part one hop away. A map takes a new key as well. -/
def setPart (w : Value) : Hop → Value → Option Value
  | .field i, struct layout fields =>
    if i < fields.length then some (struct layout (fields.set i w)) else none
  | .index i, slice elem items =>
    if i < items.length then some (slice elem (items.set i w)) else none
  | .key k, map key elem entries => some (map key elem (Assoc.insert k w entries))
  | .content, boxed _ => some (boxed w)
  | _, _ => none

/-- The part at the end of a route. -/
def at? : Route → Value → Option Value
  | [], v => some v
  | hop :: r, v => (v.part? hop).bind (at? r)

/-- The value with `w` at the end of a route. All but the last hop lead to parts that are there. -/
def put (w : Value) : Route → Value → Option Value
  | [], _ => some w
  | [hop], v => setPart w hop v
  | hop :: next :: r, v => do
    let u ← v.part? hop
    let u' ← put w (next :: r) u
    setPart u' hop v

/-- The type of the slot one hop away. A map declares it for every key of its key type. -/
def partTy? : Hop → Value → Option Ty
  | .key k, map key elem _ => if k.ty = key then some elem else none
  | hop, v => (v.part? hop).map ty

/-- The type of the slot at the end of a route. -/
def slotTy? : Route → Value → Option Ty
  | [], v => some v.ty
  | [hop], v => v.partTy? hop
  | hop :: next :: r, v => (v.part? hop).bind (slotTy? (next :: r))

/-- The value as a slot of type `t` keeps it. -/
def heldAs (v : Value) (t : Ty) : Value := if t = .any then v.box else v

/-! One hop -/

/-- All that replacing a part can be. -/
theorem setPart_cases (h : setPart w hop v = some v') :
    (∃ i layout fields, hop = .field i ∧ v = struct layout fields ∧ i < fields.length ∧
      v' = struct layout (fields.set i w)) ∨
    (∃ i elem items, hop = .index i ∧ v = slice elem items ∧ i < items.length ∧
      v' = slice elem (items.set i w)) ∨
    (∃ k key elem entries, hop = .key k ∧ v = map key elem entries ∧
      v' = map key elem (Assoc.insert k w entries)) ∨
    (∃ u, hop = .content ∧ v = boxed u ∧ v' = boxed w) := by
  cases hop with
  | field i =>
    cases v with
    | struct layout fields =>
      obtain ⟨hi, h⟩ := Option.ite_none_right_eq_some.1 h
      cases h
      exact Or.inl ⟨i, layout, fields, rfl, rfl, hi, rfl⟩
    | _ => cases h
  | index i =>
    cases v with
    | slice elem items =>
      obtain ⟨hi, h⟩ := Option.ite_none_right_eq_some.1 h
      cases h
      exact Or.inr (Or.inl ⟨i, elem, items, rfl, rfl, hi, rfl⟩)
    | _ => cases h
  | key k =>
    cases v with
    | map key elem entries =>
      cases h
      exact Or.inr (Or.inr (Or.inl ⟨k, key, elem, entries, rfl, rfl, rfl⟩))
    | _ => cases h
  | content =>
    cases v with
    | boxed u =>
      cases h
      exact Or.inr (Or.inr (Or.inr ⟨u, rfl, rfl, rfl⟩))
    | _ => cases h

theorem ty_setPart (h : setPart w hop v = some v') : v'.ty = v.ty := by
  rcases setPart_cases h with ⟨_, _, _, -, rfl, -, rfl⟩ | ⟨_, _, _, -, rfl, -, rfl⟩ |
    ⟨_, _, _, _, -, rfl, rfl⟩ | ⟨_, -, rfl, rfl⟩ <;> rfl

theorem part?_setPart_self (h : setPart w hop v = some v') : v'.part? hop = some w := by
  rcases setPart_cases h with ⟨i, _, _, rfl, rfl, hi, rfl⟩ | ⟨i, _, _, rfl, rfl, hi, rfl⟩ |
    ⟨k, _, _, _, rfl, rfl, rfl⟩ | ⟨_, rfl, rfl, rfl⟩
  · simp [part?, hi]
  · simp [part?, hi]
  · exact Assoc.get?_insert_self
  · rfl

theorem part?_setPart_ne (h : setPart w hop v = some v') (hn : next ≠ hop) :
    v'.part? next = v.part? next := by
  rcases setPart_cases h with ⟨i, _, _, rfl, rfl, -, rfl⟩ | ⟨i, _, _, rfl, rfl, -, rfl⟩ |
    ⟨k, _, _, _, rfl, rfl, rfl⟩ | ⟨_, rfl, rfl, rfl⟩
  · cases next with
    | field j => exact List.getElem?_set_ne fun he => hn (congrArg Hop.field he.symm)
    | _ => rfl
  · cases next with
    | index j => exact List.getElem?_set_ne fun he => hn (congrArg Hop.index he.symm)
    | _ => rfl
  · cases next with
    | key j => exact Assoc.get?_insert_ne fun he => hn (congrArg Hop.key he)
    | _ => rfl
  · cases next with
    | content => exact absurd rfl hn
    | _ => rfl

theorem setPart_setPart (h : setPart w hop v = some v') : setPart w' hop v' = setPart w' hop v := by
  rcases setPart_cases h with ⟨i, _, _, rfl, rfl, -, rfl⟩ | ⟨i, _, _, rfl, rfl, -, rfl⟩ |
    ⟨k, _, _, _, rfl, rfl, rfl⟩ | ⟨_, rfl, rfl, rfl⟩
  · simp [setPart]
  · simp [setPart]
  · simp [setPart, Assoc.insert_insert]
  · rfl

/-- Two parts are replaced in either order. -/
theorem setPart_comm (h : setPart w hop v = some v') (h' : setPart w' next v = some u)
    (hn : hop ≠ next) : setPart w' next v' = setPart w hop u := by
  rcases setPart_cases h with ⟨i, _, _, rfl, rfl, hi, rfl⟩ | ⟨i, _, _, rfl, rfl, hi, rfl⟩ |
    ⟨k, _, _, _, rfl, rfl, rfl⟩ | ⟨_, rfl, rfl, rfl⟩
  · cases next with
    | field j =>
      obtain ⟨hj, h'⟩ := Option.ite_none_right_eq_some.1 h'
      cases h'
      have hij : i ≠ j := fun he => hn (congrArg Hop.field he)
      simp [setPart, hi, hj, List.set_comm _ _ hij]
    | _ => cases h'
  · cases next with
    | index j =>
      obtain ⟨hj, h'⟩ := Option.ite_none_right_eq_some.1 h'
      cases h'
      have hij : i ≠ j := fun he => hn (congrArg Hop.index he)
      simp [setPart, hi, hj, List.set_comm _ _ hij]
    | _ => cases h'
  · cases next with
    | key l =>
      cases h'
      have hkl : k ≠ l := fun he => hn (congrArg Hop.key he)
      simp [setPart, Assoc.insert_comm hkl]
    | _ => cases h'
  · cases next with
    | content => exact absurd rfl hn
    | _ => cases h'

/-! Routes -/

theorem put_cons (h : v.part? hop = some u) :
    put w (hop :: r) v = (put w r u).bind (setPart · hop v) := by
  cases r <;> simp [put, h]

theorem at?_append : at? (q ++ r) v = (at? q v).bind (at? r) := by
  induction q generalizing v with
  | nil => rfl
  | cons hop q ih => cases h : v.part? hop <;> simp [at?, h, ih]

/-- The last hop of a write is all that its part need not be there for. -/
theorem setPart_of_put (h : put w (hop :: r) v = some v') :
    ∃ u', setPart u' hop v = some v' ∧
      (r = [] ∧ u' = w ∨ ∃ u, v.part? hop = some u ∧ put w r u = some u') := by
  cases r with
  | nil => exact ⟨w, h, Or.inl ⟨rfl, rfl⟩⟩
  | cons next r =>
    obtain ⟨u, hu, h⟩ := Option.bind_eq_some_iff.1 h
    obtain ⟨u', hu', h⟩ := Option.bind_eq_some_iff.1 h
    exact ⟨u', h, Or.inr ⟨u, hu, hu'⟩⟩

/-- To put a value at the end of two routes is to change the part at the end of the first. -/
theorem put_append (h : at? q v = some u) :
    put w (q ++ r) v = (put w r u).bind (put · q v) := by
  induction q generalizing v with
  | nil =>
    cases h
    change put w r u = (put w r u).bind some
    simp
  | cons hop q ih =>
    obtain ⟨x, hx, hu⟩ := Option.bind_eq_some_iff.1 h
    simp only [List.cons_append, put_cons hx, ih hu, Option.bind_assoc]

theorem slotTy?_append (h : at? q v = some u) :
    slotTy? (q ++ hop :: r) v = slotTy? (hop :: r) u := by
  induction q generalizing v with
  | nil => cases h; rfl
  | cons next q ih =>
    obtain ⟨x, hx, hu⟩ := Option.bind_eq_some_iff.1 h
    cases q with
    | nil => simpa [slotTy?, hx] using ih hu
    | cons last q => simpa [slotTy?, hx] using ih hu

theorem ty_put (h : put w (hop :: r) v = some v') : v'.ty = v.ty := by
  obtain ⟨u', hs, _⟩ := setPart_of_put h
  exact ty_setPart hs

/-- A part put in the place of another of its type leaves the whole of its type. -/
theorem ty_put_of_at? (hv : at? r v = some u) (ht : w.ty = u.ty) (h : put w r v = some v') :
    v'.ty = v.ty := by
  cases r with
  | nil =>
    cases hv
    cases h
    exact ht
  | cons hop r => exact ty_put h

theorem at?_put_self (h : put w r v = some v') : at? r v' = some w := by
  induction r generalizing v v' with
  | nil => exact h.symm
  | cons hop r ih =>
    obtain ⟨u', hs, ⟨rfl, rfl⟩ | ⟨u, _, hu⟩⟩ := setPart_of_put h
    · simp [at?, part?_setPart_self hs]
    · simpa [at?, part?_setPart_self hs] using ih hu

/-- What no route to the new value leads to, or from it, stays as it was. -/
theorem at?_put_of_apart (h : put w r v = some v') (ha : Route.Apart q r) :
    at? q v' = at? q v := by
  induction r generalizing q v v' with
  | nil => exact absurd List.nil_prefix ha.2
  | cons hop r ih =>
    cases q with
    | nil => exact absurd List.nil_prefix ha.1
    | cons next q =>
      obtain ⟨u', hs, hu⟩ := setPart_of_put h
      by_cases hn : next = hop
      · subst hn
        have ha : Route.Apart q r := by simpa [Route.Apart] using ha
        rcases hu with ⟨rfl, _⟩ | ⟨u, hp, hu⟩
        · exact absurd List.nil_prefix ha.2
        · simpa [at?, hp, part?_setPart_self hs] using ih hu ha
      · simp [at?, part?_setPart_ne hs hn]

theorem put_eq_setPart {x : Value}
    (h : r = [] ∧ x = w ∨ ∃ u, v.part? hop = some u ∧ put w r u = some x) :
    put w (hop :: r) v = setPart x hop v := by
  rcases h with ⟨rfl, rfl⟩ | ⟨u, hu, hx⟩
  · rfl
  · rw [put_cons hu, hx, Option.bind_some]

/-- Two values are put at the ends of two routes in either order, if neither route leads on from the
other. -/
theorem put_comm (h : put w r v = some v') (h' : put w' q v = some u) (ha : Route.Apart r q) :
    put w' q v' = put w r u := by
  induction r generalizing q v v' u with
  | nil => exact absurd List.nil_prefix ha.1
  | cons hop r ih =>
    cases q with
    | nil => exact absurd List.nil_prefix ha.2
    | cons next q =>
      obtain ⟨x, hs, hx⟩ := setPart_of_put h
      obtain ⟨y, hs', hy⟩ := setPart_of_put h'
      by_cases hn : hop = next
      · subst hn
        have ha : Route.Apart r q := by simpa [Route.Apart] using ha
        rcases hx with ⟨rfl, _⟩ | ⟨z, hz, hx⟩
        · exact absurd List.nil_prefix ha.1
        rcases hy with ⟨rfl, _⟩ | ⟨z', hz', hy⟩
        · exact absurd List.nil_prefix ha.2
        cases hz.symm.trans hz'
        rw [put_cons (part?_setPart_self hs), put_cons (part?_setPart_self hs'), ih hx hy ha]
        simp only [setPart_setPart hs, setPart_setPart hs']
      · rw [put_eq_setPart (x := y) (part?_setPart_ne hs (Ne.symm hn) ▸ hy),
          put_eq_setPart (x := x) (part?_setPart_ne hs' hn ▸ hx), setPart_comm hs hs' hn]

/-! Paths as routes -/

/-- All that having a part one step away can be. -/
theorem part?_cases (h : v.part? s.hop = some u) :
    (∃ i layout fields, s = .field i ∧ v = struct layout fields ∧ fields[i]? = some u) ∨
    (∃ i elem items, s = .index i ∧ v = slice elem items ∧ items[i]? = some u) ∨
    (s = .unbox ∧ v = boxed u) := by
  cases s with
  | field i =>
    cases v with
    | struct layout fields => exact Or.inl ⟨i, layout, fields, rfl, rfl, h⟩
    | _ => cases h
  | index i =>
    cases v with
    | slice elem items => exact Or.inr (Or.inl ⟨i, elem, items, rfl, rfl, h⟩)
    | _ => cases h
  | unbox =>
    cases v with
    | boxed w =>
      cases h
      exact Or.inr (Or.inr ⟨rfl, rfl⟩)
    | _ => cases h

theorem part_of_part? (h : v.part? s.hop = some u) : v.part s = .ok u := by
  rcases part?_cases h with ⟨i, _, _, rfl, rfl, hi⟩ | ⟨i, _, _, rfl, rfl, hi⟩ | ⟨rfl, rfl⟩
  · simp only [part, hi]
  · simp only [part, hi]
  · rfl

theorem part?_of_part (h : v.part s = .ok u) : v.part? s.hop = some u := by
  cases s with
  | field i =>
    cases v with
    | struct layout fields =>
      cases hi : fields[i]? with
      | none => simp only [part, hi] at h; cases h
      | some w =>
        simp only [part, hi] at h
        cases h
        exact hi
    | _ => cases h
  | index i =>
    cases v with
    | slice elem items =>
      cases hi : items[i]? with
      | none => simp only [part, hi] at h; cases h
      | some w =>
        simp only [part, hi] at h
        cases h
        exact hi
    | _ => cases h
  | unbox =>
    cases v with
    | boxed w =>
      cases h
      rfl
    | _ => cases h

theorem changePart_of_part? (h : v.part? s.hop = some u) (hf : f u = .ok w) :
    ∃ v', setPart w s.hop v = some v' ∧ v.changePart f s = .ok v' := by
  rcases part?_cases h with ⟨i, layout, fields, rfl, rfl, hi⟩ | ⟨i, elem, items, rfl, rfl, hi⟩ |
    ⟨rfl, rfl⟩
  · have hlt := (List.getElem?_eq_some_iff.1 hi).1
    refine ⟨struct layout (fields.set i w), if_pos hlt, ?_⟩
    simp only [changePart, hi, hf]
    rfl
  · have hlt := (List.getElem?_eq_some_iff.1 hi).1
    refine ⟨slice elem (items.set i w), if_pos hlt, ?_⟩
    simp only [changePart, hi, hf]
    rfl
  · refine ⟨boxed w, rfl, ?_⟩
    simp only [changePart, hf]
    rfl

theorem changePart_error (h : v.part? s.hop = some u) (hf : f u = .error e) :
    v.changePart f s = .error e := by
  rcases part?_cases h with ⟨i, _, _, rfl, rfl, hi⟩ | ⟨i, _, _, rfl, rfl, hi⟩ | ⟨rfl, rfl⟩
  · simp only [changePart, hi, hf]
    rfl
  · simp only [changePart, hi, hf]
    rfl
  · simp only [changePart, hf]
    rfl

theorem changePart_absent (h : v.part? s.hop = none) : ∃ e, v.changePart f s = .error e := by
  cases s with
  | field i =>
    cases v with
    | struct layout fields =>
      have hi : fields[i]? = none := h
      simp only [changePart, hi]
      exact ⟨_, rfl⟩
    | _ => exact ⟨_, rfl⟩
  | index i =>
    cases v with
    | slice elem items =>
      have hi : items[i]? = none := h
      simp only [changePart, hi]
      exact ⟨_, rfl⟩
    | _ => exact ⟨_, rfl⟩
  | unbox =>
    cases v with
    | boxed w => cases h
    | _ => exact ⟨_, rfl⟩

/-- All that changing a part can be, with what is left of the whole. -/
theorem setPart_of_changePart (h : v.changePart f s = .ok v') :
    ∃ u u', v.part? s.hop = some u ∧ f u = .ok u' ∧ setPart u' s.hop v = some v' := by
  cases hp : v.part? s.hop with
  | none =>
    obtain ⟨e, he⟩ := changePart_absent (f := f) hp
    cases he.symm.trans h
  | some u =>
    cases hf : f u with
    | error e => cases (changePart_error hp hf).symm.trans h
    | ok u' =>
      obtain ⟨v'', hs, hc⟩ := changePart_of_part? hp hf
      cases hc.symm.trans h
      exact ⟨u, u', rfl, hf, hs⟩

theorem resolve_of_at? (h : at? path.route v = some w) : v.resolve path = .ok w := by
  induction path generalizing v with
  | nil => cases h; rfl
  | cons s path ih =>
    obtain ⟨u, hu, hw⟩ := Option.bind_eq_some_iff.1 h
    simp only [resolve, part_of_part? hu]
    exact ih hw

theorem at?_of_resolve (h : v.resolve path = .ok w) : at? path.route v = some w := by
  induction path generalizing v with
  | nil => cases h; rfl
  | cons s path ih =>
    cases hp : v.part s with
    | error e => simp only [resolve, hp] at h; cases h
    | ok u =>
      simp only [resolve, hp] at h
      exact Option.bind_eq_some_iff.2 ⟨u, part?_of_part hp, ih h⟩

/-- To change the part at the end of a path is to put its new value there. -/
theorem change_of_at? (h : at? path.route v = some w) (hf : f w = .ok w') :
    ∃ v', put w' path.route v = some v' ∧ v.change f path = .ok v' := by
  induction path generalizing v with
  | nil => cases h; exact ⟨w', rfl, hf⟩
  | cons s path ih =>
    obtain ⟨u, hu, hw⟩ := Option.bind_eq_some_iff.1 h
    obtain ⟨u', hp, hc⟩ := ih hw
    obtain ⟨v', hs, hv⟩ := changePart_of_part? hu hc
    exact ⟨v', (put_cons hu).trans (by rw [← Path.route, hp]; exact hs), hv⟩

theorem change_error (h : at? path.route v = some w) (hf : f w = .error e) :
    v.change f path = .error e := by
  induction path generalizing v with
  | nil => cases h; exact hf
  | cons s path ih =>
    obtain ⟨u, hu, hw⟩ := Option.bind_eq_some_iff.1 h
    exact changePart_error hu (ih hw)

/-- Where the part is there, nothing fails but the change of the part. -/
theorem error_of_change (h : at? path.route v = some w) (hc : v.change f path = .error e) :
    f w = .error e := by
  cases hf : f w with
  | error x => exact (change_error h hf).symm.trans hc
  | ok w' =>
    obtain ⟨v', _, hv⟩ := change_of_at? h hf
    cases hv.symm.trans hc

/-- What a change at the end of a path leaves is its new value put there. -/
theorem put_of_change (h : v.change f path = .ok v') :
    ∃ w w', at? path.route v = some w ∧ f w = .ok w' ∧ put w' path.route v = some v' := by
  induction path generalizing v v' with
  | nil => exact ⟨v, v', rfl, h, rfl⟩
  | cons s path ih =>
    obtain ⟨u, u', hu, hf, hs⟩ := setPart_of_changePart h
    obtain ⟨w, w', hw, hw', hput⟩ := ih hf
    refine ⟨w, w', ?_, hw', ?_⟩
    · exact Option.bind_eq_some_iff.2 ⟨u, hu, hw⟩
    · exact (put_cons hu).trans (Option.bind_eq_some_iff.2 ⟨u', hput, hs⟩)

/-- A change at the end of a path makes one part into another. -/
theorem change_cases (h : v.change f path = .ok v') :
    ∃ w w', v.resolve path = .ok w ∧ f w = .ok w' ∧ v'.resolve path = .ok w' := by
  obtain ⟨w, w', hw, hf, hput⟩ := put_of_change h
  exact ⟨w, w', resolve_of_at? hw, hf, resolve_of_at? (at?_put_self hput)⟩

end Value

end ObjectGraph
