import ObjectGraph.Proofs.Built
import ObjectGraph.Proofs.Slots

/-! Types in which no interface occurs. The type of such a value tells those of its parts, and a
change that keeps the type of a part keeps that of the whole. Nothing but an index fails on the way
to a part that the type has. -/
namespace ObjectGraph

namespace Ty

variable {t u : Ty} {s : Step} {path : Path}

mutual
/-- No interface occurs in the type. -/
def isConcrete : Ty → Bool
  | any => false
  | bool | int | float | string => true
  | struct _ fields => areConcrete fields
  | map _ elem => elem.isConcrete
  | slice elem => elem.isConcrete
  | pointer target => target.isConcrete
  termination_by structural t => t

def areConcrete : List (String × Ty) → Bool
  | [] => true
  | (_, t) :: fields => t.isConcrete && areConcrete fields
  termination_by structural fields => fields
end

/-- The type of the part one step away. An interface does not tell that of its content. -/
def part? : Step → Ty → Option Ty
  | .field i, struct _ fields => (fields.map (·.2))[i]?
  | .index _, slice elem => some elem
  | _, _ => none

/-- The type of the part at the end of a path. -/
def at? : Path → Ty → Option Ty
  | [], t => some t
  | s :: path, t => (t.part? s).bind (at? path)

theorem at?_concat : t.at? (path ++ [s]) = (t.at? path).bind (part? s) := by
  induction path generalizing t with
  | nil => cases h : t.part? s <;> simp [at?, h]
  | cons s' path ih => cases h : t.part? s' <;> simp [at?, h, ih]

theorem getLast?_ne_unbox (h : t.at? path = some u) : path.getLast? ≠ some .unbox := by
  intro hp
  obtain ⟨front, rfl⟩ := List.getLast?_eq_some_iff.1 hp
  rw [at?_concat] at h
  obtain ⟨w, _, hw⟩ := Option.bind_eq_some_iff.1 h
  cases w <;> cases hw

theorem isConcrete_of_mem {fields : List (String × Ty)} (h : areConcrete fields = true)
    (hu : u ∈ fields.map (·.2)) : u.isConcrete = true := by
  induction fields with
  | nil => cases hu
  | cons field fields ih =>
    obtain ⟨ht, hs⟩ := (Bool.and_eq_true _ _).mp h
    rcases List.mem_cons.1 hu with rfl | hu
    · exact ht
    · exact ih hs hu

theorem isConcrete_part? (h : t.isConcrete = true) (hu : t.part? s = some u) :
    u.isConcrete = true := by
  cases s with
  | field i =>
    cases t with
    | struct name fields => exact isConcrete_of_mem h (List.mem_of_getElem? hu)
    | _ => cases hu
  | index i =>
    cases t with
    | slice elem =>
      cases hu
      exact h
    | _ => cases hu
  | unbox => cases t <;> cases hu

theorem isConcrete_at? (h : t.isConcrete = true) (hu : t.at? path = some u) :
    u.isConcrete = true := by
  induction path generalizing t with
  | nil =>
    cases hu
    exact h
  | cons s path ih =>
    obtain ⟨w, hw, hu⟩ := Option.bind_eq_some_iff.1 hu
    exact ih (isConcrete_part? h hw) hu

end Ty

namespace Value

variable {v v' w : Value} {s : Step} {path : Path} {t : Ty} {types : CellId → Option Ty}
  {f : Value → Except Fault Value}

/-- What `f` makes of a well-typed value of type `t` is one too. -/
def Keeps (types : CellId → Option Ty) (t : Ty) (f : Value → Except Fault Value) : Prop :=
  ∀ ⦃w w'⦄, w.Typed types → w.ty = t → f w = .ok w' → w'.Typed types ∧ w'.ty = t

/-- Where the type has a part the value has one too, unless it is a list that is too short. -/
theorem Typed.part_or (hv : v.Typed types) (ht : v.ty.part? s = some t) :
    (∃ w, v.part? s.hop = some w ∧ w.ty = t) ∨
    ∃ i n, v.part s = .error (.indexOutOfRange i n) ∧
      ∀ f, v.changePart f s = .error (.indexOutOfRange i n) := by
  cases s with
  | field i =>
    cases v with
    | struct layout fields =>
      have hd : fields.map ty = layout.fields.map (·.2) := hv.here
      have hi : (fields.map ty)[i]? = some t := hd ▸ ht
      rw [List.getElem?_map] at hi
      exact Or.inl (Option.map_eq_some_iff.1 hi)
    | _ => cases ht
  | index i =>
    cases v with
    | slice elem items =>
      cases ht
      cases hi : items[i]? with
      | some w => exact Or.inl ⟨w, hi, hv.here w (List.mem_of_getElem? hi)⟩
      | none => exact Or.inr ⟨i, items.length, by simp only [part, hi], fun f => by
          simp only [changePart, hi]⟩
    | nilSlice elem => exact Or.inr ⟨i, 0, rfl, fun _ => rfl⟩
    | _ => cases ht
  | unbox => cases v <;> cases ht

theorem Typed.at_or (hv : v.Typed types) (ht : v.ty.at? path = some t) :
    (∃ w, Value.at? path.route v = some w ∧ w.Typed types ∧ w.ty = t) ∨
    ∃ i n, v.resolve path = .error (.indexOutOfRange i n) ∧
      ∀ f, v.change f path = .error (.indexOutOfRange i n) := by
  induction path generalizing v with
  | nil =>
    cases ht
    exact Or.inl ⟨v, rfl, hv, rfl⟩
  | cons s path ih =>
    obtain ⟨u, hu, ht⟩ := Option.bind_eq_some_iff.1 ht
    rcases hv.part_or hu with ⟨x, hx, rfl⟩ | ⟨i, n, hr, hc⟩
    · rcases ih (hv.part hx) ht with ⟨w, hw, h⟩ | ⟨i, n, hr, hc⟩
      · exact Or.inl ⟨w, (congrArg (Option.bind · _) hx).trans hw, h⟩
      · refine Or.inr ⟨i, n, ?_, fun f => changePart_error hx (hc f)⟩
        rw [resolve, part_of_part? hx]
        exact hr
    · refine Or.inr ⟨i, n, ?_, fun f => hc _⟩
      rw [resolve, hr]
      rfl

theorem Typed.resolve_at (hv : v.Typed types) (ht : v.ty.at? path = some t)
    (h : v.resolve path = .ok w) : w.Typed types ∧ w.ty = t := by
  rcases hv.at_or ht with ⟨x, hx, hw⟩ | ⟨i, n, he, _⟩
  · cases (resolve_of_at? hx).symm.trans h
    exact hw
  · cases he.symm.trans h

theorem Typed.change (hv : v.Typed types) (ht : v.ty.at? path = some t) (hf : Keeps types t f)
    (h : v.change f path = .ok v') : v'.Typed types ∧ v'.ty = v.ty := by
  rcases hv.at_or ht with ⟨w, hw, hwt, rfl⟩ | ⟨i, n, _, he⟩
  · cases hfw : f w with
    | error e => cases (change_error hw hfw).symm.trans h
    | ok w' =>
      obtain ⟨v'', hp, hc⟩ := change_of_at? hw hfw
      cases hc.symm.trans h
      obtain ⟨hwt', hty⟩ := hf hwt rfl hfw
      have hslot : slotTy? path.route v = some w'.ty := hty ▸ slotTy?_of_at? hv hw
      exact ⟨hv.put steady_declared hwt' hslot hp, ty_put_of_at? hw hty hp⟩
  · cases (he f).symm.trans h

theorem change_error_cases {e : Fault} (hv : v.Typed types) (ht : v.ty.at? path = some t)
    (h : v.change f path = .error e) :
    (∃ i n, e = .indexOutOfRange i n) ∨ ∃ w, w.ty = t ∧ f w = .error e := by
  rcases hv.at_or ht with ⟨w, hw, _, hty⟩ | ⟨i, n, _, he⟩
  · exact Or.inr ⟨w, hty, error_of_change hw h⟩
  · cases (he f).symm.trans h
    exact Or.inl ⟨i, n, rfl⟩

theorem keeps_insert {key : Key} {elem : Ty} (hw : w.Typed types) (hwt : w.ty = elem) :
    Keeps types (.map key.ty elem) (Value.insert key w) := by
  intro v v' hv ht h
  obtain ⟨k, t, es, rfl, rfl⟩ := insert_cases h
  cases ht
  have hset : setPart w (.key key) (.map key.ty elem es) =
    some (.map key.ty elem (Assoc.insert key w es)) := rfl
  exact ⟨hv.setPart steady_declared hw (Or.inl (by simp [partTy?, hwt])) hset, rfl⟩

/-- A slot of a type with no interface takes only values of the type, and those as they are. -/
theorem eq_of_assignTo (ht : t.isConcrete = true) (h : v.assignTo t = .ok w) :
    w = v ∧ v.ty = t := by
  rcases assignTo_cases h with h | ⟨_, rfl⟩
  · exact h
  · cases ht

end Value

end ObjectGraph
