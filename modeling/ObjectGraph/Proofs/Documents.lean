import ObjectGraph.Proofs.Built

/-! Documents and the values they load as. The parts of the value are those of the document, and it
prints as the document. -/
namespace ObjectGraph

/-- A member is named by the text of its key. -/
theorem Key.memberName_eq {k : Key} : k.memberName = k.text := by
  cases k <;> rfl

namespace Document

/-- What leads from an object or array to one of its parts. -/
inductive Token where
  | name (s : String)
  | item (i : Nat)
  deriving DecidableEq, Repr

abbrev Pointer := List Token

variable {d c x : Document} {t next : Token} {types : CellId → Option Ty}
  {p : Pointer} {follow : CellId → Except DocumentFault Document}
  {members : List (String × Document)}

/-- The integers have 64 bits, the floats are finite, and the members ascend. -/
inductive Standard : Document → Prop
  | null : Standard null
  | bool {b : Bool} : Standard (bool b)
  | int {i : Int} (hi : Int64.minValue.toInt ≤ i ∧ i ≤ Int64.maxValue.toInt) : Standard (int i)
  | float {x : Binary64} (hx : x.isFinite = true) : Standard (float x)
  | string {s : String} : Standard (string s)
  | array {items : List Document} (hs : ∀ d ∈ items, Standard d) : Standard (array items)
  | object {members : List (String × Document)} (ha : Assoc.Ascending members)
      (hs : ∀ e ∈ members, Standard e.2) : Standard (object members)

def child? : Token → Document → Option Document
  | .name s, object members => Assoc.get? s members
  | .item i, array items => items[i]?
  | _, _ => none

/-- The document with `x` for the part that a token leads to. -/
def setChild (x : Document) : Token → Document → Document
  | .name s, object members => object (Assoc.insert s x members)
  | .item i, array items => array (items.set i x)
  | _, d => d

/-- An object takes any name, and an array the number of an item. -/
def Takes : Token → Document → Prop
  | .name _, object _ => True
  | .item i, array items => i < items.length
  | _, _ => False

/-- The part that a pointer leads to. -/
def at? : Pointer → Document → Option Document
  | [], d => some d
  | t :: p, d => (d.child? t).bind (at? p)

/-- The document with `x` at the end of a pointer. -/
def put (x : Document) : Pointer → Document → Document
  | [], _ => x
  | t :: p, d => setChild (put x p ((d.child? t).getD null)) t d

/-- All tokens but the last lead to parts that are there, and the last is one that its object or
array takes. -/
def Reaches : Pointer → Document → Prop
  | [], _ => False
  | [t], d => d.Takes t
  | t :: next :: p, d => ∃ c, d.child? t = some c ∧ Reaches (next :: p) c

def Token.hop : Token → Hop
  | name s => .key (.string s)
  | item i => .index i

/-- The route to a part of the value. Every part is in an interface. -/
def Pointer.route (p : Pointer) : Route := (p.map Token.hop).intersperse .content

/-! Numbers and names -/

/-- The integers that are read are just those of 64 bits. -/
theorem asInt64?_eq_some {i : Int} {n : Int64} : asInt64? i = some n ↔ n.toInt = i := by
  unfold asInt64?
  constructor
  · intro h
    split at h
    · cases h
      exact Int64.toInt_ofInt_of_le (And.left ‹_›) (Int.lt_of_le_sub_one (And.right ‹_›))
    · cases h
  · rintro rfl
    rw [if_pos ⟨n.minValue_le_toInt, n.toInt_le⟩, Int64.ofInt_toInt]

theorem standard_int (n : Int64) : (int n.toInt).Standard :=
  .int ⟨n.minValue_le_toInt, n.toInt_le⟩

theorem exists_int64 {i : Int} (hi : Int64.minValue.toInt ≤ i ∧ i ≤ Int64.maxValue.toInt) :
    ∃ n : Int64, n.toInt = i :=
  ⟨.ofInt i, asInt64?_eq_some.1 (if_pos hi)⟩

theorem value_int (n : Int64) : (int n.toInt).value = .int n := by
  rw [value, asInt64?_eq_some.2 rfl]

/-! Values of documents -/

/-- The members as entries of a map. -/
def entries (members : List (String × Document)) : List (Key × Value) :=
  members.map (Prod.map Key.string (·.value.box))

theorem boxedValues_eq {items : List Document} : boxedValues items = items.map (·.value.box) := by
  induction items with
  | nil => rfl
  | cons d ds ih => simp [boxedValues, ih]

theorem boxedMembers_eq : boxedMembers members = entries members := by
  induction members with
  | nil => rfl
  | cons e ms ih =>
    rw [boxedMembers, ih]
    rfl

theorem compare_string {a b : String} : compare (Key.string a) (Key.string b) = compare a b := rfl

theorem value_object (h : Assoc.Ascending members) :
    (object members).value = .map .string .any (entries members) := by
  have ha : Assoc.Ascending (entries members) := Assoc.ascending_map (fun _ _ => compare_string) h
  rw [value, boxedMembers_eq, Assoc.ofList_of_ascending ha]

theorem value_array {items : List Document} :
    (array items).value = .slice .any (items.map (·.value.box)) := by
  rw [value, boxedValues_eq]

theorem value_ne_boxed {u : Value} : d.value ≠ .boxed u := by
  cases d with
  | int i => rw [value]; split <;> simp
  | _ => simp [value]

theorem unbox_box_value : d.value.box.unbox = d.value := by
  cases hv : d.value with
  | boxed => exact absurd hv value_ne_boxed
  | _ => rfl

theorem valueFor_any : d.valueFor .any = d.value := by
  unfold valueFor
  split
  · exact Eq.symm ‹_›
  · contradiction
  · rfl

/-! Parts -/

theorem takes_of_child? (h : d.child? t = some c) : d.Takes t := by
  cases t <;> cases d <;> simp_all [child?, Takes]
  exact (List.getElem?_eq_some_iff.1 h).1

theorem box_value_of_takes (h : d.Takes t) : d.value.box = .boxed d.value := by
  cases t <;> cases d <;> first | rfl | cases h

theorem part?_value (hd : d.Standard) (h : d.Takes t) :
    d.value.part? t.hop = (d.child? t).map (·.value.box) := by
  cases t with
  | name s =>
    cases hd with
    | object ha =>
      rw [value_object ha]
      exact Assoc.get?_map fun _ _ => compare_string
    | _ => cases h
  | item i =>
    cases hd with
    | array =>
      rw [value_array]
      exact List.getElem?_map
    | _ => cases h

theorem setPart_value (hd : d.Standard) (h : d.Takes t) :
    Value.setPart x.value.box t.hop d.value = some (setChild x t d).value := by
  cases t with
  | name s =>
    cases hd with
    | object ha =>
      rw [setChild, value_object ha, value_object (Assoc.ascending_insert ha), entries, entries,
        ← Assoc.insert_map fun _ _ => compare_string]
      rfl
    | _ => cases h
  | item i =>
    cases hd with
    | @array items =>
      have hi : i < items.length := h
      rw [setChild, value_array, value_array, List.map_set]
      exact if_pos (by simpa using hi)
    | _ => cases h

theorem partTy?_value (hd : d.Standard) (h : d.Takes t) :
    d.value.partTy? t.hop = some .any := by
  cases t with
  | name s =>
    cases hd with
    | object ha => rw [value_object ha]; rfl
    | _ => cases h
  | item i =>
    cases hd with
    | @array items =>
      have hi : i < items.length := h
      rw [value_array]
      simp [Value.partTy?, Value.part?, Token.hop, hi, Value.ty_box]
    | _ => cases h

theorem Standard.child (hd : d.Standard) (h : d.child? t = some c) : c.Standard := by
  cases t with
  | name s =>
    cases hd with
    | object _ hs => exact hs _ (Assoc.mem_of_get? h)
    | _ => cases h
  | item i =>
    cases hd with
    | array hs => exact hs _ (List.mem_of_getElem? h)
    | _ => cases h

theorem Standard.at? (hd : d.Standard) (h : at? p d = some c) : c.Standard := by
  induction p generalizing d with
  | nil =>
    cases h
    exact hd
  | cons t p ih =>
    obtain ⟨e, he, hc⟩ := Option.bind_eq_some_iff.1 h
    exact ih (hd.child he) hc

theorem Standard.setChild (hd : d.Standard) (hx : x.Standard) (h : d.Takes t) :
    (setChild x t d).Standard := by
  cases t with
  | name s =>
    cases hd with
    | object ha hs =>
      refine .object (Assoc.ascending_insert ha) fun e he => ?_
      rcases Assoc.mem_insert he with rfl | he
      · exact hx
      · exact hs e he
    | _ => cases h
  | item i =>
    cases hd with
    | array hs =>
      refine .array fun d hd => ?_
      rcases List.mem_or_eq_of_mem_set hd with hd | rfl
      · exact hs d hd
      · exact hx
    | _ => cases h

/-! Pointers -/

theorem Reaches.takes (h : d.Reaches (t :: p)) : d.Takes t := by
  cases p with
  | nil => exact h
  | cons next p =>
    obtain ⟨c, hc, _⟩ := h
    exact takes_of_child? hc

/-- A token before the last leads to an object or array, which is in an interface. -/
theorem Reaches.part (h : d.Reaches (t :: next :: p)) (hd : d.Standard) :
    ∃ c, d.child? t = some c ∧ c.Standard ∧ c.Reaches (next :: p) ∧
      d.value.part? t.hop = some (.boxed c.value) := by
  obtain ⟨c, hc, hp⟩ := id h
  refine ⟨c, hc, hd.child hc, hp, ?_⟩
  rw [part?_value hd h.takes, hc, Option.map_some, box_value_of_takes hp.takes]

theorem route_cons_cons :
    Pointer.route (t :: next :: p) = t.hop :: .content :: Pointer.route (next :: p) := rfl

theorem route_cons : ∃ r, Pointer.route (t :: p) = t.hop :: r := by
  cases p with
  | nil => exact ⟨[], rfl⟩
  | cons => exact ⟨_, route_cons_cons⟩

/-- A write to a part of the value fills the slot of the part itself. -/
theorem slot_route : Route.slot p.route = p.route := by
  have hlast : p.route.getLast? ≠ some .content := by
    induction p with
    | nil => simp [Pointer.route]
    | cons t p ih =>
      cases p with
      | nil => cases t <;> simp [Pointer.route, Token.hop]
      | cons next p =>
        obtain ⟨r, hr⟩ := route_cons (t := next) (p := p)
        rw [hr] at ih
        rw [route_cons_cons, hr]
        simpa using ih
  exact if_neg hlast

theorem at?_value (h : d.Reaches p) (hd : d.Standard) :
    Value.at? p.route d.value = (at? p d).map (·.value.box) := by
  induction p, d using Reaches.induct with
  | case1 => cases h
  | case2 t d =>
    have hp := part?_value hd h
    cases hc : d.child? t <;> simp_all [Pointer.route, Value.at?, at?]
  | case3 t next p d ih =>
    obtain ⟨c, hc, hcs, hp, hv⟩ := h.part hd
    rw [route_cons_cons, Value.at?, hv, at?, hc]
    exact ih c hp hcs

/-- Every part of the value is in an interface. -/
theorem slotTy?_value (h : d.Reaches p) (hd : d.Standard) :
    Value.slotTy? p.route d.value = some .any := by
  induction p, d using Reaches.induct with
  | case1 => cases h
  | case2 t d => exact partTy?_value hd h
  | case3 t next p d ih =>
    obtain ⟨c, hc, hcs, hp, hv⟩ := h.part hd
    obtain ⟨r, hr⟩ := route_cons (t := next) (p := p)
    have ih := ih c hp hcs
    rw [hr] at ih
    rw [route_cons_cons, hr, Value.slotTy?, hv]
    exact ih

/-- An object or array stays one with another part. -/
theorem Takes.setChild (h : d.Takes t) : (setChild x t d).Takes t := by
  cases t <;> cases d <;> simp_all [Takes, Document.setChild]

/-- To put the value of a document into that of another is to put the one into the other. -/
theorem put_value (h : d.Reaches p) (hd : d.Standard) (hx : x.Standard) :
    Value.put x.value.box p.route d.value = some (put x p d).value ∧ (put x p d).Standard ∧
      ∃ t, (put x p d).Takes t := by
  induction p, d using Reaches.induct with
  | case1 => cases h
  | case2 t d => exact ⟨setPart_value hd h, hd.setChild hx h, t, h.setChild⟩
  | case3 t next p d ih =>
    obtain ⟨c, hc, hcs, hp, hv⟩ := h.part hd
    obtain ⟨hput, hs, u, hu⟩ := ih c hp hcs
    have hd' : put x (t :: next :: p) d = Document.setChild (put x (next :: p) c) t d := by
      rw [put, hc, Option.getD_some]
    refine hd' ▸ ⟨?_, hd.setChild hs h.takes, t, h.takes.setChild⟩
    rw [route_cons_cons, Value.put_cons hv, Value.put_cons rfl, hput,
      ← setPart_value hd h.takes, box_value_of_takes hu]
    rfl

/-! The round trip -/

theorem documentBy_box {v : Value} : v.box.documentBy follow = v.documentBy follow := by
  cases v <;> rfl

theorem documentsBy_boxed {items : List Document}
    (h : ∀ d ∈ items, d.value.documentBy follow = .ok d) :
    Value.documentsBy follow (items.map (·.value.box)) = .ok items := by
  induction items with
  | nil => rfl
  | cons d ds ih =>
    rw [List.map_cons, Value.documentsBy, documentBy_box, h d (.head _),
      ih fun d hd => h d (.tail _ hd)]
    rfl

theorem membersBy_entries (h : ∀ e ∈ members, e.2.value.documentBy follow = .ok e.2) :
    Value.membersBy follow (entries members) = .ok members := by
  induction members with
  | nil => rfl
  | cons e ms ih =>
    have ih := ih fun e he => h e (.tail _ he)
    rw [entries] at ih ⊢
    rw [List.map_cons, Prod.map, Value.membersBy, documentBy_box, h e (.head _), ih]
    rfl

/-- The value that a document loads as prints as the document. -/
theorem documentBy_value (hd : d.Standard) : d.value.documentBy follow = .ok d := by
  induction hd with
  | int hi =>
    obtain ⟨n, rfl⟩ := exists_int64 hi
    rw [value_int]
    rfl
  | float hx => rw [value, Value.documentBy, ofFloat, if_pos hx]
  | array _ ih =>
    rw [value_array, Value.documentBy, documentsBy_boxed ih]
    rfl
  | object ha _ ih =>
    rw [value_object ha, Value.documentBy, membersBy_entries ih]
    change Except.ok (object (Assoc.ofList _)) = _
    rw [Assoc.ofList_of_ascending ha]
  | _ => rfl

end Document

end ObjectGraph
