import Mathlib.Data.List.Nodup
import Mathlib.Data.List.Perm.Subperm
import Mathlib.Logic.Relation
import ObjectGraph.Proofs.Accessors
import ObjectGraph.Proofs.MapOrder
import ObjectGraph.Proofs.RoundTrip

/-! Documents of values whose pointers form no cycle. Nothing is lost on the way and nothing merged:
every field, entry and item has a place of its own in the document. -/
namespace ObjectGraph

variable {g : Graph} {c : CellId} {v w u : Value} {vs : List Value} {d : Document} {n : Nat}
  {t : Ty} {follow follow' : CellId → Except DocumentFault Document} {es : List (Key × Value)}
  {ds : List Document} {names : List String}

/-! Key texts -/

namespace Document

theorem toDigits_inj {m n : Nat} (h : Nat.toDigits 10 m = Nat.toDigits 10 n) : m = n := by
  have hm : Nat.ofDigitChars 10 (Nat.toDigits 10 m) 0 = m := Nat.ofDigitChars_ten_toDigits
  rw [← hm, h, Nat.ofDigitChars_ten_toDigits]

/-- A sign is no digit. -/
theorem toDigits_ne_minus {m : Nat} {cs : List Char} : Nat.toDigits 10 m ≠ '-' :: cs := by
  intro h
  have hmem : '-' ∈ Nat.toDigits 10 m := h ▸ .head _
  exact absurd (Nat.isDigit_of_mem_toDigits (by decide) (by decide) hmem) (by decide)

theorem toList_repr_ofNat {m : Nat} : (Int.ofNat m).repr.toList = Nat.toDigits 10 m :=
  Nat.toList_repr

theorem toList_repr_negSucc {m : Nat} :
    (Int.negSucc m).repr.toList = '-' :: Nat.toDigits 10 (m + 1) := by
  change ("-" ++ (m + 1).repr).toList = _
  rw [String.toList_append, Nat.toList_repr]
  rfl

/-- Integers are told apart by the names that they give. -/
theorem nameOfInt64_inj {i j : Int64} (h : nameOfInt64 i = nameOfInt64 j) : i = j := by
  have hchars : i.toInt.repr.toList = j.toInt.repr.toList := congrArg String.toList h
  apply Int64.toInt_inj.1
  -- Digits read back as the number, and no more than a sign stands before them.
  cases hi : i.toInt <;> cases hj : j.toInt <;> rw [hi, hj] at hchars
  case ofNat.ofNat m n =>
    rw [toList_repr_ofNat, toList_repr_ofNat] at hchars
    rw [toDigits_inj hchars]
  case ofNat.negSucc m n =>
    rw [toList_repr_ofNat, toList_repr_negSucc] at hchars
    exact absurd hchars toDigits_ne_minus
  case negSucc.ofNat m n =>
    rw [toList_repr_ofNat, toList_repr_negSucc] at hchars
    exact absurd hchars.symm toDigits_ne_minus
  case negSucc.negSucc m n =>
    rw [toList_repr_negSucc, toList_repr_negSucc, List.cons.injEq] at hchars
    rw [Nat.succ.inj (toDigits_inj hchars.2)]

end Document

/-- Keys of one type are told apart by their texts. -/
theorem Key.text_inj {k j : Key} (ht : k.ty = j.ty) (h : k.text = j.text) : k = j := by
  cases k <;> cases j <;> cases ht
  case bool.bool a b => cases a <;> cases b <;> simp_all [text]
  case int.int a b => exact congrArg int (Document.nameOfInt64_inj h)
  case string.string a b => exact congrArg string h

theorem Value.nodup_texts {key : KeyTy} (ha : Assoc.Ascending es) (hk : ∀ e ∈ es, e.1.ty = key) :
    (es.map (·.1.text)).Nodup := by
  rw [List.Nodup, List.pairwise_map]
  refine ha.imp_of_mem fun {e f} he hf hlt htext => ?_
  have heq : e.1 = f.1 := Key.text_inj ((hk e he).trans (hk f hf).symm) htext
  rw [heq, Std.ReflOrd.compare_self] at hlt
  cases hlt

/-! Documents of parts -/

namespace Value

theorem documentsBy_eq_mapM : documentsBy follow vs = vs.mapM (documentBy follow) := by
  induction vs with
  | nil => rfl
  | cons v vs ih => rw [documentsBy, List.mapM_cons, ih]

theorem membersBy_eq_zip : membersBy follow es =
    (es.map (·.1.text)).zip <$> documentsBy follow (es.map (·.2)) := by
  induction es with
  | nil => rfl
  | cons e es ih =>
    obtain ⟨k, v⟩ := e
    rw [membersBy, Key.memberName_eq, ih, List.map_cons, List.map_cons, documentsBy]
    cases documentBy follow v with
    | error x => rfl
    | ok d => cases documentsBy follow (es.map (·.2)) <;> rfl

theorem documentBy_struct {layout : Layout} : (struct layout vs).documentBy follow =
    (fun ds => .ofMembers ((layout.fields.map (·.1)).zip ds)) <$> documentsBy follow vs := by
  rw [documentBy]
  cases documentsBy follow vs <;> rfl

theorem documentBy_map {key : KeyTy} : (map key t es).documentBy follow =
    (fun ds => .ofMembers ((es.map (·.1.text)).zip ds)) <$> documentsBy follow (es.map (·.2)) := by
  rw [documentBy, membersBy_eq_zip]
  cases documentsBy follow (es.map (·.2)) <;> rfl

theorem documentBy_slice :
    (slice t vs).documentBy follow = .array <$> documentsBy follow vs := by
  rw [documentBy]
  cases documentsBy follow vs <;> rfl

theorem exists_documentsBy (h : ∀ w ∈ vs, ∃ d, w.documentBy follow = .ok d) :
    ∃ ds, documentsBy follow vs = .ok ds := by
  induction vs with
  | nil => exact ⟨[], rfl⟩
  | cons v vs ih =>
    obtain ⟨d, hd⟩ := h v (.head _)
    obtain ⟨ds, hds⟩ := ih fun w hw => h w (.tail _ hw)
    exact ⟨d :: ds, by rw [documentsBy, hd, ok_bind, hds]; rfl⟩

/-- The document of a value, if it is no pointer, is put together from those of its parts. -/
theorem documentBy_cases (v : Value) : (∃ t c, v = pointer t c) ∨
    ∃ f : List Document → Document, ∀ follow, v.documentBy follow =
      f <$> documentsBy follow v.inside := by
  cases v with
  | pointer t c => exact Or.inl ⟨t, c, rfl⟩
  | struct layout fields => exact Or.inr ⟨_, fun _ => documentBy_struct⟩
  | map key elem entries => exact Or.inr ⟨_, fun _ => documentBy_map⟩
  | slice elem items => exact Or.inr ⟨_, fun _ => documentBy_slice⟩
  | boxed w =>
    refine Or.inr ⟨fun ds => ds.headD .null, fun follow => ?_⟩
    rw [documentBy, inside, documentsBy]
    cases w.documentBy follow <;> rfl
  | _ => exact Or.inr ⟨fun _ => _, fun _ => rfl⟩

theorem documentsBy_mono
    (h : ∀ w ∈ vs, ∀ d, w.documentBy follow = .ok d → w.documentBy follow' = .ok d)
    (hds : documentsBy follow vs = .ok ds) : documentsBy follow' vs = .ok ds := by
  induction vs generalizing ds with
  | nil => exact hds
  | cons v vs ih =>
    obtain ⟨d, hd, hds⟩ := bind_eq_ok.1 hds
    obtain ⟨ds, hvs, hds⟩ := bind_eq_ok.1 hds
    cases hds
    rw [documentsBy, h v (.head _) d hd, ok_bind, ih (fun w hw => h w (.tail _ hw)) hvs]
    rfl

/-- Where more targets have documents, the documents that there were stay. -/
theorem documentBy_mono (hf : ∀ c d, follow c = .ok d → follow' c = .ok d) :
    ∀ d, v.documentBy follow = .ok d → v.documentBy follow' = .ok d := by
  induction v using inside_induction with
  | step v ih =>
    intro d hd
    rcases documentBy_cases v with ⟨t, c, rfl⟩ | ⟨f, hdoc⟩
    · exact hf c d hd
    · rw [hdoc] at hd ⊢
      obtain ⟨ds, hds, hd⟩ := map_eq_ok.1 hd
      exact map_eq_ok.2 ⟨ds, documentsBy_mono ih hds, hd⟩

end Value

theorem Graph.cellDocument_mono : ∀ c d, g.cellDocument n c = .ok d →
    g.cellDocument (n + 1) c = .ok d := by
  induction n with
  | zero =>
    intro c d h
    cases h
  | succ n ih =>
    intro c d h
    rw [cellDocument] at h ⊢
    cases hr : g.readable c with
    | error x => simp [hr] at h
    | ok v =>
      simp only [hr] at h
      exact Value.documentBy_mono ih d h

/-- A pointer prints as the content of its cell. -/
theorem Value.document_target (h : (pointer t c).document g = .ok d) :
    ∃ w, g.content? c = some w ∧ w.document g = .ok d := by
  rw [document, documentBy] at h
  cases hn : g.cells.size with
  | zero =>
    rw [hn] at h
    cases h
  | succ n =>
    rw [hn, Graph.cellDocument] at h
    cases hr : g.readable c with
    | error x => simp [hr] at h
    | ok w =>
      simp only [hr] at h
      refine ⟨w, Graph.content?_of_readable hr, ?_⟩
      rw [document, hn]
      exact documentBy_mono Graph.cellDocument_mono d h

/-! What is reached -/

namespace Value

/-- A value directly below another: a part of it, or the content of the cell that it points to. -/
inductive Below (g : Graph) : Value → Value → Prop
  | inside {v w : Value} (hw : w ∈ v.inside) : Below g v w
  | target {t : Ty} {c : CellId} {w : Value} (hw : g.content? c = some w) : Below g (pointer t c) w

/-- Parts and targets lead from one value to the other. -/
def Reaches (g : Graph) : Value → Value → Prop := Relation.ReflTransGen (Below g)

/-- All that is reached is well-typed, with its maps in order and the layouts of its structs made
field by field. No cell is reached from its own content. -/
structure Printable (g : Graph) (v : Value) : Prop where
  typed : ∀ w, v.Reaches g w → w.Declared g.cellTy?
  sorted : ∀ w, v.Reaches g w → w.Sorted
  made : ∀ layout fields, v.Reaches g (struct layout fields) → layout.Made
  acyclic : ∀ t u c w, v.Reaches g (pointer t c) → g.content? c = some w →
    ¬ w.Reaches g (pointer u c)

theorem Printable.of_reaches (hv : v.Printable g) (hw : v.Reaches g w) : w.Printable g :=
  ⟨fun x hx => hv.typed x (hw.trans hx), fun x hx => hv.sorted x (hw.trans hx),
    fun l fs hx => hv.made l fs (hw.trans hx), fun t u c x hx => hv.acyclic t u c x (hw.trans hx)⟩

/-- A value has a document if the targets of all pointers that it reaches have one. -/
theorem exists_documentBy (h : ∀ t c, v.Reaches g (pointer t c) → ∃ d, follow c = .ok d) :
    ∃ d, v.documentBy follow = .ok d := by
  induction v using inside_induction with
  | step v ih =>
    rcases documentBy_cases v with ⟨t, c, rfl⟩ | ⟨f, hf⟩
    · exact h t c .refl
    · obtain ⟨ds, hds⟩ := exists_documentsBy fun w hw =>
        ih w hw fun t c hc => h t c (.head (.inside hw) hc)
      exact ⟨f ds, (hf follow).trans (map_eq_ok.2 ⟨ds, hds, rfl⟩)⟩

/-- On the way to the value the content of the cells in `seen` was left, each once, and none of them
is reached again. -/
structure Past (g : Graph) (seen : List CellId) (v : Value) : Prop where
  nodup : seen.Nodup
  bound : ∀ c ∈ seen, c.index < g.cells.size
  apart : ∀ t, ∀ c ∈ seen, ¬ v.Reaches g (pointer t c)

/-- A way through different cells is no longer than there are cells. -/
theorem Past.length_le {seen : List CellId} (hp : Past g seen v) : seen.length ≤ g.cells.size := by
  have hinj : Function.Injective CellId.index := fun a b h => by
    cases a
    cases b
    exact congrArg CellId.mk h
  have hsub : seen.map CellId.index ⊆ List.range g.cells.size := by
    intro i hi
    obtain ⟨c, hc, rfl⟩ := List.mem_map.1 hi
    exact List.mem_range.2 (hp.bound c hc)
  simpa using (List.subperm_of_subset (hp.nodup.map hinj) hsub).length_le

theorem Past.target {seen : List CellId} (hp : Past g seen v) (hv : v.Printable g)
    (hr : v.Reaches g (pointer t c)) (hw : g.content? c = some w) : Past g (c :: seen) w := by
  have hrw : v.Reaches g w := hr.tail (.target hw)
  refine ⟨List.nodup_cons.2 ⟨fun hc => hp.apart t c hc hr, hp.nodup⟩, ?_, ?_⟩
  · intro d hd
    rcases List.mem_cons.1 hd with rfl | hd
    · obtain ⟨hlt, _⟩ := Array.getElem?_eq_some_iff.1 hw
      exact hlt
    · exact hp.bound d hd
  · intro u d hd hrd
    rcases List.mem_cons.1 hd with rfl | hd
    · exact hv.acyclic t u d w hr hw hrd
    · exact hp.apart u d hd (hrw.trans hrd)

/-- As many steps through cells suffice as there are cells that were not left yet. -/
theorem Printable.exists_documentBy (hv : v.Printable g) (ho : g.Open) {seen : List CellId}
    (hp : Past g seen v) (hle : g.cells.size ≤ n + seen.length) :
    ∃ d, v.documentBy (g.cellDocument n) = .ok d := by
  induction n generalizing v seen with
  | zero =>
    refine Value.exists_documentBy (g := g) fun t c hc => ?_
    obtain ⟨u, hu, _⟩ := Option.map_eq_some_iff.1 (hv.typed _ hc)
    have hlen := (hp.target hv hc hu).length_le
    rw [List.length_cons] at hlen
    omega
  | succ n ih =>
    refine Value.exists_documentBy (g := g) fun t c hc => ?_
    obtain ⟨u, hu, _⟩ := Option.map_eq_some_iff.1 (hv.typed _ hc)
    have hvu := hv.of_reaches (hc.tail (.target hu))
    have hle' : g.cells.size ≤ n + (c :: seen).length := by
      rw [List.length_cons]
      omega
    obtain ⟨d, hd⟩ := ih hvu (hp.target hv hc hu) hle'
    refine ⟨d, ?_⟩
    simp only [Graph.cellDocument, ho.readable hu]
    exact hd

theorem Printable.exists_document (hv : v.Printable g) (ho : g.Open) :
    ∃ d, v.document g = .ok d := by
  have hp : Past g [] v := ⟨.nil, by simp, by simp⟩
  exact hv.exists_documentBy ho hp (by simp)

/-! What is printed -/

/-- An object has one member for each of the values, by its name and with its document. -/
structure HasMembers (g : Graph) (names : List String) (vs : List Value)
    (members : List (String × Document)) : Prop where
  distinct : names.Nodup
  length : names.length = vs.length
  perm : (members.map (·.1)).Perm names
  member : ∀ p ∈ names.zip vs, ∃ d, Assoc.get? p.1 members = some d ∧ p.2.document g = .ok d

theorem hasMembers_ofList (hn : names.Nodup) (hl : names.length = vs.length)
    (hd : documentsBy (g.cellDocument g.cells.size) vs = .ok ds) :
    HasMembers g names vs (Assoc.ofList (names.zip ds)) := by
  rw [documentsBy_eq_mapM, mapM_eq_ok] at hd
  have hfst : (names.zip ds).map (·.1) = names :=
    List.map_fst_zip (Nat.le_of_eq (hl.trans hd.length_eq))
  have hperm : (Assoc.ofList (names.zip ds)).Perm (names.zip ds) :=
    Assoc.ofList_perm (hfst.symm ▸ hn)
  refine ⟨hn, hl, ?_, ?_⟩
  · exact (hperm.map _).trans (.of_eq hfst)
  · intro p hp
    have hzip : ∃ d, (p.1, d) ∈ names.zip ds ∧ p.2.document g = .ok d := by
      clear hn hl hfst hperm
      induction hd generalizing names with
      | nil => simp at hp
      | @cons v d vs ds hvd _ ih =>
        cases names with
        | nil => simp at hp
        | cons name names =>
          rcases List.mem_cons.1 hp with rfl | hp
          · exact ⟨d, .head _, hvd⟩
          · obtain ⟨x, hx, hdoc⟩ := ih hp
            exact ⟨x, .tail _ hx, hdoc⟩
    obtain ⟨d, hm, hdoc⟩ := hzip
    exact ⟨d, Assoc.get?_of_mem Assoc.ascending_ofList (hperm.mem_iff.2 hm), hdoc⟩

/-- How a document shows a value: nothing is left out of it, and nothing merged. -/
def Shows (g : Graph) : Value → Document → Prop
  | bool b, d => d = .bool b
  | int i, d => d = .int i.toInt
  | float x, d => d = if x.isFinite then .float x else .null
  | string s, d => d = .string s
  | struct layout fields, d =>
    ∃ members, d = .object members ∧ HasMembers g (layout.fields.map (·.1)) fields members
  | map _ _ es, d =>
    ∃ members, d = .object members ∧ HasMembers g (es.map (·.1.text)) (es.map (·.2)) members
  | slice _ items, d =>
    ∃ ds, d = .array ds ∧ List.Forall₂ (fun w x => w.document g = .ok x) items ds
  | pointer _ c, d => ∃ w, g.content? c = some w ∧ w.document g = .ok d
  | boxed w, d => w.document g = .ok d
  | nilMap .., d | nilSlice _, d | nilPointer _, d | nilAny, d => d = .null

theorem Printable.shows (hv : v.Printable g) (h : v.document g = .ok d) : v.Shows g d := by
  have hty := hv.typed v .refl
  cases v with
  | struct layout fields =>
    rw [document, documentBy_struct] at h
    obtain ⟨ds, hds, rfl⟩ := map_eq_ok.1 h
    have hlen : (layout.fields.map (·.1)).length = fields.length := by
      simpa using (congrArg List.length hty).symm
    exact ⟨_, rfl, hasMembers_ofList (hv.made layout fields .refl).nodup hlen hds⟩
  | map key elem es =>
    rw [document, documentBy_map] at h
    obtain ⟨ds, hds, rfl⟩ := map_eq_ok.1 h
    have hdistinct := nodup_texts (hv.sorted _ .refl) fun e he => (hty e he).1
    exact ⟨_, rfl, hasMembers_ofList hdistinct (by simp) hds⟩
  | slice elem items =>
    rw [document, documentBy_slice] at h
    obtain ⟨ds, hds, rfl⟩ := map_eq_ok.1 h
    rw [documentsBy_eq_mapM, mapM_eq_ok] at hds
    exact ⟨ds, rfl, hds⟩
  | pointer t c => exact document_target h
  | boxed w => exact h
  | _ =>
    cases h
    rfl

/-- Each value that is reached has a document, and the document shows the value. -/
theorem exists_document_shows (hv : v.Printable g) (ho : g.Open) :
    ∀ w, v.Reaches g w → ∃ d, w.document g = .ok d ∧ w.Shows g d := by
  intro w hw
  have hw := hv.of_reaches hw
  obtain ⟨d, hd⟩ := hw.exists_document ho
  exact ⟨d, hd, hw.shows hd⟩

end Value

def span : Layout := ⟨"Span", [("to", .pointer .int), ("from", .pointer .int)]⟩

/-- Both ends of a span are in one cell. -/
def endpoint : Graph := ⟨#[.int 5], [], 0, []⟩

def emptySpan : Value := .struct span [.pointer .int ⟨0⟩, .pointer .int ⟨0⟩]

theorem reaches_emptySpan (h : emptySpan.Reaches endpoint w) :
    w = emptySpan ∨ w = .pointer .int ⟨0⟩ ∨ w = .int 5 := by
  induction h with
  | refl => exact Or.inl rfl
  | tail _ hb ih =>
    rcases ih with rfl | rfl | rfl
    · cases hb with
      | inside hw => exact Or.inr (Or.inl (by simpa [emptySpan, Value.inside] using hw))
    · cases hb with
      | inside hw => cases hw
      | target hw =>
        cases hw
        exact Or.inr (Or.inr rfl)
    · cases hb with
      | inside hw => cases hw

theorem made_span : span.Made := by
  have hto : (⟨"Span", []⟩ : Layout).addField "to" (.pointer .int) =
    .ok ⟨"Span", [("to", .pointer .int)]⟩ := rfl
  have hfrom : (⟨"Span", [("to", .pointer .int)]⟩ : Layout).addField "from" (.pointer .int) =
    .ok span := rfl
  exact .field (.field .new hto) hfrom

theorem printable_emptySpan : emptySpan.Printable endpoint := by
  refine ⟨?_, ?_, ?_, ?_⟩
  · intro w hw
    rcases reaches_emptySpan hw with rfl | rfl | rfl
    · rfl
    · rfl
    · trivial
  · intro w hw
    rcases reaches_emptySpan hw with rfl | rfl | rfl <;> trivial
  · intro layout fields hw
    rcases reaches_emptySpan hw with hw | hw | hw <;> cases hw
    exact made_span
  · intro t u c w hp hw hc
    rcases reaches_emptySpan hp with hp | hp | hp <;> cases hp
    cases hw
    rcases hc.cases_head with hc | ⟨x, hx, _⟩
    · cases hc
    · cases hx with
      | inside hx => cases hx

theorem exists_document_shows_emptySpan : ∃ members,
    emptySpan.document endpoint = .ok (.object members) ∧
    Value.HasMembers endpoint ["to", "from"] [.pointer .int ⟨0⟩, .pointer .int ⟨0⟩] members := by
  obtain ⟨d, hd, members, rfl, hm⟩ :=
    Value.exists_document_shows printable_emptySpan (fun _ => rfl) emptySpan .refl
  exact ⟨members, hd, hm⟩

end ObjectGraph
