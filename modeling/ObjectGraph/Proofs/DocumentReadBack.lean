import ObjectGraph.Proofs.Documents
import ObjectGraph.Proofs.FreshWalk
import ObjectGraph.Proofs.NamedFields

/-! Documents that are written through a handle and read back. A null comes back as the zero of the
type that was there, and an integer as the float that it became. -/
namespace ObjectGraph

variable {g : Graph} {d : Document} {h : Handle} {p : Location} {c : CellId} {path : Path}
  {cache : CacheId} {key : Key} {s t : Ty} {v w : Value}

namespace Binary64

theorem roundShift_le {n s k : Nat} (h : n < Nat.pow 2 (s + k)) :
    roundShift n s ≤ Nat.pow 2 k := by
  simp only [Nat.pow_eq] at h ⊢
  have hq : n / 2 ^ s < 2 ^ k := by
    apply Nat.div_lt_of_lt_mul
    rwa [← Nat.pow_add]
  simp only [roundShift, Nat.pow_eq]
  split <;> omega

/-- The bits of an integer of 64 bits are far from those of the infinite number. -/
theorem magnitudeBits_le {n : Nat} (h : n < Nat.pow 2 64) :
    magnitudeBits n ≤ 1087 * Nat.pow 2 52 := by
  unfold magnitudeBits
  by_cases hn : n = 0
  · simp [hn]
  · have htop : n.log2 < 64 := (Nat.log2_lt hn).2 h
    have hlt : n < 2 ^ (n.log2 + 1) := Nat.lt_log2_self
    have hm : (if n.log2 ≤ 52 then n * Nat.pow 2 (52 - n.log2)
        else roundShift n (n.log2 - 52)) ≤ Nat.pow 2 53 := by
      split
      · calc n * 2 ^ (52 - n.log2)
            ≤ 2 ^ (n.log2 + 1) * 2 ^ (52 - n.log2) := Nat.mul_le_mul_right _ (Nat.le_of_lt hlt)
          _ = 2 ^ (n.log2 + 1 + (52 - n.log2)) := (Nat.pow_add ..).symm
          _ = 2 ^ 53 := by congr 1; omega
      · apply roundShift_le
        have he : n.log2 - 52 + 53 = n.log2 + 1 := by omega
        rwa [he]
    simp only [hn, if_false, Nat.pow_eq] at hm ⊢
    omega

theorem isFinite_ofInt (n : Int64) : (ofInt n.toInt).isFinite = true := by
  have hlow := n.le_toInt
  have hhigh := n.toInt_lt
  have hm : magnitudeBits n.toInt.natAbs ≤ 1087 * Nat.pow 2 52 := by
    apply magnitudeBits_le
    rw [Nat.pow_eq]
    omega
  simp only [isFinite, exponentField, ofInt, Nat.pow_eq, UInt64.toNat_ofNat', bne_iff_ne] at hm ⊢
  split <;> omega

end Binary64

mutual
/-- The zero of a type has a document, as there is no pointer in it. -/
theorem Ty.documentBy_zero (follow : CellId → Except DocumentFault Document) :
    (t : Ty) → ∃ d, t.zero.documentBy follow = .ok d
  | .struct name fields => by
    obtain ⟨ds, hds⟩ := Ty.documentsBy_zeros follow fields
    exact ⟨_, by rw [Ty.zero, Value.documentBy, hds]; rfl⟩
  | .float => ⟨_, rfl⟩
  | .bool | .int | .string | .map _ _ | .slice _ | .pointer _ | .any => ⟨_, rfl⟩

theorem Ty.documentsBy_zeros (follow : CellId → Except DocumentFault Document) :
    (fields : List (String × Ty)) → ∃ ds, Value.documentsBy follow (Ty.zeros fields) = .ok ds
  | [] => ⟨[], rfl⟩
  | (_, t) :: fields => by
    obtain ⟨d, hd⟩ := Ty.documentBy_zero follow t
    obtain ⟨ds, hds⟩ := Ty.documentsBy_zeros follow fields
    exact ⟨d :: ds, by rw [Ty.zeros, Value.documentsBy, hd, ok_bind, hds]; rfl⟩
end

theorem Ty.unbox_zero : t.zero.unbox = t.zero := by
  cases t <;> rfl

namespace Document

/-- The document that is read where `d` was written to a location of type `t`. -/
def keptAs (g : Graph) (t : Ty) : Document → Except DocumentFault Document
  | null => t.zero.document g
  | int i => .ok (if t = .float then .float (.ofInt i) else .int i)
  | d => .ok d

theorem exists_keptAs : ∃ x, d.keptAs g t = .ok x := by
  cases d with
  | null => exact Ty.documentBy_zero _ t
  | _ => exact ⟨_, rfl⟩

theorem valueFor_int (n : Int64) :
    (int n.toInt).valueFor t = if t = .float then .float (.ofInt n.toInt) else .int n := by
  cases t <;> simp [valueFor, value_int]

/-- A written document is an interface only where its type is. -/
theorem eq_any_of_valueFor (h : (d.valueFor t).ty = .any) : t = .any := by
  unfold valueFor at h
  split at h
  · exact Ty.ty_zero.symm.trans h
  · cases h
  · rename_i hn _
    cases hv : d.value with
    | nilAny => exact absurd hv hn
    | boxed u => exact absurd hv value_ne_boxed
    | _ => cases hv ▸ h

/-- Out of its interface, what is written prints as the document, but for a null and for an integer
that became a float. -/
theorem document_valueFor (hd : d.Standard) :
    (d.valueFor t).unbox.document g = d.keptAs g t := by
  cases hd with
  | null => exact congrArg (Value.document g) Ty.unbox_zero
  | int hi =>
    obtain ⟨n, rfl⟩ := exists_int64 hi
    rw [valueFor_int, keptAs]
    split
    · simp only [Value.unbox, Value.document, Value.documentBy, ofFloat, Binary64.isFinite_ofInt,
        if_true]
    · rfl
  | bool | string => rfl
  | float hx => exact documentBy_value (.float hx)
  | array hs => exact documentBy_value (.array hs)
  | object ha hs => exact documentBy_value (.object ha hs)

end Document

/-! A read does not fail for a type -/

theorem Value.part_ne {x : Step} : v.part x ≠ .error (.notAssignable s t) := by
  unfold part
  split
  · split <;> simp
  · simp
  · split <;> simp
  · simp
  · simp

theorem Value.resolve_ne : v.resolve path ≠ .error (.notAssignable s t) := by
  induction path generalizing v with
  | nil => simp [resolve]
  | cons x path ih =>
    intro h
    rcases bind_eq_error.1 h with h | ⟨w, _, h⟩
    · exact part_ne h
    · exact ih h

theorem Graph.load_ne : g.load c path ≠ .error (.notAssignable s t) := by
  intro h
  rcases bind_eq_error.1 h with h | ⟨w, _, h⟩
  · obtain ⟨_, _, h⟩ := mapError_eq_error.1 h
    cases h
  · exact Value.resolve_ne h

theorem Graph.current_ne {map : Except Fault Value} (hm : map ≠ .error (.notAssignable s t)) :
    g.current cache key map ≠ .error (.notAssignable s t) := by
  intro h
  unfold Graph.current at h
  split at h
  · cases h
  · exact load_ne (map_eq_error.1 h)
  · rcases bind_eq_error.1 h with h | ⟨m, _, h⟩
    · exact hm h
    · cases m <;> cases h

theorem Location.read_ne : p.read g ≠ .error (.notAssignable s t) := by
  induction p with
  | cell => exact Graph.load_ne
  | entry host key elem cache path ih =>
    intro h
    rcases bind_eq_error.1 h with h | ⟨current, _, h⟩
    · exact Graph.current_ne ih h
    · cases current with
      | none => cases h
      | some whole => exact Value.resolve_ne h

theorem Handle.ty_ne : h.ty g ≠ .error (.notAssignable s t) := by
  intro ht
  cases h with
  | direct p => exact Location.read_ne (map_eq_error.1 ht)
  | entry e =>
    simp only [Handle.ty, Entry.ty] at ht
    split at ht
    · cases ht
    · cases ht
    · exact Graph.load_ne (map_eq_error.1 ht)

/-! Interfaces that hold no interface -/

theorem Location.not_content_of_read (hg : g.Throughout Value.Plain) (hr : p.read g = .ok w)
    (hw : w.ty = .any) : p.path.getLast? ≠ some .unbox := by
  intro hu
  obtain ⟨path, hp⟩ := List.getLast?_eq_some_iff.1 hu
  rw [← withPath_path (p := p), hp, read_concat] at hr
  obtain ⟨old, ho, hpart⟩ := bind_eq_ok.1 hr
  have hplain := (every_read hg ho).here
  cases old <;> cases hpart
  exact hplain hw

/-- No handle of an interface leads to the content of an interface. -/
theorem Handle.not_content_of_ty (hg : g.Throughout Value.Plain) (ht : h.ty g = .ok .any) :
    (h.location g).path.getLast? ≠ some .unbox := by
  cases h with
  | direct p =>
    obtain ⟨w, hw, hty⟩ := map_eq_ok.1 ht
    exact Location.not_content_of_read hg hw hty
  | entry e =>
    by_cases hn : g.Targets e.cache
    · obtain ⟨c, path, hc⟩ := hn
      simp only [Handle.ty, Entry.ty, hc] at ht
      obtain ⟨w, hw, hty⟩ := map_eq_ok.1 ht
      rw [Handle.location, Entry.location_of_target hc]
      exact Location.not_content_of_read (p := .cell c path) hg hw hty
    · rw [Handle.location, Entry.location_of_not_targets hn]
      simp [Location.path]

/-- The document that was written, or what the type that was there made of it, is read. A null is
taken by every slot on the way of a walk, whatever type is there. -/
theorem readDocument_of_write {s : Session} (hs : s.Unchecked) :
    (s.graph.Throughout Value.Plain → ∀ h ∈ s.handles, ∀ t d g, h.ty s.graph = .ok t →
      d.Standard → h.writeDocument s.graph d = .ok g →
      ∃ x, d.keptAs g t = .ok x ∧ h.readDocument g = .ok x) ∧
    (s.graph.WellTyped → ∀ c ms g h a b, (Handle.root c).walk s.graph ms = .ok (g, h) →
      h.writeDocument g .null ≠ .error (.graph (.notAssignable a b))) := by
  constructor
  · intro hplain h hh t d g ht hd hw
    simp only [Handle.writeDocument, ht, mapError_ok, ok_bind] at hw
    have hget := get_of_set hs hh (fun hv => ?_) (mapError_eq_ok.1 hw)
    · obtain ⟨x, hx⟩ := Document.exists_keptAs (g := g) (d := d) (t := t)
      refine ⟨x, hx, ?_⟩
      rw [Handle.readDocument, hget, mapError_ok, ok_bind, Document.document_valueFor hd, hx]
    · exact Handle.not_content_of_ty hplain (Document.eq_any_of_valueFor hv ▸ ht)
  · intro hty c ms g h a b hwalk hw
    obtain ⟨hp, ha⟩ := Handle.fitted_walk (h := .root c) trivial trivial hty hs.fresh hwalk
    rcases bind_eq_error.1 hw with hw | ⟨t, ht, hw⟩
    · obtain ⟨_, hf, he⟩ := mapError_eq_error.1 hw
      cases he
      exact Handle.ty_ne hf
    · have ht := mapError_eq_ok.1 ht
      obtain ⟨_, hf, he⟩ := mapError_eq_error.1 hw
      cases he
      have hzero : (Document.null.valueFor t).ty = t := Ty.ty_zero
      exact Handle.set_ne hp ha (hzero.symm ▸ ht) hf

def meter : Layout := ⟨"Meter", [("reading", .float), ("note", .any)]⟩

/-- The number in a struct that a map has. -/
def reading : Handle := .direct (.entry (.cell ⟨0⟩ []) (.string "inlet") meter.ty ⟨0⟩ [.field 0])

def metered : Session where
  graph := {
    cells := #[.map .string meter.ty
      [(.string "inlet", .struct meter [.float .zero, .boxed (.string "new")])]]
    caches := []
    nextCache := 1
    holds := [] }
  handles := [reading, .entry ⟨.cell ⟨0⟩ [], .string "inlet", meter.ty, ⟨0⟩⟩, .root ⟨0⟩]

theorem unchecked_metered : metered.Unchecked := by
  have h₁ := Session.Unchecked.start.step (.alloc (v := .map .string meter.ty
    [(.string "inlet", .struct meter [.float .zero, .boxed (.string "new")])]) trivial)
  have h₂ := h₁.step (.root (c := ⟨0⟩) rfl)
  have h₃ := h₂.step (.move (m := .entry (.string "inlet")) (.head _) rfl)
  exact h₃.step (.move (m := .field "reading") (.head _) rfl)

theorem readDocument_of_write_reading :
    (∃ g, reading.writeDocument metered.graph (.int 3) = .ok g ∧
      reading.readDocument g = .ok (.float (.ofInt 3))) ∧
    ∃ g h, (Handle.root ⟨0⟩).walk metered.graph
        [.entry (.string "inlet"), .field "note", .elem] = .ok (g, h) ∧
      ∀ a b, h.writeDocument g .null ≠ .error (.graph (.notAssignable a b)) := by
  obtain ⟨hread, hnull⟩ := readDocument_of_write unchecked_metered
  have hplain : metered.graph.Throughout Value.Plain :=
    ⟨(by decide : metered.graph.BoxedOnce), fun i v hv => by cases hv⟩
  constructor
  · obtain ⟨g, hg⟩ : ∃ g, reading.writeDocument metered.graph (.int 3) = .ok g := ⟨_, rfl⟩
    obtain ⟨x, hx, hr⟩ := hread hplain reading (.head _) .float (.int 3) g rfl (.int (by decide)) hg
    cases hx
    exact ⟨g, hg, hr⟩
  · obtain ⟨g, h, hw⟩ : ∃ g h, (Handle.root ⟨0⟩).walk metered.graph
      [.entry (.string "inlet"), .field "note", .elem] = .ok (g, h) := ⟨_, _, rfl⟩
    exact ⟨g, h, hw, fun a b => hnull (by decide) ⟨0⟩ _ g h a b hw⟩

end ObjectGraph
