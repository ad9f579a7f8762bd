import Mathlib.Order.Defs.LinearOrder
import Mathlib.Order.Defs.Unbundled
import ObjectGraph.Key

/-! The order of keys. Strings are compared by code points, and that is the order of their bytes: of
two characters the first byte in which they differ is the smaller one in the smaller character. -/
namespace ObjectGraph

namespace Text

variable {α : Type} [LT α] {x y : α} {xs ys zs ws : List α} {a b : Nat} {as bs : List UInt8}
  {c d : Char} {cs ds : List Char} {s t : String}

/-- The lists differ in a place that both have, and the first one has the smaller member there. -/
inductive Diverges : List α → List α → Prop
  | head {x y : α} {xs ys : List α} (h : x < y) : Diverges (x :: xs) (y :: ys)
  | tail {x : α} {xs ys : List α} (h : Diverges xs ys) : Diverges (x :: xs) (x :: ys)

/-- Whatever follows, the first list is the smaller one. -/
theorem Diverges.append_lt (h : Diverges xs ys) : xs ++ zs < ys ++ ws := by
  induction h with
  | head h => exact List.cons_lt_cons_iff.2 (Or.inl h)
  | tail _ ih => exact List.cons_lt_cons_iff.2 (Or.inr ⟨rfl, ih⟩)

/-- Bytes that are not larger, and after equal ones lists that diverge. -/
theorem diverges_bytes (hab : a ≤ b) (hb : b < 256) (h : a = b → Diverges as bs) :
    Diverges (UInt8.ofNat a :: as) (UInt8.ofNat b :: bs) := by
  rcases Nat.lt_or_eq_of_le hab with hlt | rfl
  · exact .head ((UInt8.ofNat_lt_iff_lt (Nat.lt_trans hlt hb) hb).2 hlt)
  · exact .tail (h rfl)

/-- A smaller character has the smaller bytes. One that is written in fewer bytes has the smaller
first byte. -/
theorem diverges_utf8 (h : c < d) :
    Diverges (String.utf8EncodeChar c) (String.utf8EncodeChar d) := by
  have hlt : c.val.toNat < d.val.toNat := h
  have hd : d.val.toNat < 0x110000 := by
    have hv := d.valid
    simp only [UInt32.isValidChar, Nat.isValidChar] at hv
    omega
  simp only [String.utf8EncodeChar]
  generalize c.val.toNat = m at hlt
  generalize d.val.toNat = n at hlt hd
  split_ifs
  all_goals
    -- equal bytes of the same places would make the characters equal
    repeat' refine diverges_bytes (by omega) (by omega) fun _ => ?_
    omega

/-- Texts are in the order of the bytes of their characters, one after the other. -/
theorem flatMap_utf8_lt (h : cs < ds) :
    cs.flatMap String.utf8EncodeChar < ds.flatMap String.utf8EncodeChar := by
  replace h := List.lex_lt.2 h
  induction h with
  | nil =>
    rw [List.flatMap_cons]
    cases hc : String.utf8EncodeChar _ with
    | nil => exact absurd hc String.utf8EncodeChar_ne_nil
    | cons b bs => exact List.nil_lt_cons b _
  | rel h =>
    rw [List.flatMap_cons, List.flatMap_cons]
    exact (diverges_utf8 h).append_lt
  | cons _ ih =>
    rw [List.flatMap_cons, List.flatMap_cons]
    exact List.append_left_lt ih

theorem bytes_eq (s : String) :
    s.toUTF8.data.toList = s.toList.flatMap String.utf8EncodeChar := by
  have hs : s.toUTF8 = (s.toList.flatMap String.utf8EncodeChar).toByteArray :=
    String.utf8Encode_toList.symm
  rw [hs, List.toList_data_toByteArray]

/-- The order of strings is the order of their bytes. -/
theorem lt_iff_bytes_lt : s < t ↔ s.toUTF8.data.toList < t.toUTF8.data.toList := by
  have hlt : ∀ {s t : String}, s < t → s.toUTF8.data.toList < t.toUTF8.data.toList := by
    intro s t h
    rw [bytes_eq, bytes_eq]
    exact flatMap_utf8_lt (String.lt_iff.1 h)
  refine ⟨hlt, fun h => ?_⟩
  by_contra hst
  by_cases hts : t < s
  · exact List.lt_asymm h (hlt hts)
  · obtain rfl := String.le_antisymm (String.not_lt.1 hts) (String.not_lt.1 hst)
    exact List.lt_irrefl _ h

end Text

namespace Key

variable {k l m : Key}

/-- Booleans come before integers and integers before strings, false before true, integers by their
values and strings by their bytes. -/
inductive Before : Key → Key → Prop
  | bools : Before (bool false) (bool true)
  | boolInt {b : Bool} {i : Int64} : Before (bool b) (int i)
  | boolString {b : Bool} {s : String} : Before (bool b) (string s)
  | ints {i j : Int64} (h : i.toInt < j.toInt) : Before (int i) (int j)
  | intString {i : Int64} {s : String} : Before (int i) (string s)
  | strings {s t : String} (h : s.toUTF8.data.toList < t.toUTF8.data.toList) :
      Before (string s) (string t)

/-- Keys are compared in that order. -/
theorem compare_eq_lt : compare k l = .lt ↔ k.Before l := by
  cases k with
  | bool a =>
    cases l with
    | bool b =>
      constructor
      · intro h
        cases a <;> cases b <;> first | exact .bools | cases h
      · rintro ⟨⟩
        rfl
    | int j => exact ⟨fun _ => .boolInt, fun _ => rfl⟩
    | string t => exact ⟨fun _ => .boolString, fun _ => rfl⟩
  | int i =>
    cases l with
    | bool b => exact ⟨fun h => (nomatch h), fun h => (nomatch h)⟩
    | int j =>
      have hc : compare (int i) (int j) = .lt ↔ i < j := compareOfLessAndEq_eq_lt
      rw [hc, Int64.lt_iff_toInt_lt]
      refine ⟨.ints, ?_⟩
      rintro ⟨⟩
      assumption
    | string t => exact ⟨fun _ => .intString, fun _ => rfl⟩
  | string s =>
    cases l with
    | bool b | int j => exact ⟨fun h => (nomatch h), fun h => (nomatch h)⟩
    | string t =>
      have hc : compare (string s) (string t) = .lt ↔ s < t := compareOfLessAndEq_eq_lt
      rw [hc, Text.lt_iff_bytes_lt]
      refine ⟨.strings, ?_⟩
      rintro ⟨⟩
      assumption

theorem compare_eq_eq : compare k l = .eq ↔ k = l := Std.LawfulEqOrd.compare_eq_iff_eq

theorem not_before_self : ¬ k.Before k := by
  rw [← compare_eq_lt, Std.ReflOrd.compare_self]
  exact fun h => by cases h

theorem Before.trans (h : k.Before l) (h' : l.Before m) : k.Before m :=
  compare_eq_lt.1 (Std.TransCmp.lt_trans (compare_eq_lt.2 h) (compare_eq_lt.2 h'))

theorem before_trichotomy : k.Before l ∨ k = l ∨ l.Before k := by
  cases h : compare k l with
  | lt => exact Or.inl (compare_eq_lt.1 h)
  | eq => exact Or.inr (Or.inl (compare_eq_eq.1 h))
  | gt => exact Or.inr (Or.inr (compare_eq_lt.1 (Std.OrientedCmp.gt_iff_lt.1 h)))

instance : IsStrictTotalOrder Key Before where
  irrefl _ := not_before_self
  trans _ _ _ := .trans
  trichotomous _ _ hk hl := (before_trichotomy.resolve_left hk).resolve_right hl

end Key

end ObjectGraph
