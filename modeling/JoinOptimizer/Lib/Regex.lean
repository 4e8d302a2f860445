import Mathlib.Data.List.Basic
import Mathlib.Tactic.Common

/-! Regular expressions that are sequences of characters, dots and starred dots: their text, the strings
that they match in full, and a matcher. -/

namespace JoinOptimizer.Lib

/-- An item of a regular expression; a quoted character has a backslash before it. -/
inductive RegexItem
  | literal (c : UInt8)
  | quoted (c : UInt8)
  | dot
  | dotStar
  deriving DecidableEq

namespace RegexItem

/-- The character that a dot does not stand for. -/
def lineFeed : UInt8 := 10

/-- The characters that stand for more than themselves: `\ . + * ? ( ) | [ ] { } ^ $`. -/
def metacharacters : List UInt8 := [92, 46, 43, 42, 63, 40, 41, 124, 91, 93, 123, 125, 94, 36]

/-- The punctuation of ASCII. -/
def punctuation : List UInt8 :=
  (List.range' 33 15 ++ List.range' 58 7 ++ List.range' 91 6 ++ List.range' 123 4).map UInt8.ofNat

/-- A character without a backslash is no metacharacter, and one with a backslash is punctuation. -/
def Valid : RegexItem → Prop
  | literal c => c < 128 ∧ c ∉ metacharacters
  | quoted c => c ∈ punctuation
  | dot => True
  | dotStar => True

def text : RegexItem → List UInt8
  | literal c => [c]
  | quoted c => [92, c]
  | dot => [46]
  | dotStar => [46, 42]

/-- The strings that the items match in full. -/
def Matches : List RegexItem → List UInt8 → Prop
  | [], s => s = []
  | literal c :: r, s => ∃ t, s = c :: t ∧ Matches r t
  | quoted c :: r, s => ∃ t, s = c :: t ∧ Matches r t
  | dot :: r, s => ∃ c t, s = c :: t ∧ c ≠ lineFeed ∧ Matches r t
  | dotStar :: r, s => ∃ t u, s = t ++ u ∧ lineFeed ∉ t ∧ Matches r u

def fullMatch : List RegexItem → List UInt8 → Bool
  | [], s => s.isEmpty
  | literal c :: r, s => s.head? == some c && fullMatch r s.tail
  | quoted c :: r, s => s.head? == some c && fullMatch r s.tail
  | dot :: r, s => s.head?.any (· != lineFeed) && fullMatch r s.tail
  | dotStar :: r, s =>
    (List.range (s.length + 1)).any fun k => !(s.take k).contains lineFeed && fullMatch r (s.drop k)

theorem fullMatch_iff (r : List RegexItem) (s : List UInt8) : fullMatch r s = true ↔ Matches r s := by
  have hcons : ∀ (r : List RegexItem) (c : UInt8),
      (∀ s, fullMatch r s = true ↔ Matches r s) → ∀ s : List UInt8,
        (s.head? == some c && fullMatch r s.tail) = true ↔ ∃ t, s = c :: t ∧ Matches r t := by
    intro r c ih s
    cases s with
    | nil => simp
    | cons d t => simp [ih, and_assoc]
  induction r generalizing s with
  | nil => simp [fullMatch, Matches]
  | cons item r ih =>
    cases item with
    | literal c => exact hcons r c ih s
    | quoted c => exact hcons r c ih s
    | dot =>
      cases s with
      | nil => simp [fullMatch, Matches]
      | cons d t => simp [fullMatch, Matches, ih]
    | dotStar =>
      rw [fullMatch, Matches, List.any_eq_true]
      constructor
      · rintro ⟨k, -, hk⟩
        simp only [Bool.and_eq_true, Bool.not_eq_true', List.contains_eq_mem, decide_eq_false_iff_not,
          ih] at hk
        exact ⟨s.take k, s.drop k, (List.take_append_drop k s).symm, hk⟩
      · rintro ⟨t, u, rfl, ht, hu⟩
        refine ⟨t.length, List.mem_range.mpr (by rw [List.length_append]; omega), ?_⟩
        simp [ih, ht, hu]

/-- The items of a text. -/
def ofText : List UInt8 → Option (List RegexItem)
  | [] => some []
  | [c] => if c = 46 then some [dot] else if c ∈ metacharacters then none else some [literal c]
  | c :: d :: r =>
    if c = 46 then
      if d = 42 then (ofText r).map (dotStar :: ·) else (ofText (d :: r)).map (dot :: ·)
    else if c = 92 then (ofText r).map (quoted d :: ·)
    else if c ∈ metacharacters then none
    else (ofText (d :: r)).map (literal c :: ·)

theorem ofText_literal {c : UInt8} (hc : c ∉ metacharacters) (r : List UInt8) :
    ofText (c :: r) = (ofText r).map (literal c :: ·) := by
  have hdot : c ≠ 46 := by
    rintro rfl
    exact hc (by decide)
  have hbackslash : c ≠ 92 := by
    rintro rfl
    exact hc (by decide)
  cases r with
  | nil => simp [ofText, hdot, hc]
  | cons d r => rw [ofText, if_neg hdot, if_neg hbackslash, if_neg hc]

theorem ofText_dot {r : List UInt8} (hr : r.head? ≠ some 42) :
    ofText (46 :: r) = (ofText r).map (dot :: ·) := by
  cases r with
  | nil => rfl
  | cons d r =>
    have hd : d ≠ 42 := fun h => hr (by rw [h]; rfl)
    rw [ofText, if_pos rfl, if_neg hd]

/-- The text of the items is read back. -/
theorem ofText_text {r : List RegexItem} (hr : ∀ item ∈ r, item.Valid) :
    ofText (r.flatMap text) = some r := by
  induction r with
  | nil => rfl
  | cons item r ih =>
    have ih := ih fun i hi => hr i (List.mem_cons_of_mem item hi)
    rw [List.flatMap_cons]
    cases item with
    | literal c =>
      have hc : c < 128 ∧ c ∉ metacharacters := hr _ List.mem_cons_self
      rw [text, List.singleton_append, ofText_literal hc.2, ih, Option.map_some]
    | quoted c =>
      show ofText (92 :: c :: r.flatMap text) = _
      rw [ofText, if_neg (by decide), if_pos rfl, ih, Option.map_some]
    | dot =>
      -- no item begins with a star
      have hhead : (r.flatMap text).head? ≠ some 42 := by
        cases r with
        | nil => exact nofun
        | cons next r =>
          cases next with
          | literal c =>
            have hc : c < 128 ∧ c ∉ metacharacters := hr (literal c) (by simp)
            rintro h
            obtain rfl : c = 42 := by simpa [text] using h
            exact hc.2 (by decide)
          | quoted c => simp [text]
          | dot => simp [text]
          | dotStar => simp [text]
      rw [text, List.singleton_append, ofText_dot hhead, ih, Option.map_some]
    | dotStar =>
      show ofText (46 :: 42 :: r.flatMap text) = _
      rw [ofText, if_pos rfl, if_pos rfl, ih, Option.map_some]

end RegexItem

end JoinOptimizer.Lib
