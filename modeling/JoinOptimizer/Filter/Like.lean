import JoinOptimizer.Filter.Statement
import JoinOptimizer.Lib.Regex
import Mathlib.Data.List.Infix

/-! `like_match` with its cache against SQL's `LIKE`, for an RE2 that does what its documentation says. -/

namespace JoinOptimizer

open Lib

/-- What the documentation of RE2 says of expressions of these items: they compile, and `FullMatch` of an
ASCII string is a match in full. -/
structure RE2.Documented (re2 : RE2) : Prop where
  matches_iff : ∀ items : List RegexItem, (∀ item ∈ items, item.Valid) →
    ∃ fullMatch, re2 (items.flatMap RegexItem.text) = some fullMatch ∧
      ∀ s : Bytes, (∀ c ∈ s, c < 128) → (fullMatch s = true ↔ RegexItem.Matches items s)

/-- `LIKE`: a percent sign stands for any characters and an underscore for any one. -/
def Like : Bytes → Bytes → Prop
  | [], s => s = []
  | c :: p, s =>
    if c = 37 then ∃ t u, s = t ++ u ∧ Like p u
    else if c = 95 then ∃ d t, s = d :: t ∧ Like p t
    else ∃ t, s = c :: t ∧ Like p t

/-- A byte of a character of UTF-8 that is not its first one. -/
def continues (c : UInt8) : Bool := 128 ≤ c && c < 192

/-- `LIKE` on strings of UTF-8, where an underscore stands for one character with all its bytes. -/
def LikeText : Bytes → Bytes → Prop
  | [], s => s = []
  | c :: p, s =>
    if c = 37 then ∃ t u, s = t ++ u ∧ LikeText p u
    else if c = 95 then ∃ d t, s = d :: t ∧ LikeText p (t.dropWhile continues)
    else ∃ t, s = c :: t ∧ LikeText p t

/-- On ASCII strings every character has one byte. -/
theorem likeText_iff {p s : Bytes} (h : ∀ c ∈ s, c < 128) : LikeText p s ↔ Like p s := by
  induction p generalizing s with
  | nil => exact Iff.rfl
  | cons c p ih =>
    unfold LikeText Like
    split
    · refine exists_congr fun t => exists_congr fun u => and_congr_right ?_
      rintro rfl
      exact ih fun c hc => h c (List.mem_append_right _ hc)
    · split
      · refine exists_congr fun d => exists_congr fun t => and_congr_right ?_
        rintro rfl
        have ht : ∀ c ∈ t, c < 128 := fun c hc => h c (List.mem_cons_of_mem _ hc)
        have hdrop : t.dropWhile continues = t := by
          cases t with
          | nil => rfl
          | cons e t =>
            have he := ht e List.mem_cons_self
            rw [List.dropWhile_cons_of_neg]
            simp only [continues, Bool.and_eq_true, decide_eq_true_eq, not_and]
            exact fun hle => absurd he (UInt8.not_lt.mpr hle)
        rw [hdrop]
        exact ih ht
      · refine exists_congr fun t => and_congr_right ?_
        rintro rfl
        exact ih fun c hc => h c (List.mem_cons_of_mem _ hc)

instance LikeText.decidable : (p s : Bytes) → Decidable (LikeText p s)
  | [], s => inferInstanceAs (Decidable (s = []))
  | c :: p, s =>
    have rest (u : Bytes) : Decidable (LikeText p u) := decidable p u
    have percent : Decidable (∃ t u, s = t ++ u ∧ LikeText p u) :=
      decidable_of_iff (∃ u ∈ s.tails, LikeText p u) <| by
        simp only [List.mem_tails]
        constructor
        · rintro ⟨u, ⟨t, rfl⟩, hu⟩
          exact ⟨t, u, rfl, hu⟩
        · rintro ⟨t, u, rfl, hu⟩
          exact ⟨u, ⟨t, rfl⟩, hu⟩
    have first (q : UInt8 → Bytes → Prop) [∀ d t, Decidable (q d t)] :
        Decidable (∃ d t, s = d :: t ∧ q d t) :=
      match s with
      | [] => isFalse (by simp)
      | d :: t => decidable_of_iff (q d t) (by simp)
    have literal : Decidable (∃ t, s = c :: t ∧ LikeText p t) :=
      decidable_of_iff (∃ d t, s = d :: t ∧ d = c ∧ LikeText p t) <| by
        constructor
        · rintro ⟨_, t, rfl, rfl, ht⟩
          exact ⟨t, rfl, ht⟩
        · rintro ⟨t, rfl, ht⟩
          exact ⟨c, t, rfl, rfl, ht⟩
    inferInstanceAs (Decidable (if c = 37 then _ else if c = 95 then _ else _))

namespace Comparison

/-- `regex_cache` of a thread. -/
abbrev RegexCache := List (Bytes × (Bytes → Bool))

/-- `like_match` with the cache that it finds and leaves; an expression that does not compile is not kept. -/
def likeMatchCached (re2 : RE2) (cache : RegexCache) (str pattern : Bytes) : Bool × RegexCache :=
  match cache.lookup pattern with
  | some fullMatch => (fullMatch str, cache)
  | none =>
    match re2 (likeRegex pattern) with
    | none => (false, cache)
    | some fullMatch => (fullMatch str, (pattern, fullMatch) :: cache)

/-- The cache after calls with strings and patterns. -/
def cacheAfter (re2 : RE2) (calls : List (Bytes × Bytes)) : RegexCache :=
  calls.foldl (fun cache call => (likeMatchCached re2 cache call.1 call.2).2) []

section Cache

variable {re2 : RE2} {cache : RegexCache} {str pattern : Bytes}

/-- The cache keeps for a pattern what RE2 compiles for it. -/
def Compiled (re2 : RE2) (cache : RegexCache) : Prop :=
  ∀ entry ∈ cache, re2 (likeRegex entry.1) = some entry.2

theorem Compiled.likeMatchCached (h : Compiled re2 cache) :
    (likeMatchCached re2 cache str pattern).1 = likeMatch re2 str pattern ∧
      Compiled re2 (likeMatchCached re2 cache str pattern).2 := by
  unfold Comparison.likeMatchCached likeMatch
  cases hlookup : cache.lookup pattern with
  | some fullMatch =>
    obtain ⟨l, r, rfl, -⟩ := List.lookup_eq_some_iff.mp hlookup
    have hentry := h (pattern, fullMatch) (by simp)
    refine ⟨?_, h⟩
    rw [hentry]
  | none =>
    cases hcompile : re2 (likeRegex pattern) with
    | none => exact ⟨rfl, h⟩
    | some fullMatch => exact ⟨rfl, List.forall_mem_cons.mpr ⟨hcompile, h⟩⟩

theorem compiled_cacheAfter (re2 : RE2) (calls : List (Bytes × Bytes)) :
    Compiled re2 (cacheAfter re2 calls) :=
  List.foldlRecOn calls _ nofun fun _ h _ _ => h.likeMatchCached.2

end Cache

section Patterns

/-- The items that `like_match` writes for a pattern. -/
def itemsOf (pattern : Bytes) : List RegexItem :=
  pattern.map fun c =>
    if c = 37 then .dotStar
    else if c = 95 then .dot
    else if c ∈ special then .quoted c
    else .literal c

theorem likeRegex_eq (pattern : Bytes) :
    likeRegex pattern = (itemsOf pattern).flatMap RegexItem.text := by
  unfold likeRegex itemsOf
  rw [List.flatMap_map]
  apply List.flatMap_congr
  intro c _
  repeat' split
  all_goals rfl

/-- The list of characters that `like_match` escapes misses none that stands for more than itself. -/
theorem valid_itemsOf {pattern : Bytes} (h : ∀ c ∈ pattern, c < 128) :
    ∀ item ∈ itemsOf pattern, item.Valid := by
  intro item hitem
  obtain ⟨c, hc, rfl⟩ := List.mem_map.mp hitem
  have hmeta : ∀ c ∈ RegexItem.metacharacters, c ∈ special := by
    decide +kernel
  have hpunctuation : ∀ c ∈ special, c ∈ RegexItem.punctuation := by decide +kernel
  split
  · trivial
  · split
    · trivial
    · split
      · next hspecial => exact hpunctuation c hspecial
      · next hspecial => exact ⟨h c hc, fun hmem => hspecial (hmeta c hmem)⟩

end Patterns

end Comparison

section Like

variable {p s : Bytes}

/-- A string has the line feeds of a pattern that it is like. -/
theorem Like.count_le (h : Like p s) : p.count RegexItem.lineFeed ≤ s.count RegexItem.lineFeed := by
  induction p generalizing s with
  | nil => exact Nat.zero_le _
  | cons c p ih =>
    unfold Like at h
    split at h
    · next hpercent =>
      obtain ⟨t, u, rfl, hu⟩ := h
      subst hpercent
      rw [List.count_cons_of_ne (by decide), List.count_append]
      exact Nat.le_add_left_of_le (ih hu)
    · split at h
      · next hunderscore =>
        obtain ⟨d, t, rfl, ht⟩ := h
        subst hunderscore
        rw [List.count_cons_of_ne (by decide)]
        exact (ih ht).trans List.count_le_count_cons
      · obtain ⟨t, rfl, ht⟩ := h
        rw [List.count_cons, List.count_cons]
        exact Nat.add_le_add_right (ih ht) _

/-- A dot takes no line feed, so that a match has no other line feeds than its pattern. -/
theorem matches_itemsOf : RegexItem.Matches (Comparison.itemsOf p) s ↔
    Like p s ∧ s.count RegexItem.lineFeed = p.count RegexItem.lineFeed := by
  induction p generalizing s with
  | nil =>
    refine (and_iff_left_of_imp ?_).symm
    rintro rfl
    rfl
  | cons c p ih =>
    unfold Like Comparison.itemsOf
    rw [List.map_cons]
    by_cases hpercent : c = 37
    · subst hpercent
      rw [if_pos rfl, if_pos rfl, List.count_cons_of_ne (by decide)]
      constructor
      · rintro ⟨t, u, rfl, ht, hu⟩
        obtain ⟨hlike, hcount⟩ := ih.mp hu
        refine ⟨⟨t, u, rfl, hlike⟩, ?_⟩
        rw [List.count_append, List.count_eq_zero.mpr ht, hcount, Nat.zero_add]
      · rintro ⟨⟨t, u, rfl, hlike⟩, hcount⟩
        have hle := hlike.count_le
        rw [List.count_append] at hcount
        exact ⟨t, u, rfl, List.count_eq_zero.mp (by omega), ih.mpr ⟨hlike, by omega⟩⟩
    · rw [if_neg hpercent, if_neg hpercent]
      by_cases hunderscore : c = 95
      · subst hunderscore
        rw [if_pos rfl, if_pos rfl, List.count_cons_of_ne (by decide)]
        constructor
        · rintro ⟨d, t, rfl, hd, ht⟩
          obtain ⟨hlike, hcount⟩ := ih.mp ht
          refine ⟨⟨d, t, rfl, hlike⟩, ?_⟩
          rw [List.count_cons_of_ne hd, hcount]
        · rintro ⟨⟨d, t, rfl, hlike⟩, hcount⟩
          have hle := hlike.count_le
          have hd : d ≠ RegexItem.lineFeed := by
            rintro rfl
            rw [List.count_cons_self] at hcount
            omega
          rw [List.count_cons_of_ne hd] at hcount
          exact ⟨d, t, rfl, hd, ih.mpr ⟨hlike, hcount⟩⟩
      · rw [if_neg hunderscore, if_neg hunderscore]
        -- with or without a backslash the character is matched as itself
        have hitem : ∀ item : RegexItem, item = .quoted c ∨ item = .literal c →
            (RegexItem.Matches (item :: Comparison.itemsOf p) s ↔
              ∃ t, s = c :: t ∧ RegexItem.Matches (Comparison.itemsOf p) t) := by
          rintro item (rfl | rfl) <;> exact Iff.rfl
        refine (hitem _ ?_).trans ?_
        · split
          · exact .inl rfl
          · exact .inr rfl
        · constructor
          · rintro ⟨t, rfl, ht⟩
            obtain ⟨hlike, hcount⟩ := ih.mp ht
            refine ⟨⟨t, rfl, hlike⟩, ?_⟩
            rw [List.count_cons, List.count_cons, hcount]
          · rintro ⟨⟨t, rfl, hlike⟩, hcount⟩
            rw [List.count_cons, List.count_cons] at hcount
            exact ⟨t, rfl, ih.mpr ⟨hlike, by omega⟩⟩

end Like

namespace Comparison

/-- What `like_match` says of ASCII strings. -/
theorem likeMatch_documented {re2 : RE2} (hre2 : RE2.Documented re2) {str pattern : Bytes}
    (hstr : ∀ c ∈ str, c < 128) (hpattern : ∀ c ∈ pattern, c < 128) :
    likeMatch re2 str pattern = true ↔
      Like pattern str ∧ str.count RegexItem.lineFeed = pattern.count RegexItem.lineFeed := by
  obtain ⟨fullMatch, hcompile, hmatch⟩ := hre2.matches_iff _ (valid_itemsOf hpattern)
  rw [likeMatch, likeRegex_eq, hcompile]
  exact (hmatch str hstr).trans matches_itemsOf

/-- Whatever was matched before, `like_match` answers as `LIKE` exactly if the string is not like the pattern
or has no more line feeds than it. -/
theorem likeMatch_iff {re2 : RE2} (hre2 : RE2.Documented re2) (calls : List (Bytes × Bytes))
    {str pattern : Bytes} (hstr : ∀ c ∈ str, c < 128) (hpattern : ∀ c ∈ pattern, c < 128) :
    ((likeMatchCached re2 (cacheAfter re2 calls) str pattern).1 = true ↔ Like pattern str) ↔
      (Like pattern str → str.count RegexItem.lineFeed = pattern.count RegexItem.lineFeed) := by
  rw [(compiled_cacheAfter re2 calls).likeMatchCached.1, likeMatch_documented hre2 hstr hpattern]
  exact and_iff_left_iff_imp

/-- An RE2 that knows expressions of these items only. -/
def itemsRE2 : RE2 := fun regex => (RegexItem.ofText regex).map RegexItem.fullMatch

theorem documented_itemsRE2 : RE2.Documented itemsRE2 where
  matches_iff items hitems := by
    refine ⟨RegexItem.fullMatch items, ?_, fun s _ => RegexItem.fullMatch_iff items s⟩
    rw [itemsRE2, RegexItem.ofText_text hitems, Option.map_some]

/-- `a%` matches `ab`, also behind an earlier call with that pattern. -/
theorem likeMatch_iff_prefix :
    (likeMatchCached itemsRE2 (cacheAfter itemsRE2 [([98], [97, 37])]) [97, 98] [97, 37]).1 = true := by
  have hlike : Like [97, 37] [97, 98] := ⟨[98], rfl, [98], [], rfl, rfl⟩
  exact ((likeMatch_iff documented_itemsRE2 [([98], [97, 37])] (by decide +kernel)
    (by decide +kernel)).mpr fun _ => by decide +kernel).mpr hlike

/-- A line feed is like `%`, and `like_match` says that it is not. -/
theorem likeMatch_lineFeed :
    RE2.Documented itemsRE2 ∧ Like [37] [10] ∧
      (likeMatchCached itemsRE2 (cacheAfter itemsRE2 []) [10] [37]).1 = false :=
  ⟨documented_itemsRE2, ⟨[10], [], rfl, rfl⟩, by decide⟩

end Comparison

end JoinOptimizer
