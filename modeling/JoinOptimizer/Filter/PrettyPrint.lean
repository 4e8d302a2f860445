import JoinOptimizer.Filter.Selected
import JoinOptimizer.Lib.Text

/-! The text of a filter (`pretty_print` in `include/statement.h`), which names the cache file of the rows
that the filter selects. -/

namespace JoinOptimizer

open Lib

/-- The blanks of `{:{}}`. -/
def indentation (indent : Nat) : Bytes := List.replicate indent 32

namespace Comparison

def opToString : Op → Bytes
  | .EQ => ascii ['=']
  | .NEQ => ascii ['!', '=']
  | .LT => ascii ['<']
  | .GT => ascii ['>']
  | .LEQ => ascii ['<', '=']
  | .GEQ => ascii ['>', '=']
  | .LIKE => ascii ['L', 'I', 'K', 'E']
  | .NOT_LIKE => ascii ['N', 'O', 'T', ' ', 'L', 'I', 'K', 'E']
  | .IS_NULL => ascii ['I', 'S', ' ', 'N', 'U', 'L', 'L']
  | .IS_NOT_NULL => ascii ['I', 'S', ' ', 'N', 'O', 'T', ' ', 'N', 'U', 'L', 'L']

/-- The quote of a string. -/
def quote : UInt8 := 39

/-- `valueToString`; `formatDouble` is the text of a `double`. -/
def valueToString (formatDouble : UInt64 → Bytes) (c : Comparison) : Bytes :=
  if c.op = .IS_NULL ∨ c.op = .IS_NOT_NULL then []
  else
    match c.value with
    | .string value => quote :: (value ++ [quote])
    | .monostate => []
    | .int64 value => decimalInt value.toInt
    | .fp64 bits => formatDouble bits

def prettyPrint (formatDouble : UInt64 → Bytes) (c : Comparison) (indent : Nat) : Bytes :=
  indentation indent ++ decimal c.column ++ 32 :: opToString c.op ++ 32 :: c.valueToString formatDouble

end Comparison

/-- `LogicalOperation::pretty_print` from the texts of the children. -/
def LogicalOperation.prettyPrint (opStr : Bytes) (indent : Nat) (children : List Bytes) : Bytes :=
  let result := children.foldl (fun result child => result ++ (child ++ [10]))
    (indentation indent ++ 91 :: opStr ++ [93, 10])
  if children.isEmpty then result else result.dropLast

theorem LogicalOperation.prettyPrint_one (opStr : Bytes) (indent : Nat) (child : Bytes) :
    LogicalOperation.prettyPrint opStr indent [child] =
      indentation indent ++ 91 :: (opStr ++ 93 :: 10 :: child) := by
  have hresult : [child].foldl (fun result child => result ++ (child ++ [10]))
      (indentation indent ++ 91 :: opStr ++ [93, 10]) =
      (indentation indent ++ 91 :: (opStr ++ 93 :: 10 :: child)) ++ [10] := by
    simp
  unfold LogicalOperation.prettyPrint
  rw [hresult]
  exact List.dropLast_concat

theorem LogicalOperation.prettyPrint_two (opStr : Bytes) (indent : Nat) (l r : Bytes) :
    LogicalOperation.prettyPrint opStr indent [l, r] =
      indentation indent ++ 91 :: (opStr ++ 93 :: 10 :: (l ++ 10 :: r)) := by
  have hresult : [l, r].foldl (fun result child => result ++ (child ++ [10]))
      (indentation indent ++ 91 :: opStr ++ [93, 10]) =
      (indentation indent ++ 91 :: (opStr ++ 93 :: 10 :: (l ++ 10 :: r))) ++ [10] := by
    simp
  unfold LogicalOperation.prettyPrint
  rw [hresult]
  exact List.dropLast_concat

namespace Statement

def prettyPrint (formatDouble : UInt64 → Bytes) : Statement → Nat → Bytes
  | comparison c, indent => c.prettyPrint formatDouble indent
  | makeAnd l r, indent =>
    LogicalOperation.prettyPrint (ascii ['A', 'N', 'D']) indent
      [l.prettyPrint formatDouble (indent + 2), r.prettyPrint formatDouble (indent + 2)]
  | makeOr l r, indent =>
    LogicalOperation.prettyPrint (ascii ['O', 'R']) indent
      [l.prettyPrint formatDouble (indent + 2), r.prettyPrint formatDouble (indent + 2)]
  | makeNot child, indent =>
    LogicalOperation.prettyPrint (ascii ['N', 'O', 'T']) indent
      [child.prettyPrint formatDouble (indent + 2)]

end Statement

theorem Comparison.opToString_append_inj {a b : Op} {us vs : Bytes}
    (h : opToString a ++ 32 :: us = opToString b ++ 32 :: vs) : a = b ∧ us = vs := by
  cases a <;> cases b <;> simp_all [opToString, ascii]

/-- What stands at the start of the line of a statement behind its blanks. -/
def Opens (c : UInt8) : Prop := c = 91 ∨ isDigit c

/-- The texts that may stand behind a statement: nothing, or the line of another statement. -/
def Closing (text : Bytes) : Prop :=
  text = [] ∨ ∃ m c rest, text = 10 :: (indentation (m + 2) ++ c :: rest) ∧ Opens c

/-- A string with a quote behind which a line of a statement starts. -/
def Breaks (value : Bytes) : Prop :=
  ∃ front m c back, value = front ++ Comparison.quote :: 10 :: (indentation (m + 2) ++ c :: back) ∧ Opens c

theorem Closing.not_digit {text : Bytes} (h : Closing text) : ∀ c ∈ text.head?, isDigit c = false := by
  intro c hc
  rcases h with rfl | ⟨m, d, rest, rfl, -⟩
  · exact absurd hc (by simp)
  · obtain rfl : 10 = c := by simpa using hc
    rfl

/-- A string that does not break ends at its own quote. -/
theorem eq_of_quoted_append {v w us vs : Bytes} (hw : ¬ Breaks w) (hu : Closing us)
    (h : v ++ Comparison.quote :: us = w ++ Comparison.quote :: vs) (hlen : v.length ≤ w.length) :
    v = w ∧ us = vs := by
  obtain ⟨between, rfl⟩ : v <+: w := List.prefix_of_prefix_length_le
    (List.prefix_append v _) (h ▸ List.prefix_append w _) hlen
  rw [List.append_assoc] at h
  have hrest := List.append_cancel_left h
  cases between with
  | nil => exact ⟨(List.append_nil v).symm, (List.cons.inj hrest).2⟩
  | cons q back =>
    -- the string `w` goes on behind the quote of `v`, into the line behind it
    obtain ⟨rfl, hus⟩ := List.cons.inj hrest
    refine absurd ?_ hw
    rcases hu with rfl | ⟨m, c, rest, rfl, hc⟩
    · exact absurd hus (by simp)
    have hline : (10 :: indentation (m + 2) ++ [c]) <+: back := by
      have hnot : Comparison.quote ∉ 10 :: indentation (m + 2) ++ [c] := by
        simp only [indentation, List.mem_append, List.mem_cons, List.mem_replicate, List.not_mem_nil,
          or_false]
        rintro ((hline | ⟨-, hblank⟩) | rfl)
        · exact absurd hline (by decide)
        · exact absurd hblank (by decide)
        · exact absurd hc (by simp [Opens, Comparison.quote, isDigit])
      have hwhole : (10 :: indentation (m + 2) ++ [c]) <+: back ++ Comparison.quote :: vs :=
        ⟨rest, by simpa using hus⟩
      by_cases hle : (10 :: indentation (m + 2) ++ [c]).length ≤ back.length
      · exact List.prefix_of_prefix_length_le hwhole (List.prefix_append back _) hle
      · have hback : back ++ [Comparison.quote] <+: 10 :: indentation (m + 2) ++ [c] :=
          List.prefix_of_prefix_length_le ⟨vs, by simp⟩ hwhole
            (by rw [List.length_append]; exact Nat.lt_of_not_le hle)
        exact absurd (hback.subset (by simp)) hnot
    obtain ⟨tail, rfl⟩ := hline
    exact ⟨v, m, c, tail, by simp, hc⟩

namespace Comparison

/-- The literal is one that `valueToString` is asked to print for: an integer, a string, or any literal of
`IS NULL` and `IS NOT NULL`. -/
def Printable (c : Comparison) : Prop :=
  c.op = .IS_NULL ∨ c.op = .IS_NOT_NULL ∨ (∃ value, c.value = .int64 value) ∨
    ∃ value, c.value = .string value

/-- No printed string breaks. -/
def Unbroken (c : Comparison) : Prop :=
  c.op = .IS_NULL ∨ c.op = .IS_NOT_NULL ∨ ∀ value, c.value = .string value → ¬ Breaks value

/-- The comparison with its literal, where that is printed. -/
def printed (c : Comparison) : Comparison :=
  if c.op = .IS_NULL ∨ c.op = .IS_NOT_NULL then { c with value := .monostate } else c

variable {formatDouble : UInt64 → Bytes} {c d : Comparison} {us vs : Bytes}

theorem valueToString_append_inj (hop : c.op = d.op) (hc : c.Printable) (hd : d.Printable)
    (hc' : c.Unbroken) (hd' : d.Unbroken) (hu : Closing us) (hv : Closing vs)
    (h : c.valueToString formatDouble ++ us = d.valueToString formatDouble ++ vs) :
    (c.op = .IS_NULL ∨ c.op = .IS_NOT_NULL ∨ c.value = d.value) ∧ us = vs := by
  by_cases hnull : c.op = .IS_NULL ∨ c.op = .IS_NOT_NULL
  · rw [valueToString, valueToString, if_pos hnull, if_pos (hop ▸ hnull)] at h
    exact ⟨hnull.elim .inl fun h => .inr (.inl h), h⟩
  have hnull' : ¬ (d.op = .IS_NULL ∨ d.op = .IS_NOT_NULL) := hop ▸ hnull
  rw [valueToString, valueToString, if_neg hnull, if_neg hnull'] at h
  obtain ⟨hnull₁, hnull₂⟩ := not_or.mp hnull
  obtain ⟨hnull₁', hnull₂'⟩ := not_or.mp hnull'
  have hquote : ∀ z value text, decimalInt z ++ us ≠ quote :: (value ++ text) ∧
      quote :: (value ++ text) ≠ decimalInt z ++ vs := by
    intro z value text
    obtain ⟨first, digits, hdigits, hfirst⟩ := decimalInt_head z
    rw [hdigits]
    have hne : first ≠ quote := by
      rintro rfl
      exact absurd hfirst (by decide)
    exact ⟨fun heq => hne (List.cons.inj heq).1, fun heq => hne (List.cons.inj heq).1.symm⟩
  rcases (hc.resolve_left hnull₁).resolve_left hnull₂ with ⟨a, ha⟩ | ⟨v, hv'⟩ <;>
    rcases (hd.resolve_left hnull₁').resolve_left hnull₂' with ⟨b, hb⟩ | ⟨w, hw'⟩
  · rw [ha, hb] at h ⊢
    obtain ⟨hvalue, hrest⟩ := decimalInt_append_inj hu.not_digit hv.not_digit h
    rw [Int64.toInt_inj.mp hvalue]
    exact ⟨.inr (.inr rfl), hrest⟩
  · rw [ha, hw'] at h
    simp only [List.cons_append, List.append_assoc] at h
    exact absurd h (hquote _ _ _).1
  · rw [hv', hb] at h
    simp only [List.cons_append, List.append_assoc] at h
    exact absurd h (hquote _ _ _).2
  · have hbreaksV := (hc'.resolve_left hnull₁).resolve_left hnull₂ v hv'
    have hbreaksW := (hd'.resolve_left hnull₁').resolve_left hnull₂' w hw'
    rw [hv', hw'] at h ⊢
    simp only [List.cons_append, List.append_assoc, List.cons.injEq, true_and, List.nil_append] at h
    rcases Nat.le_total v.length w.length with hlen | hlen
    · obtain ⟨rfl, hrest⟩ := eq_of_quoted_append hbreaksW hu h hlen
      exact ⟨.inr (.inr rfl), hrest⟩
    · obtain ⟨rfl, hrest⟩ := eq_of_quoted_append hbreaksV hv h.symm hlen
      exact ⟨.inr (.inr rfl), hrest.symm⟩

/-- The text of a comparison and what stands behind it tell the comparison. -/
theorem prettyPrint_append_inj (hc : c.Printable) (hd : d.Printable) (hc' : c.Unbroken)
    (hd' : d.Unbroken) (hu : Closing us) (hv : Closing vs) {indent : Nat}
    (h : c.prettyPrint formatDouble indent ++ us = d.prettyPrint formatDouble indent ++ vs) :
    c.printed = d.printed ∧ us = vs := by
  simp only [prettyPrint, List.append_assoc, List.cons_append] at h
  have hblank : ∀ text : Bytes, ∀ b ∈ (32 :: text).head?, isDigit b = false := by
    intro text b hb
    obtain rfl : 32 = b := by simpa using hb
    rfl
  obtain ⟨hcolumn, hop⟩ :=
    decimal_append_inj (hblank _) (hblank _) (List.append_cancel_left h)
  obtain ⟨hop, hvalue⟩ := opToString_append_inj (List.cons.inj hop).2
  obtain ⟨hliteral, hrest⟩ := valueToString_append_inj hop hc hd hc' hd' hu hv hvalue
  refine ⟨?_, hrest⟩
  unfold printed
  by_cases hnull : c.op = .IS_NULL ∨ c.op = .IS_NOT_NULL
  · rw [if_pos hnull, if_pos (hop ▸ hnull), hcolumn, hop]
  · have hvalue : c.value = d.value := (hliteral.resolve_left fun h => hnull (.inl h)).resolve_left
      fun h => hnull (.inr h)
    rw [if_neg hnull, if_neg (hop ▸ hnull)]
    cases c
    cases d
    simp_all

end Comparison

namespace Statement

variable {formatDouble : UInt64 → Bytes}

def Printable (s : Statement) : Prop := ∀ c, comparison c ∈ s.parts → c.Printable

def Unbroken (s : Statement) : Prop := ∀ c, comparison c ∈ s.parts → c.Unbroken

/-- The statement with the literals that are printed. -/
def printed : Statement → Statement
  | comparison c => comparison c.printed
  | makeAnd l r => makeAnd l.printed r.printed
  | makeOr l r => makeOr l.printed r.printed
  | makeNot child => makeNot child.printed

/-- A statement starts behind its blanks with its column or with a bracket. -/
theorem prettyPrint_opens (s : Statement) (indent : Nat) :
    ∃ c rest, s.prettyPrint formatDouble indent = indentation indent ++ c :: rest ∧ Opens c := by
  cases s with
  | comparison c =>
    obtain ⟨d, ds, hds, hd⟩ := decimal_head c.column
    exact ⟨d, ds ++ 32 :: Comparison.opToString c.op ++ 32 :: c.valueToString formatDouble,
      by simp [prettyPrint, Comparison.prettyPrint, hds], .inr hd⟩
  | makeAnd l r => exact ⟨_, _, LogicalOperation.prettyPrint_two _ _ _ _, .inl rfl⟩
  | makeOr l r => exact ⟨_, _, LogicalOperation.prettyPrint_two _ _ _ _, .inl rfl⟩
  | makeNot child => exact ⟨_, _, LogicalOperation.prettyPrint_one _ _ _, .inl rfl⟩

theorem closing_line (s : Statement) (indent : Nat) (us : Bytes) :
    Closing (10 :: (s.prettyPrint formatDouble (indent + 2) ++ us)) := by
  obtain ⟨c, rest, hopens, hc⟩ := s.prettyPrint_opens indent.succ.succ
  exact .inr ⟨indent, c, rest ++ us, by rw [hopens]; simp, hc⟩

/-- A comparison is not a statement in brackets. -/
theorem prettyPrint_ne_bracket (c : Comparison) (indent : Nat) (us rest : Bytes) :
    c.prettyPrint formatDouble indent ++ us ≠ indentation indent ++ 91 :: rest := by
  obtain ⟨d, ds, hds, hd⟩ := decimal_head c.column
  simp only [Comparison.prettyPrint, hds, List.append_assoc, List.cons_append]
  intro h
  obtain ⟨rfl, -⟩ := List.cons.inj (List.append_cancel_left h)
  exact absurd hd (by decide)

/-- The two children behind one bracket. -/
theorem children_inj {l r l' r' : Statement} {us vs : Bytes} {indent : Nat}
    (ihl : ∀ {us vs}, Closing us → Closing vs →
      l.prettyPrint formatDouble (indent + 2) ++ us = l'.prettyPrint formatDouble (indent + 2) ++ vs →
      l.printed = l'.printed ∧ us = vs)
    (ihr : r.prettyPrint formatDouble (indent + 2) ++ us = r'.prettyPrint formatDouble (indent + 2) ++ vs →
      r.printed = r'.printed ∧ us = vs)
    (h : l.prettyPrint formatDouble (indent + 2) ++ 10 :: (r.prettyPrint formatDouble (indent + 2) ++ us) =
      l'.prettyPrint formatDouble (indent + 2) ++ 10 :: (r'.prettyPrint formatDouble (indent + 2) ++ vs)) :
    l.printed = l'.printed ∧ r.printed = r'.printed ∧ us = vs := by
  obtain ⟨hl, hrest⟩ := ihl (closing_line r indent us) (closing_line r' indent vs) h
  obtain ⟨hr, hbehind⟩ := ihr (List.cons.inj hrest).2
  exact ⟨hl, hr, hbehind⟩

/-- The text of a statement and what stands behind it tell the statement. -/
theorem prettyPrint_append_inj {s t : Statement}
    (hs : ∀ c, comparison c ∈ s.parts → c.Printable ∧ c.Unbroken)
    (ht : ∀ c, comparison c ∈ t.parts → c.Printable ∧ c.Unbroken) {indent : Nat} {us vs : Bytes}
    (hu : Closing us) (hv : Closing vs)
    (h : s.prettyPrint formatDouble indent ++ us = t.prettyPrint formatDouble indent ++ vs) :
    s.printed = t.printed ∧ us = vs := by
  induction s generalizing t indent us vs with
  | comparison c =>
    cases t with
    | comparison d =>
      have hc := hs c (by simp [parts])
      have hd := ht d (by simp [parts])
      obtain ⟨hprinted, hrest⟩ := Comparison.prettyPrint_append_inj hc.1 hd.1 hc.2 hd.2 hu hv h
      exact ⟨congrArg comparison hprinted, hrest⟩
    | makeAnd l' r' | makeOr l' r' | makeNot child' =>
      simp only [prettyPrint, LogicalOperation.prettyPrint_one, LogicalOperation.prettyPrint_two,
        List.append_assoc, List.cons_append] at h
      exact absurd h (prettyPrint_ne_bracket c indent us _)
  | makeAnd l r ihl ihr =>
    simp only [prettyPrint, LogicalOperation.prettyPrint_two, List.append_assoc, List.cons_append] at h
    cases t with
    | comparison d => exact absurd h.symm (prettyPrint_ne_bracket d indent vs _)
    | makeOr l' r' | makeNot child' =>
      simp [prettyPrint, LogicalOperation.prettyPrint_one, LogicalOperation.prettyPrint_two,
        ascii] at h
    | makeAnd l' r' =>
      simp only [prettyPrint, LogicalOperation.prettyPrint_two, List.append_assoc, List.cons_append,
        List.append_cancel_left_eq, List.cons.injEq, true_and] at h
      obtain ⟨hl, hr, hrest⟩ := children_inj
        (ihl (fun c hc => hs c (by simp [parts, hc])) fun c hc => ht c (by simp [parts, hc]))
        (ihr (fun c hc => hs c (by simp [parts, hc])) (fun c hc => ht c (by simp [parts, hc])) hu hv) h
      exact ⟨by rw [printed, printed, hl, hr], hrest⟩
  | makeOr l r ihl ihr =>
    simp only [prettyPrint, LogicalOperation.prettyPrint_two, List.append_assoc, List.cons_append] at h
    cases t with
    | comparison d => exact absurd h.symm (prettyPrint_ne_bracket d indent vs _)
    | makeAnd l' r' | makeNot child' =>
      simp [prettyPrint, LogicalOperation.prettyPrint_one, LogicalOperation.prettyPrint_two,
        ascii] at h
    | makeOr l' r' =>
      simp only [prettyPrint, LogicalOperation.prettyPrint_two, List.append_assoc, List.cons_append,
        List.append_cancel_left_eq, List.cons.injEq, true_and] at h
      obtain ⟨hl, hr, hrest⟩ := children_inj
        (ihl (fun c hc => hs c (by simp [parts, hc])) fun c hc => ht c (by simp [parts, hc]))
        (ihr (fun c hc => hs c (by simp [parts, hc])) (fun c hc => ht c (by simp [parts, hc])) hu hv) h
      exact ⟨by rw [printed, printed, hl, hr], hrest⟩
  | makeNot child ih =>
    simp only [prettyPrint, LogicalOperation.prettyPrint_one, List.append_assoc, List.cons_append] at h
    cases t with
    | comparison d => exact absurd h.symm (prettyPrint_ne_bracket d indent vs _)
    | makeAnd l' r' | makeOr l' r' =>
      simp [prettyPrint, LogicalOperation.prettyPrint_two, ascii] at h
    | makeNot child' =>
      simp only [prettyPrint, LogicalOperation.prettyPrint_one, List.append_assoc, List.cons_append,
        List.append_cancel_left_eq, List.cons.injEq, true_and] at h
      obtain ⟨hchild, hrest⟩ :=
        ih (fun c hc => hs c (by simp [parts, hc])) (fun c hc => ht c (by simp [parts, hc])) hu hv h
      exact ⟨by rw [printed, printed, hchild], hrest⟩

end Statement

theorem Comparison.evalData_printed (re2 : RE2) (c : Comparison) (cell : Data) :
    c.printed.evalData re2 cell = c.evalData re2 cell := by
  unfold printed
  split
  · next hnull => rcases hnull with hop | hop <;> simp [evalData, hop]
  · rfl

theorem Comparison.column_printed (c : Comparison) : c.printed.column = c.column := by
  unfold printed
  split <;> rfl

theorem Comparison.evalTable_printed (re2 : RE2) (c : Comparison) (table : List InnerColumnBase) :
    c.printed.evalTable re2 table = c.evalTable re2 table := by
  unfold printed
  split
  · next hnull => rcases hnull with hop | hop <;> simp [Comparison.evalTable, hop]
  · rfl

namespace Statement

theorem evalRecord_printed (re2 : RE2) (record : List Data) (s : Statement) :
    s.printed.evalRecord re2 record = s.evalRecord re2 record := by
  induction s with
  | comparison c => rw [printed, evalRecord, evalRecord, c.column_printed, c.evalData_printed]
  | makeAnd l r ihl ihr | makeOr l r ihl ihr => simp only [printed, evalRecord, ihl, ihr]
  | makeNot child ih => simp only [printed, evalRecord, ih]

theorem evalTable_printed (re2 : RE2) (table : List InnerColumnBase) (s : Statement) :
    s.printed.evalTable re2 table = s.evalTable re2 table := by
  induction s with
  | comparison c => exact c.evalTable_printed re2 table
  | makeAnd l r ihl ihr | makeOr l r ihl ihr => simp only [printed, evalTable, ihl, ihr]
  | makeNot child ih => simp only [printed, evalTable, ih]

/-- Statements with one text select the same rows of every table, where no string of theirs breaks the
text. -/
theorem selects_of_prettyPrint (formatDouble : UInt64 → Bytes) {s t : Statement} (hs : s.Printable) (ht : t.Printable)
    (hs' : s.Unbroken) (ht' : t.Unbroken)
    (h : s.prettyPrint formatDouble 0 = t.prettyPrint formatDouble 0) (re2 : RE2) :
    (∀ table, s.evalTable re2 table = t.evalTable re2 table) ∧
      ∀ record, s.evalRecord re2 record = t.evalRecord re2 record := by
  have htext : s.prettyPrint formatDouble 0 ++ [] = t.prettyPrint formatDouble 0 ++ [] := by rw [h]
  obtain ⟨hprinted, -⟩ := prettyPrint_append_inj (fun c hc => ⟨hs c hc, hs' c hc⟩)
    (fun c hc => ⟨ht c hc, ht' c hc⟩) (.inl rfl) (.inl rfl) htext
  constructor
  · intro table
    rw [← evalTable_printed, hprinted, evalTable_printed]
  · intro record
    rw [← evalRecord_printed, hprinted, evalRecord_printed]

/-- The text of a string comparison inside another one's string: `back` is left for the string. -/
def embedded (indent : Nat) (c : Comparison) (front back : Bytes) : Bytes :=
  front ++ Comparison.quote :: 10 :: (indentation indent ++ decimal c.column ++
    32 :: Comparison.opToString c.op ++ 32 :: Comparison.quote :: back)

/-- Two conjunctions with one text: a string of the first goes on where a string of the second ends. -/
theorem prettyPrint_collides (formatDouble : UInt64 → Bytes) {c d e : Comparison}
    (hc : ¬ (c.op = .IS_NULL ∨ c.op = .IS_NOT_NULL))
    (hd : ¬ (d.op = .IS_NULL ∨ d.op = .IS_NOT_NULL)) (he : ¬ (e.op = .IS_NULL ∨ e.op = .IS_NOT_NULL))
    (a b v : Bytes) :
    (makeAnd (comparison { c with value := .string (embedded 2 d a b) })
        (comparison { e with value := .string v })).prettyPrint formatDouble 0 =
      (makeAnd (comparison { c with value := .string a })
        (comparison { d with value := .string (embedded 2 e b v) })).prettyPrint formatDouble 0 := by
  simp [prettyPrint, LogicalOperation.prettyPrint_two, Comparison.prettyPrint,
    Comparison.valueToString, embedded, hc, hd, he]

/-- `0 = 'a'⏎  1 = 'b'` and `2 = 'c'`, the first string with a quote and a line end in it. -/
def brokenFirst : Statement :=
  makeAnd (comparison ⟨0, .EQ, .string (embedded 2 ⟨1, .EQ, .monostate⟩ [97] [98])⟩)
    (comparison ⟨2, .EQ, .string [99]⟩)

/-- `0 = 'a'` and `1 = 'b'⏎  2 = 'c'`. -/
def brokenSecond : Statement :=
  makeAnd (comparison ⟨0, .EQ, .string [97]⟩)
    (comparison ⟨1, .EQ, .string (embedded 2 ⟨2, .EQ, .monostate⟩ [98] [99])⟩)

/-- A table with a row for the second of the two filters. -/
def brokenTable : List InnerColumnBase :=
  [.varchar (.ofCells [some [97]]),
    .varchar (.ofCells [some (embedded 2 ⟨2, .EQ, .monostate⟩ [98] [99])]),
    .varchar (.ofCells [some [99]])]

theorem prettyPrint_broken :
    brokenFirst.Printable ∧ brokenSecond.Printable ∧
      brokenFirst.prettyPrint (fun _ => []) 0 = brokenSecond.prettyPrint (fun _ => []) 0 ∧
      brokenFirst.evalTable (fun _ => none) brokenTable = .ok [0x00] ∧
      brokenSecond.evalTable (fun _ => none) brokenTable = .ok [0x01] := by
  have htext := prettyPrint_collides (fun _ => []) (c := ⟨0, .EQ, .monostate⟩)
    (d := ⟨1, .EQ, .monostate⟩) (e := ⟨2, .EQ, .monostate⟩) (by decide) (by decide) (by decide)
    [97] [98] [99]
  refine ⟨?_, ?_, htext, by decide +kernel, by decide +kernel⟩
  · intro c hc
    simp only [brokenFirst, parts, List.mem_cons, List.mem_append, List.not_mem_nil, reduceCtorEq,
      comparison.injEq, or_false, false_or] at hc
    rcases hc with rfl | rfl
    · exact .inr (.inr (.inr ⟨_, rfl⟩))
    · exact .inr (.inr (.inr ⟨_, rfl⟩))
  · intro c hc
    simp only [brokenSecond, parts, List.mem_cons, List.mem_append, List.not_mem_nil, reduceCtorEq,
      comparison.injEq, or_false, false_or] at hc
    rcases hc with rfl | rfl
    · exact .inr (.inr (.inr ⟨_, rfl⟩))
    · exact .inr (.inr (.inr ⟨_, rfl⟩))

theorem not_breaks_of_length {value : Bytes} (h : value.length < 5) : ¬ Breaks value := by
  rintro ⟨front, m, c, back, rfl, -⟩
  simp [indentation] at h
  omega

theorem selects_of_prettyPrint_null :
    (makeAnd (comparison ⟨0, .IS_NULL, .monostate⟩) (comparison ⟨1, .EQ, .string [39]⟩)).evalTable
        (fun _ => none) brokenTable =
      (makeAnd (comparison ⟨0, .IS_NULL, .int64 7⟩) (comparison ⟨1, .EQ, .string [39]⟩)).evalTable
        (fun _ => none) brokenTable := by
  have hplain : ∀ value, ∀ c,
      comparison c ∈ (makeAnd (comparison ⟨0, .IS_NULL, value⟩) (comparison ⟨1, .EQ, .string [39]⟩)).parts →
      c.Printable ∧ c.Unbroken := by
    intro value c hc
    simp only [parts, List.mem_cons, List.mem_append, List.not_mem_nil, reduceCtorEq,
      comparison.injEq, or_false, false_or] at hc
    rcases hc with rfl | rfl
    · exact ⟨.inl rfl, .inl rfl⟩
    · refine ⟨.inr (.inr (.inr ⟨_, rfl⟩)), .inr (.inr fun value hvalue => ?_)⟩
      obtain rfl : [39] = value := Literal.string.inj hvalue
      exact not_breaks_of_length (by decide)
  exact (selects_of_prettyPrint (fun _ => []) (fun c hc => (hplain _ c hc).1)
    (fun c hc => (hplain _ c hc).1) (fun c hc => (hplain _ c hc).2) (fun c hc => (hplain _ c hc).2)
    (by decide) (fun _ => none)).1 brokenTable

end Statement

end JoinOptimizer
