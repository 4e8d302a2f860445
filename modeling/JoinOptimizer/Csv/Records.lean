import JoinOptimizer.Csv.Print

/-! The records that a text spells, read without a parser's state, and what the parser of
`Table::from_csv` makes of the text: separator `,`, escape `\` and no trailing separator. -/

namespace JoinOptimizer.CSVParser

open Lib

/-- The separator of `Table::from_csv`. -/
def separator : UInt8 := 44

/-- What the bytes of a text stand for. -/
inductive Token
  | char (c : UInt8)
  | mark
  | sep
  | eol

/-- The tokens of a text that starts between quotes or outside of them. -/
def tokens : Bool → Bytes → List Token
  | _, [] => []
  | true, c :: rest =>
    if c = quote then .mark :: tokens false rest
    else if c = backslash then
      match rest with
      | [] => [.char c]
      | d :: rest' =>
        if d = quote ∨ d = backslash then .char d :: tokens true rest'
        else .char c :: tokens true (d :: rest')
    else .char c :: tokens true rest
  | false, c :: rest =>
    if c = separator then .sep :: tokens false rest
    else if c = lf then .eol :: tokens false rest
    else if c = cr then
      match rest with
      | [] => [.eol]
      | d :: rest' => if d = lf then .eol :: tokens false rest' else .eol :: tokens false (d :: rest')
    else if c = quote then .mark :: tokens true rest
    else .char c :: tokens false rest

/-- Whether the tokens end between quotes. -/
def quotedAfter (quoted : Bool) (ts : List Token) : Bool :=
  ts.foldl (fun quoted t => match t with
    | .mark => !quoted
    | _ => quoted) quoted

/-- The records that tokens spell: `row` and `field` are what the record and its field have so far, and
`clean` tells that nothing of the record has been read.  A record at the end needs no line end. -/
def rows : Bool → List Bytes → Bytes → List Token → List (List Bytes)
  | clean, row, field, [] => if clean then [] else [row ++ [field]]
  | _, row, field, .char c :: ts => rows false row (field ++ [c]) ts
  | _, row, field, .mark :: ts => rows false row field ts
  | _, row, field, .sep :: ts => rows false (row ++ [field]) [] ts
  | _, row, field, .eol :: ts => (row ++ [field]) :: rows true [] [] ts

/-- The records of a text. -/
def records (content : Bytes) : List (List Bytes) := rows true [] [] (tokens false content)

/-- The text ends outside quotes. -/
def closed (content : Bytes) : Bool := !quotedAfter false (tokens false content)

/-- The fields that the parser gets to, where records have `width` fields if that is known: it stops before
the last field of a record with another number of fields, and before the last field of all where the
quotes are not closed. -/
def emitted (closed : Bool) : Option Nat → List (List Bytes) → List (List Bytes)
  | _, [] => []
  | width, r :: rs =>
    if (rs = [] ∧ closed = false) ∨ ¬ width.all (· = r.length) then [r.dropLast]
    else r :: emitted closed (some r.length) rs

/-- The parser ends without an error. -/
def accepts (closed : Bool) : Option Nat → List (List Bytes) → Bool
  | _, [] => closed
  | width, r :: rs => width.all (· = r.length) && accepts closed (some r.length) rs

/-- The calls of `on_field` for the fields of row `i`. -/
def rowCalls (i : Nat) (row : List Bytes) : List OnField := row.zipIdx.map fun f => ⟨f.2, i, f.1⟩

/-- The calls of `on_field` for rows from row `i` on. -/
def rowsCalls : Nat → List (List Bytes) → List OnField
  | _, [] => []
  | i, r :: rs => rowCalls i r ++ rowsCalls (i + 1) rs

/-- Whether a run had no error, and its calls. -/
def Outcome.seen (o : Outcome) : Bool × List OnField := (o.isOk, o.calls)

/-- The parser of `from_csv` in record `i`, of which it has `row` and a part of a field. -/
structure Reading (s : CSVParser) (width : Option Nat) (before : List OnField) (i : Nat) (clean : Bool)
    (row : List Bytes) (field : Bytes) : Prop where
  escape : s.escape = backslash
  comma : s.comma = separator
  trailing : s.hasTrailingComma = false
  fresh : s.Fresh
  currentField : s.currentField = field
  colIdx : s.colIdx = row.length
  rowIdx : s.rowIdx = i
  calls : s.calls = before ++ rowCalls i row
  numCols : (if s.afterFirstRow then some s.numCols else none) = width
  recordSep : s.afterRecordSep = clean
  start : clean = true → row = []

@[simp] theorem rowCalls_nil (i : Nat) : rowCalls i [] = [] := rfl

theorem rowCalls_append (i : Nat) (row : List Bytes) (field : Bytes) :
    rowCalls i (row ++ [field]) = rowCalls i row ++ [⟨row.length, i, field⟩] := by
  simp [rowCalls, List.zipIdx_append]

theorem rows_eq_nil {ts : List Token} (h : rows true [] [] ts = []) : ts = [] := by
  have hne : ∀ (ts : List Token) (row : List Bytes) (field : Bytes), rows false row field ts ≠ [] := by
    intro ts
    induction ts with
    | nil => simp [rows]
    | cons t ts ih =>
      intro row field
      cases t <;> simp [rows, ih]
  cases ts with
  | nil => rfl
  | cons t ts => cases t <;> simp [rows, hne] at h

section Steps

variable {s : CSVParser} {width : Option Nat} {before : List OnField} {i : Nat} {clean : Bool}
  {row : List Bytes} {field : Bytes}

/-- A byte within a field. -/
theorem Reading.within (h : s.Reading width before i clean row field) (content : Bytes) (quoted : Bool) :
    ({ s with currentField := content, quoted }.setFlags false false).Reading width before i false row
      content where
  escape := h.escape
  comma := h.comma
  trailing := h.trailing
  fresh := ⟨h.fresh.escaping, h.fresh.newlining⟩
  currentField := rfl
  colIdx := h.colIdx
  rowIdx := h.rowIdx
  calls := h.calls
  numCols := h.numCols
  recordSep := rfl
  start hclean := by cases hclean

theorem Reading.push (h : s.Reading width before i clean row field) (c : UInt8) :
    ((s.push c).setFlags false false).Reading width before i false row (field ++ [c]) := by
  rw [CSVParser.push, h.currentField]
  exact h.within (field ++ [c]) s.quoted

theorem Reading.mark (h : s.Reading width before i clean row field) (quoted : Bool) :
    ({ s with quoted }.setFlags false false).Reading width before i false row field := by
  rw [← h.currentField]
  exact h.within s.currentField quoted

theorem Reading.sep (h : s.Reading width before i clean row field) :
    ({ s.emit with colIdx := s.colIdx + 1 }.setFlags true false).Reading width before i false
      (row ++ [field]) [] where
  escape := h.escape
  comma := h.comma
  trailing := h.trailing
  fresh := ⟨h.fresh.escaping, h.fresh.newlining⟩
  currentField := rfl
  colIdx := by simp [setFlags, h.colIdx]
  rowIdx := h.rowIdx
  calls := by simp [setFlags, emit, h.calls, rowCalls_append, h.colIdx, h.rowIdx, h.currentField]
  numCols := h.numCols
  recordSep := rfl
  start hclean := by cases hclean

/-- The end of a record: the row is emitted, or the parser stops before its last field. -/
theorem Reading.endRecord (h : s.Reading width before i clean row field) :
    (width.all (· = row.length + 1) = true ∧ s.recordError = none ∧
        (s.recordEnd.setFlags false true).Reading (some (row.length + 1))
          (before ++ rowCalls i (row ++ [field])) (i + 1) true [] []) ∨
      (width.all (· = row.length + 1) = false ∧ ∃ e, s.recordError = some e) := by
  have hcolumns : s.columns = row.length + 1 := by simp [columns, h.trailing, h.colIdx]
  have hcalls : s.recordEnd.calls = before ++ rowCalls i (row ++ [field]) := by
    simp [recordEnd, emit, h.trailing, h.calls, rowCalls_append, h.colIdx, h.rowIdx, h.currentField]
  have hnext : s.recordEnd.numCols = row.length + 1 →
      (s.recordEnd.setFlags false true).Reading (some (row.length + 1))
        (before ++ rowCalls i (row ++ [field])) (i + 1) true [] [] := fun hcols =>
    { escape := h.escape
      comma := h.comma
      trailing := h.trailing
      fresh := ⟨h.fresh.escaping, h.fresh.newlining⟩
      currentField := by simp [setFlags, recordEnd, h.trailing]
      colIdx := rfl
      rowIdx := by simp [setFlags, recordEnd, h.rowIdx]
      calls := by simp [setFlags, hcalls, rowCalls]
      numCols := by simp [setFlags, recordEnd] at hcols ⊢; exact hcols
      recordSep := rfl
      start := fun _ => rfl }
  rw [recordError, h.trailing, hcolumns]
  have hwidth := h.numCols
  cases hfirst : s.afterFirstRow with
  | false =>
    rw [hfirst] at hwidth
    subst hwidth
    exact .inl ⟨rfl, rfl, hnext (by simp [recordEnd, hfirst, hcolumns])⟩
  | true =>
    rw [hfirst] at hwidth
    subst hwidth
    by_cases hcols : s.numCols = row.length + 1
    · exact .inl ⟨by simp [hcols], by simp [hcols], hnext (by simp [recordEnd, hfirst, hcols])⟩
    · exact .inr ⟨by simp [hcols], .InconsistentColumns, by simp [Ne.symm hcols]⟩

/-- What the parser should make of tokens behind a part of a record. -/
def expected (quoted : Bool) (width : Option Nat) (before : List OnField) (i : Nat) (clean : Bool)
    (row : List Bytes) (field : Bytes) (ts : List Token) : Bool × List OnField :=
  (accepts (!quotedAfter quoted ts) width (rows clean row field ts),
    before ++ rowsCalls i (emitted (!quotedAfter quoted ts) width (rows clean row field ts)))

/-- The iteration for a byte that is plain where it stands. -/
theorem Reading.loop_push (h : s.Reading width before i clean row field) {c : UInt8}
    (hplain : if s.quoted then c ≠ quote ∧ c ≠ backslash
      else c ≠ separator ∧ c ≠ lf ∧ c ≠ cr ∧ c ≠ quote) (rest : Bytes) :
    s.loop (c :: rest) = ((s.push c).setFlags false false).loop rest := by
  apply loop_next rest
  rw [iteration.eq_def, h.comma, h.escape]
  cases hquoted : s.quoted with
  | true =>
    rw [hquoted, if_pos rfl] at hplain
    simp only [hplain]
    split_ifs <;> simp_all
  | false =>
    rw [hquoted, if_neg (by simp)] at hplain
    simp only [hplain]
    split_ifs <;> simp_all

theorem Reading.loop_quote (h : s.Reading width before i clean row field) (rest : Bytes) :
    s.loop (quote :: rest) = ({ s with quoted := !s.quoted }.setFlags false false).loop rest := by
  apply loop_next rest
  rw [iteration.eq_def, h.comma, h.escape, if_neg (by simp), if_neg (by decide), if_neg (by decide),
    if_pos rfl, if_neg (by decide)]

theorem Reading.loop_escape (h : s.Reading width before i clean row field) (hquoted : s.quoted = true)
    (d : UInt8) (rest : Bytes) :
    s.loop (backslash :: d :: rest) =
      if d = quote ∨ d = backslash then ((s.push d).setFlags false false).loop rest
      else ((s.push backslash).setFlags false false).loop (d :: rest) := by
  have hit : s.iteration backslash (some d) =
      if d = quote ∨ d = backslash then .skip ((s.push d).setFlags false false)
      else .next ((s.push backslash).setFlags false false) := by
    rw [iteration.eq_def, h.comma, h.escape, if_neg (by simp), if_neg (by decide), if_neg (by decide),
      if_neg (by decide), if_pos hquoted]
  by_cases hd : d = quote ∨ d = backslash
  · rw [if_pos hd] at hit ⊢
    exact loop_skip rest hit
  · rw [if_neg hd] at hit ⊢
    exact loop_next (d :: rest) hit

theorem Reading.loop_separator (h : s.Reading width before i clean row field)
    (hquoted : s.quoted = false) (rest : Bytes) :
    s.loop (separator :: rest) =
      ({ s.emit with colIdx := s.colIdx + 1 }.setFlags true false).loop rest := by
  apply loop_next rest
  rw [iteration.eq_def, h.comma, if_neg (by simp), if_pos rfl, hquoted]
  rfl

/-- The loop behind a record, or the error at its end. -/
def behind (s : CSVParser) (rest : Bytes) : Outcome :=
  match s.recordError with
  | some e => .error (e, s)
  | none => (s.recordEnd.setFlags false true).loop rest

theorem Reading.loop_lf (h : s.Reading width before i clean row field) (hquoted : s.quoted = false)
    (rest : Bytes) : s.loop (lf :: rest) = s.behind rest := by
  rw [loop, iteration.eq_def, h.comma, if_neg (by simp), if_neg (by decide), if_pos (.inl rfl),
    if_pos (by simp [hquoted]), if_neg (by simp [lf, cr]), newline_lf, behind]
  cases s.recordError <;> rfl

theorem Reading.loop_cr (h : s.Reading width before i clean row field) (hquoted : s.quoted = false)
    (d : UInt8) (rest : Bytes) :
    s.loop (cr :: d :: rest) = if d = lf then s.behind rest else s.behind (d :: rest) := by
  rw [loop, List.head?_cons, iteration.eq_def, h.comma, if_neg (by simp), if_neg (by decide),
    if_pos (.inr rfl), if_pos (by simp [hquoted]), if_neg (by simp), newline, endRecord_eq]
  simp only [behind]
  by_cases hd : d = lf
  · rw [if_pos hd]
    cases s.recordError <;> simp [hd]
  · rw [if_neg hd]
    cases s.recordError <;> simp [hd]

/-- The end of a record, when what is behind it is parsed as expected. -/
theorem Reading.behind_seen (h : s.Reading width before i clean row field) (rest : Bytes)
    (hrest : ∀ {width before i}, (s.recordEnd.setFlags false true).Reading width before i true [] [] →
      Outcome.seen ((s.recordEnd.setFlags false true).loop rest >>= finish) =
        expected false width before i true [] [] (tokens false rest)) :
    Outcome.seen (s.behind rest >>= finish) =
      expected false width before i clean row field (.eol :: tokens false rest) := by
  have hlast : ¬(rows true [] [] (tokens false rest) = [] ∧
      (!quotedAfter false (tokens false rest)) = false) := by
    rintro ⟨hnil, hquoted⟩
    rw [rows_eq_nil hnil] at hquoted
    cases hquoted
  have hlength : (row ++ [field]).length = row.length + 1 := by simp
  have htokens : expected false width before i clean row field (.eol :: tokens false rest) =
      (accepts (!quotedAfter false (tokens false rest)) width
          ((row ++ [field]) :: rows true [] [] (tokens false rest)),
        before ++ rowsCalls i (emitted (!quotedAfter false (tokens false rest)) width
          ((row ++ [field]) :: rows true [] [] (tokens false rest)))) := rfl
  rw [htokens, accepts, emitted, hlength]
  rcases h.endRecord with ⟨hwidth, herror, hnext⟩ | ⟨hwidth, e, herror⟩
  · have hgo : ¬(rows true [] [] (tokens false rest) = [] ∧
        (!quotedAfter false (tokens false rest)) = false ∨
        ¬ width.all (· = row.length + 1) = true) := by
      rintro (hend | hend)
      · exact hlast hend
      · exact hend hwidth
    rw [behind, herror, if_neg hgo, hwidth, Bool.true_and, rowsCalls, ← List.append_assoc]
    exact hrest hnext
  · rw [behind, herror, if_pos (.inr (by simp [hwidth])), hwidth, Bool.false_and]
    show (false, s.calls) = _
    simp [h.calls, rowsCalls]

/-- A text that ends between quotes. -/
theorem Reading.unclosed_seen (h : s.Reading width before i clean row field) :
    (false, s.calls) = expected true width before i clean row field [] := by
  have hstart := h.start
  cases clean with
  | true => simp [expected, quotedAfter, rows, accepts, emitted, h.calls, hstart rfl, rowsCalls]
  | false => simp [expected, quotedAfter, rows, accepts, emitted, h.calls, rowsCalls]

/-- A text that ends behind a record. -/
theorem Reading.last_seen (h : s.Reading width before i clean row field) :
    (match s.recordError with
      | some _ => (false, s.calls)
      | none => (true, s.recordEnd.calls)) = expected false width before i clean row field [.eol] := by
  rcases h.endRecord with ⟨hwidth, herror, hnext⟩ | ⟨hwidth, e, herror⟩
  · have hcalls : s.recordEnd.calls = before ++ rowCalls i (row ++ [field]) := by
      have := hnext.calls
      rwa [rowCalls_nil, List.append_nil] at this
    simp [herror, hcalls, expected, quotedAfter, rows, accepts, emitted, hwidth, rowsCalls]
  · simp [herror, h.calls, expected, quotedAfter, rows, accepts, emitted, hwidth, rowsCalls]

/-- The end of a text. -/
theorem Reading.finish_seen (h : s.Reading width before i clean row field) {quoted : Bool}
    (hquoted : s.quoted = quoted) :
    Outcome.seen (s.loop [] >>= finish) = expected quoted width before i clean row field [] := by
  rw [loop, ok_bind, finish, hquoted]
  cases quoted with
  | true => exact h.unclosed_seen
  | false =>
    rw [if_neg (by simp), if_neg (by simp [h.fresh.newlining]), h.recordSep]
    cases hclean : clean with
    | true =>
      have hcalls : s.calls = before := by rw [h.calls, h.start hclean, rowCalls_nil, List.append_nil]
      have hend : expected false width before i true row field [] = (true, before) := by
        simp [expected, quotedAfter, rows, accepts, emitted, rowsCalls]
      rw [hend, ← hcalls]
      rfl
    | false =>
      subst hclean
      have hlast := h.last_seen
      rw [if_pos (by simp), h.fresh.execute, h.loop_lf hquoted, behind]
      refine Eq.trans ?_ hlast
      cases s.recordError <;> rfl

/-- What the parser makes of the rest of a text, from any point in it. -/
theorem loop_seen (quoted : Bool) (content : Bytes) (hquoted : s.quoted = quoted)
    (h : s.Reading width before i clean row field) :
    Outcome.seen (s.loop content >>= finish) =
      expected quoted width before i clean row field (tokens quoted content) := by
  fun_induction tokens quoted content generalizing s width before i clean row field with
  | case1 quoted => exact h.finish_seen hquoted
  | case2 rest ih =>
    rw [h.loop_quote]
    exact ih (by simp [setFlags, hquoted]) (h.mark _)
  | case3 =>
    -- an escape at the very end: the quotes are not closed
    have hloop : s.loop [backslash] = .ok { s with escaping := true } := by
      rw [loop, iteration.eq_def, h.comma, h.escape, if_neg (by simp), if_neg (by decide),
        if_neg (by decide), if_neg (by decide), if_pos hquoted]
      rfl
    rw [hloop, ok_bind, finish, if_pos hquoted]
    have hend := (h.push backslash).unclosed_seen
    exact hend
  | case4 d rest hd _ ih =>
    rw [h.loop_escape hquoted, if_pos hd]
    exact ih hquoted (h.push d)
  | case5 d rest hd _ ih =>
    rw [h.loop_escape hquoted, if_neg hd]
    exact ih hquoted (h.push backslash)
  | case6 c rest hquote hescape ih =>
    rw [h.loop_push (by simp [hquoted, hquote, hescape])]
    exact ih hquoted (h.push c)
  | case7 rest ih =>
    rw [h.loop_separator hquoted]
    exact ih hquoted h.sep
  | case8 rest _ ih =>
    rw [h.loop_lf hquoted]
    exact h.behind_seen rest fun hnext => ih hquoted hnext
  | case9 =>
    have hloop : s.loop [cr] = .ok { s with newlining := true } := by
      rw [loop, iteration.eq_def, h.comma, if_neg (by simp), if_neg (by decide), if_pos (.inr rfl),
        if_pos (by simp [hquoted]), if_pos ⟨rfl, rfl⟩]
    have herror : recordError { s with newlining := true } = s.recordError := rfl
    rw [hloop, ok_bind, finish, if_neg (by simp [hquoted]), if_pos rfl, execute_eq, resume, resumeEscape,
      if_neg (by simp [h.fresh.escaping])]
    dsimp only
    rw [resumeNewline_eq rfl, herror]
    refine Eq.trans ?_ h.last_seen
    cases s.recordError <;> rfl
  | case10 rest _ _ ih =>
    rw [h.loop_cr hquoted, if_pos rfl]
    exact h.behind_seen rest fun hnext => ih hquoted hnext
  | case11 d rest hd _ _ ih =>
    rw [h.loop_cr hquoted, if_neg hd]
    exact h.behind_seen (d :: rest) fun hnext => ih hquoted hnext
  | case12 rest _ _ _ ih =>
    rw [h.loop_quote]
    exact ih (by simp [setFlags, hquoted]) (h.mark _)
  | case13 c rest hsep hlf hcr hquote ih =>
    rw [h.loop_push (by simp [hquoted, hsep, hlf, hcr, hquote])]
    exact ih hquoted (h.push c)

end Steps

/-- The records of a text as the parser has them: it takes a text without a byte for an empty record. -/
def parsed (content : Bytes) : List (List Bytes) := rows false [] [] (tokens false content)

theorem parsed_of_ne {content : Bytes} (h : content ≠ []) : parsed content = records content := by
  obtain ⟨t, ts, hts⟩ : ∃ t ts, tokens false content = t :: ts := by
    cases content with
    | nil => exact absurd rfl h
    | cons c rest =>
      rw [tokens.eq_def]
      dsimp only
      split_ifs
      all_goals try exact ⟨_, _, rfl⟩
      split
      · exact ⟨_, _, rfl⟩
      · split_ifs <;> exact ⟨_, _, rfl⟩
  rw [parsed, records, hts]
  cases t <;> rfl

/-- The calls that the parser of `from_csv` makes on a text read in buffers, and whether it accepts it. -/
theorem parse_seen {buffers : List Bytes} (hbuffers : ∀ buffer ∈ buffers, buffer ≠ []) :
    Outcome.seen ((new backslash separator false).parse buffers) =
      (accepts (closed buffers.flatten) none (parsed buffers.flatten),
        rowsCalls 0 (emitted (closed buffers.flatten) none (parsed buffers.flatten))) := by
  have hstart : (new backslash separator false).Reading none [] 0 false [] [] :=
    ⟨rfl, rfl, rfl, ⟨rfl, rfl⟩, rfl, rfl, rfl, rfl, rfl, rfl, fun h => by cases h⟩
  have hwhole := loop_seen false buffers.flatten rfl hstart
  obtain ⟨hcalls, hok⟩ := calls_of_agree
    (parse_agree (sound_new backslash separator false) hstart.fresh hbuffers)
  rw [parse_single, hstart.fresh.execute] at hcalls hok
  rw [Outcome.seen, ← hcalls, ← hok]
  exact hwhole

end JoinOptimizer.CSVParser
