import JoinOptimizer.Csv.Chunks

/-! Records printed as text, and what the parser makes of the text. -/

namespace JoinOptimizer.CSVParser

open Lib

def backslash : UInt8 := 92

/-- The escape and the separator of a text. -/
structure Format where
  escape : UInt8
  sep : UInt8
  escape_eq : escape = quote ∨ escape = backslash
  sep_ne : sep ≠ quote ∧ sep ≠ backslash ∧ sep ≠ cr ∧ sep ≠ lf

/-- The characters that a field without quotes has none of. -/
def Format.Special (fmt : Format) (c : UInt8) : Prop :=
  c = quote ∨ c = fmt.escape ∨ c = fmt.sep ∨ c = cr ∨ c = lf

/-- A character between quotes. -/
def Format.escaped (fmt : Format) (c : UInt8) : Bytes :=
  if c = quote ∨ c = fmt.escape then [fmt.escape, c] else [c]

/-- A field, and whether it is printed between quotes. -/
structure Field (fmt : Format) where
  bytes : Bytes
  quoted : Bool
  bare : quoted = false → ∀ c ∈ bytes, ¬ fmt.Special c

def Field.text {fmt : Format} (f : Field fmt) : Bytes :=
  if f.quoted then quote :: (f.bytes.flatMap fmt.escaped ++ [quote]) else f.bytes

/-- The fields of a record with a separator between them. -/
def recordText {fmt : Format} : List (Field fmt) → Bytes
  | [] => []
  | [f] => f.text
  | f :: g :: fs => f.text ++ fmt.sep :: recordText (g :: fs)

inductive Terminator
  | lf
  | crlf
  | cr
  deriving DecidableEq

def Terminator.bytes : Terminator → Bytes
  | lf => [CSVParser.lf]
  | crlf => [CSVParser.cr, CSVParser.lf]
  | cr => [CSVParser.cr]

/-- The records with a terminator behind each; the last one may have none. -/
def recordsText {fmt : Format} (terminator : Terminator) (closed : Bool) :
    List (List (Field fmt)) → Bytes
  | [] => []
  | [r] => recordText r ++ if closed then terminator.bytes else []
  | r :: r' :: rs => recordText r ++ (terminator.bytes ++ recordsText terminator closed (r' :: rs))

/-- A rectangle of fields and how it is printed. -/
structure Document (fmt : Format) where
  width : Nat
  records : List (List (Field fmt))
  terminator : Terminator
  closed : Bool
  pos : width ≠ 0
  nonempty : records ≠ []
  rectangular : ∀ r ∈ records, r.length = width
  last : closed = false → ∀ r, records.getLast? = some r → recordText r ≠ []

def Document.text {fmt : Format} (doc : Document fmt) : Bytes :=
  recordsText doc.terminator doc.closed doc.records

/-- The calls of `on_field` for the fields of a record from column `col` on. -/
def recordCalls {fmt : Format} (row col : Nat) (fs : List (Field fmt)) : List OnField :=
  (fs.zipIdx col).map fun f => ⟨f.2, row, f.1.bytes⟩

/-- The calls of `on_field` for the records from row `row` on. -/
def recordsCalls {fmt : Format} (row : Nat) (rs : List (List (Field fmt))) : List OnField :=
  (rs.zipIdx row).flatMap fun r => recordCalls r.2 0 r.1

def Document.calls {fmt : Format} (doc : Document fmt) : List OnField := recordsCalls 0 doc.records

/-- The parser accepts the text and finds the fields. -/
def Document.ReadBack {fmt : Format} (doc : Document fmt) : Prop :=
  ∃ s, (new fmt.escape fmt.sep false).parse [doc.text] = .ok s ∧ s.calls = doc.calls

/-- The text ends in the quote behind its last field, which could be the first of two. -/
def Document.EndsInQuote {fmt : Format} (doc : Document fmt) : Prop :=
  fmt.escape = quote ∧ doc.closed = false ∧
    ∃ r f, doc.records.getLast? = some r ∧ r.getLast? = some f ∧ f.quoted = true

section Loop

variable {s u : CSVParser} {c d : UInt8}

theorem loop_next (rest : Bytes) (h : s.iteration c rest.head? = .next u) :
    s.loop (c :: rest) = u.loop rest := by
  rw [loop, h]

theorem loop_skip (rest : Bytes) (h : s.iteration c (some d) = .skip u) :
    s.loop (c :: d :: rest) = u.loop rest := by
  rw [loop, List.head?_cons, h]

end Loop

/-- The parser before column `col` of row `row`, or in it with a part of its field read. -/
structure At (fmt : Format) (width : Nat) (calls : List OnField) (row col : Nat) (field : Bytes)
    (s : CSVParser) : Prop where
  escape : s.escape = fmt.escape
  comma : s.comma = fmt.sep
  trailing : s.hasTrailingComma = false
  calls : s.calls = calls
  rowIdx : s.rowIdx = row
  colIdx : s.colIdx = col
  field : s.currentField = field
  quoted : s.quoted = false
  escaping : s.escaping = false
  newlining : s.newlining = false
  numCols : s.afterFirstRow = true → s.numCols = width

/-- The parser between quotes. -/
structure Inside (fmt : Format) (s : CSVParser) : Prop where
  escape : s.escape = fmt.escape
  comma : s.comma = fmt.sep
  quoted : s.quoted = true
  fieldSep : s.afterFieldSep = false
  recordSep : s.afterRecordSep = false

section Fields

variable {fmt : Format} {s : CSVParser} {c : UInt8} {rest : Bytes}

theorem Format.escape_ne (fmt : Format) :
    fmt.escape ≠ fmt.sep ∧ fmt.escape ≠ lf ∧ fmt.escape ≠ cr := by
  obtain ⟨hquote, hbackslash, -, -⟩ := fmt.sep_ne
  rcases fmt.escape_eq with h | h
  · rw [h]
    exact ⟨hquote.symm, by decide, by decide⟩
  · rw [h]
    exact ⟨hbackslash.symm, by decide, by decide⟩

theorem Inside.push (h : Inside fmt s) (c : UInt8) : Inside fmt (s.push c) :=
  ⟨h.escape, h.comma, h.quoted, h.fieldSep, h.recordSep⟩

theorem Inside.setFlags (h : Inside fmt s) (c : UInt8) :
    (s.push c).setFlags false false = s.push c :=
  setFlags_self h.fieldSep h.recordSep

/-- A character between quotes is read as itself. -/
theorem Inside.loop_escaped (h : Inside fmt s) (c : UInt8) (rest : Bytes) :
    s.loop (fmt.escaped c ++ rest) = (s.push c).loop rest := by
  obtain ⟨hsep, hlf, hcr⟩ := fmt.escape_ne
  rw [Format.escaped]
  split
  · next hc =>
    apply loop_skip _
    rw [iteration.eq_def, h.escape, h.comma, if_neg (by simp), if_neg hsep, if_neg (by simp [hlf, hcr])]
    by_cases hescape : fmt.escape = quote
    · obtain rfl : c = quote := by
        rcases hc with hc | hc
        · exact hc
        · rw [hc, hescape]
      rw [if_pos hescape, if_pos hescape, if_neg (by simp [h.quoted])]
      dsimp only
      rw [if_pos rfl, hescape, h.setFlags]
    · rw [if_neg hescape, if_pos h.quoted]
      dsimp only
      rw [if_pos hc, h.setFlags]
  · next hc =>
    obtain ⟨hquote, hescape⟩ := not_or.mp hc
    apply loop_next _
    rw [iteration.eq_def, h.escape, h.comma, h.quoted]
    by_cases hplain : c ≠ fmt.sep ∧ c ≠ lf ∧ c ≠ cr ∧ c ≠ quote ∧ c ≠ fmt.escape
    · rw [if_pos hplain, h.setFlags]
    · rw [if_neg hplain]
      by_cases hcomma : c = fmt.sep
      · rw [if_pos hcomma, if_neg (by simp), h.setFlags]
      · have hline : c = lf ∨ c = cr := by
          by_contra hline
          exact hplain ⟨hcomma, fun h => hline (.inl h), fun h => hline (.inr h), hquote, hescape⟩
        rw [if_neg hcomma, if_pos hline, if_neg (by simp), h.setFlags]

/-- What stands between quotes is read as itself. -/
theorem Inside.loop_bytes (h : Inside fmt s) (bytes rest : Bytes) :
    ∃ t, Inside fmt t ∧ t = { s with currentField := s.currentField ++ bytes } ∧
      s.loop (bytes.flatMap fmt.escaped ++ rest) = t.loop rest := by
  induction bytes generalizing s with
  | nil => exact ⟨s, h, by simp, rfl⟩
  | cons c bytes ih =>
    obtain ⟨t, ht, heq, hloop⟩ := ih (h.push c)
    refine ⟨t, ht, ?_, ?_⟩
    · rw [heq]
      simp [CSVParser.push]
    · rw [List.flatMap_cons, List.append_assoc, h.loop_escaped, hloop]

/-- A quote that no other quote follows ends the quotes. -/
theorem Inside.loop_close (h : Inside fmt s)
    (hahead : fmt.escape = quote → ∃ d, rest.head? = some d ∧ d ≠ quote) :
    s.loop (quote :: rest) = ({ s with quoted := false }.setFlags false false).loop rest := by
  have hcomma : quote ≠ s.comma := by
    rw [h.comma]
    exact fmt.sep_ne.1.symm
  apply loop_next _
  rw [iteration.eq_def, if_neg (by simp), if_neg hcomma, if_neg (by decide), if_pos rfl]
  by_cases hescape : fmt.escape = quote
  · obtain ⟨d, hd, hne⟩ := hahead hescape
    rw [h.escape, if_pos hescape, if_neg (by simp [h.quoted]), hd]
    dsimp only
    rw [if_neg hne]
  · rw [h.escape, if_neg hescape, h.quoted]
    rfl

end Fields

section Cells

variable {fmt : Format} {width row col : Nat} {calls : List OnField} {field : Bytes}
  {s : CSVParser}

theorem At.fresh (h : At fmt width calls row col field s) : s.Fresh := ⟨h.escaping, h.newlining⟩

/-- The quote before a field. -/
theorem At.loop_open (h : At fmt width calls row col field s) (rest : Bytes) :
    Inside fmt ({ s with quoted := true }.setFlags false false) ∧
      s.loop (quote :: rest) = ({ s with quoted := true }.setFlags false false).loop rest := by
  refine ⟨⟨h.escape, h.comma, rfl, rfl, rfl⟩, loop_next rest ?_⟩
  have hcomma : quote ≠ s.comma := by
    rw [h.comma]
    exact fmt.sep_ne.1.symm
  rw [iteration.eq_def, if_neg (by simp), if_neg hcomma, if_neg (by decide), if_pos rfl, h.quoted]
  split <;> rfl

/-- The characters of a field without quotes. -/
theorem At.loop_bare (h : At fmt width calls row col field s) {bytes : Bytes}
    (hbare : ∀ c ∈ bytes, ¬ fmt.Special c) (rest : Bytes) :
    ∃ t, At fmt width calls row col (field ++ bytes) t ∧ s.loop (bytes ++ rest) = t.loop rest ∧
      (t.afterRecordSep = false ∨ bytes = [] ∧ t = s) := by
  induction bytes generalizing s field with
  | nil => exact ⟨s, by simpa using h, rfl, .inr ⟨rfl, rfl⟩⟩
  | cons c bytes ih =>
    have hc := hbare c List.mem_cons_self
    simp only [Format.Special, not_or] at hc
    obtain ⟨hquote, hescape, hsep, hcr, hlf⟩ := hc
    have hstep : At fmt width calls row col (field ++ [c]) ((s.push c).setFlags false false) := by
      obtain rfl := h.field
      exact ⟨h.escape, h.comma, h.trailing, h.calls, h.rowIdx, h.colIdx, rfl, h.quoted, h.escaping,
        h.newlining, h.numCols⟩
    obtain ⟨t, ht, hloop, hflag⟩ := ih hstep fun d hd => hbare d (List.mem_cons_of_mem c hd)
    refine ⟨t, by simpa using ht, ?_, .inl ?_⟩
    · rw [List.cons_append, ← hloop]
      apply loop_next _
      rw [iteration.eq_def, h.comma, h.escape, if_pos ⟨hsep, hlf, hcr, hquote, hescape⟩]
    · rcases hflag with hflag | ⟨-, rfl⟩
      · exact hflag
      · rfl

/-- A field that no quote follows. -/
theorem At.loop_field (h : At fmt width calls row col [] s) (f : Field fmt) (rest : Bytes)
    (hahead : f.quoted = true → fmt.escape = quote → ∃ d, rest.head? = some d ∧ d ≠ quote) :
    ∃ t, At fmt width calls row col f.bytes t ∧ s.loop (f.text ++ rest) = t.loop rest ∧
      (t.afterRecordSep = false ∨ f.text = [] ∧ t = s) := by
  unfold Field.text
  cases hquoted : f.quoted with
  | false =>
    rw [if_neg (by simp)]
    exact h.loop_bare (f.bare hquoted) rest
  | true =>
    obtain ⟨hinside, hopen⟩ := h.loop_open (f.bytes.flatMap fmt.escaped ++ (quote :: rest))
    obtain ⟨t, ht, heq, hloop⟩ := hinside.loop_bytes f.bytes (quote :: rest)
    have hclose := ht.loop_close fun hescape => hahead hquoted hescape
    refine ⟨{ t with quoted := false }.setFlags false false, ?_, ?_, .inl rfl⟩
    · have hfield : s.currentField ++ f.bytes = f.bytes := by rw [h.field, List.nil_append]
      subst heq
      exact ⟨h.escape, h.comma, h.trailing, h.calls, h.rowIdx, h.colIdx, hfield, rfl, h.escaping,
        h.newlining, h.numCols⟩
    · rw [if_pos rfl, List.cons_append, List.append_assoc, List.singleton_append, hopen, hloop, hclose]

/-- A field in quotes at the end of the text, where the escape is a quote. -/
theorem At.loop_ends (h : At fmt width calls row col [] s) {f : Field fmt} (hquoted : f.quoted = true)
    (hescape : fmt.escape = quote) : ∃ t, s.loop f.text = .ok t ∧ t.quoted = true := by
  obtain ⟨hinside, hopen⟩ := h.loop_open (f.bytes.flatMap fmt.escaped ++ [quote])
  obtain ⟨t, ht, -, hloop⟩ := hinside.loop_bytes f.bytes [quote]
  have hcomma : quote ≠ t.comma := by
    rw [ht.comma]
    exact fmt.sep_ne.1.symm
  refine ⟨{ t with escaping := true }, ?_, ht.quoted⟩
  rw [Field.text, if_pos hquoted, hopen, hloop, loop, iteration.eq_def, if_neg (by simp), if_neg hcomma,
    if_neg (by decide), if_pos rfl, ht.escape, if_pos hescape, if_neg (by simp [ht.quoted])]
  rfl

/-- The separator behind a field. -/
theorem At.loop_sep (h : At fmt width calls row col field s) (rest : Bytes) :
    ∃ t, At fmt width (calls ++ [⟨col, row, field⟩]) row (col + 1) [] t ∧
      s.loop (fmt.sep :: rest) = t.loop rest ∧ t.afterRecordSep = false := by
  obtain ⟨hquote, -, hcr, hlf⟩ := fmt.sep_ne
  refine ⟨{ s.emit with colIdx := s.colIdx + 1 }.setFlags true false, ?_, loop_next rest ?_, rfl⟩
  · obtain ⟨hescape, hcomma, htrailing, rfl, rfl, rfl, rfl, hquoted, hescaping, hnewlining, hcols⟩ := h
    exact ⟨hescape, hcomma, htrailing, rfl, rfl, rfl, rfl, hquoted, hescaping, hnewlining, hcols⟩
  · rw [iteration.eq_def, h.comma, if_neg (by simp), if_pos rfl, h.quoted]
    rfl

/-- The record ends behind its last field. -/
theorem At.endRecord (h : At fmt width calls row col field s) (hcol : col + 1 = width)
    (newlining : Bool) : endRecord { s with newlining := newlining } =
        .ok { s.recordEnd with newlining := newlining } ∧
      At fmt width (calls ++ [⟨col, row, field⟩]) (row + 1) 0 [] s.recordEnd := by
  obtain ⟨hescape, hcomma, htrailing, rfl, rfl, rfl, rfl, hquoted, hescaping, hnewlining, hcols⟩ := h
  have herror : recordError { s with newlining := newlining } = none := by
    unfold recordError columns
    simp only [htrailing]
    cases hrow : s.afterFirstRow with
    | false => rfl
    | true => simp [hcols hrow, hcol]
  constructor
  · rw [endRecord_eq, herror]
    rfl
  · refine ⟨hescape, hcomma, htrailing, ?_, rfl, rfl, ?_, hquoted, hescaping, hnewlining, fun _ => ?_⟩
    · simp [recordEnd, htrailing, emit]
    · simp [recordEnd, htrailing]
    · cases hrow : s.afterFirstRow with
      | false => simp [recordEnd, hrow, columns, htrailing, hcol]
      | true => simp [recordEnd, hrow, hcols hrow]

/-- The terminator behind a record. -/
theorem At.loop_terminator (h : At fmt width calls row col field s) (hcol : col + 1 = width)
    (terminator : Terminator) (rest : Bytes) (hahead : terminator = .cr → ∃ d, rest.head? = some d ∧ d ≠ lf) :
    ∃ t, At fmt width (calls ++ [⟨col, row, field⟩]) (row + 1) 0 [] t ∧
      s.loop (terminator.bytes ++ rest) = t.loop rest ∧ t.afterRecordSep = true := by
  obtain ⟨hend, hat⟩ := h.endRecord hcol s.newlining
  have hend : s.endRecord = .ok s.recordEnd := hend
  refine ⟨s.recordEnd.setFlags false true, ?_, ?_, rfl⟩
  · exact ⟨hat.escape, hat.comma, hat.trailing, hat.calls, hat.rowIdx, hat.colIdx, hat.field, hat.quoted,
      hat.escaping, hat.newlining, hat.numCols⟩
  · obtain ⟨-, -, hcr, hlf⟩ := fmt.sep_ne
    have hnewline : ∀ c ahead, c = lf ∨ c = cr → (c = cr → ahead ≠ none) →
        s.iteration c ahead = s.newline c ahead := by
      intro c ahead hline hsome
      have hcomma : c ≠ s.comma := by
        rw [h.comma]
        rcases hline with rfl | rfl
        · exact hlf.symm
        · exact hcr.symm
      rw [iteration.eq_def, if_neg (fun hplain => hline.elim hplain.2.1 hplain.2.2.1), if_neg hcomma,
        if_pos hline, if_pos (by simp [h.quoted]), if_neg fun hnone => hsome hnone.1 hnone.2]
    cases terminator with
    | lf =>
      apply loop_next _
      rw [hnewline _ _ (.inl rfl) (fun h => absurd h (by decide)), newline, hend]
      rfl
    | crlf =>
      apply loop_skip _
      rw [hnewline _ _ (.inr rfl) (by simp), newline, hend]
      rfl
    | cr =>
      obtain ⟨d, hd, hne⟩ := hahead rfl
      apply loop_next rest
      rw [hd, hnewline _ _ (.inr rfl) (by simp), newline, hend]
      simp [hne]

end Cells

section Records

variable {fmt : Format} {width row col : Nat} {calls : List OnField} {s : CSVParser}

/-- The parser comes to the last field of a record. -/
theorem At.loop_record {fs : List (Field fmt)} (hne : fs ≠ []) (h : At fmt width calls row col [] s)
    (rest : Bytes) :
    ∃ t f cs last, fs.getLast? = some f ∧ last + 1 = col + fs.length ∧
      At fmt width (calls ++ cs) row last [] t ∧
      cs ++ [⟨last, row, f.bytes⟩] = recordCalls row col fs ∧
      s.loop (recordText fs ++ rest) = t.loop (f.text ++ rest) ∧
      (t.afterRecordSep = false ∨ recordText fs = f.text ∧ t = s) := by
  induction fs generalizing s col calls with
  | nil => exact absurd rfl hne
  | cons f fs ih =>
    cases fs with
    | nil => exact ⟨s, f, [], col, rfl, rfl, by simpa using h, rfl, rfl, .inr ⟨rfl, rfl⟩⟩
    | cons g fs =>
      obtain ⟨t, ht, hloop, -⟩ := h.loop_field f (fmt.sep :: (recordText (g :: fs) ++ rest))
        fun _ _ => ⟨fmt.sep, rfl, fmt.sep_ne.1⟩
      obtain ⟨u, hu, hloop', hflag⟩ := ht.loop_sep (recordText (g :: fs) ++ rest)
      obtain ⟨v, f', cs, last, hlast, hcol, hv, hcalls, hloop'', hflag'⟩ := ih (by simp) hu
      refine ⟨v, f', ⟨col, row, f.bytes⟩ :: cs, last, by simpa using hlast, ?_, by simpa using hv, ?_, ?_, ?_⟩
      · rw [hcol]
        simp only [List.length_cons]
        omega
      · rw [List.cons_append, hcalls]
        rfl
      · rw [← hloop'', ← hloop', ← hloop, recordText]
        simp
      · rcases hflag' with hflag' | ⟨-, rfl⟩
        · exact .inl hflag'
        · exact .inl hflag

/-- A quote and a line feed begin no terminator and no record of their own. -/
theorem head_terminator (terminator : Terminator) (rest : Bytes) :
    ∃ d, (terminator.bytes ++ rest).head? = some d ∧ d ≠ quote ∧ (terminator = .cr → d ≠ lf) := by
  cases terminator with
  | lf => exact ⟨lf, rfl, by decide, nofun⟩
  | crlf => exact ⟨cr, rfl, by decide, nofun⟩
  | cr => exact ⟨cr, rfl, by decide, fun _ => by decide⟩

theorem head_recordText (fs : List (Field fmt)) {d : UInt8} (h : (recordText fs).head? = some d) :
    d ≠ lf := by
  have hfield : ∀ (f : Field fmt) d, f.text.head? = some d → d ≠ lf := by
    intro f d hd
    unfold Field.text at hd
    cases hquoted : f.quoted with
    | true =>
      rw [hquoted, if_pos rfl] at hd
      obtain rfl := Option.some.inj hd
      decide
    | false =>
      rw [hquoted, if_neg (by simp)] at hd
      rintro rfl
      exact f.bare hquoted _ (List.mem_of_head? hd) (by simp [Format.Special])
  match fs, h with
  | [f], h => exact hfield f d h
  | f :: g :: fs, h =>
    rw [recordText] at h
    cases htext : f.text with
    | nil =>
      rw [htext] at h
      obtain rfl := Option.some.inj h
      exact fmt.sep_ne.2.2.2
    | cons c text =>
      rw [htext] at h
      exact hfield f d (by rw [htext]; exact h)

/-- The text of records does not go on with the line feed of a carriage return before it. -/
theorem head_recordsText {rs : List (List (Field fmt))} (hne : rs ≠ []) {closed : Bool}
    (hlast : closed = false → ∀ r, rs.getLast? = some r → recordText r ≠ []) :
    ∃ d, (recordsText .cr closed rs).head? = some d ∧ d ≠ lf := by
  have hrecord : ∀ (r : List (Field fmt)) rest, (∃ d, rest.head? = some d ∧ d ≠ lf) →
      ∃ d, (recordText r ++ rest).head? = some d ∧ d ≠ lf := by
    intro r rest hrest
    cases htext : recordText r with
    | nil => exact hrest
    | cons c text => exact ⟨c, rfl, head_recordText r (by rw [htext]; rfl)⟩
  match rs, hne, hlast with
  | [r], _, hlast =>
    cases closed with
    | true => exact hrecord r _ ⟨cr, rfl, by decide⟩
    | false =>
      obtain ⟨c, text, htext⟩ := List.exists_cons_of_ne_nil (hlast rfl r rfl)
      exact ⟨c, by simp [recordsText, htext], head_recordText r (by rw [htext]; rfl)⟩
  | r :: r' :: rs, _, _ =>
    apply hrecord r _
    exact ⟨cr, rfl, by decide⟩

/-- The parser comes to the last field of the text. -/
theorem At.loop_records (terminator : Terminator) {closed : Bool} {rs : List (List (Field fmt))}
    (hne : rs ≠ []) (hpos : width ≠ 0) (hwidth : ∀ r ∈ rs, r.length = width)
    (hlast : closed = false → ∀ r, rs.getLast? = some r → recordText r ≠ [])
    (h : At fmt width calls row 0 [] s) :
    ∃ t r f cs lastRow last, rs.getLast? = some r ∧ r.getLast? = some f ∧ last + 1 = width ∧
      At fmt width (calls ++ cs) lastRow last [] t ∧
      cs ++ [⟨last, lastRow, f.bytes⟩] = recordsCalls row rs ∧
      s.loop (recordsText terminator closed rs) =
        t.loop (f.text ++ if closed then terminator.bytes else []) ∧
      (t.afterRecordSep = false ∨ recordText r = f.text) := by
  induction rs generalizing s row calls with
  | nil => exact absurd rfl hne
  | cons r rs ih =>
    have hr : r ≠ [] := by
      rintro rfl
      exact hpos (hwidth [] List.mem_cons_self).symm
    cases rs with
    | nil =>
      obtain ⟨t, f, cs, last, hf, hcol, ht, hcalls, hloop, hflag⟩ :=
        h.loop_record hr (if closed then terminator.bytes else [])
      have hlen := hwidth r List.mem_cons_self
      refine ⟨t, r, f, cs, row, last, rfl, hf, by omega, ht, ?_, hloop, hflag.imp_right And.left⟩
      rw [hcalls]
      simp [recordsCalls]
    | cons r' rs =>
      let rest := recordsText terminator closed (r' :: rs)
      have hrest : closed = false → ∀ q, (r' :: rs).getLast? = some q → recordText q ≠ [] := by
        intro hclosed q hq
        exact hlast hclosed q (by simpa using hq)
      obtain ⟨t, f, cs, last, hf, hcol, ht, hcalls, hloop, -⟩ :=
        h.loop_record hr (terminator.bytes ++ rest)
      have hlen := hwidth r List.mem_cons_self
      obtain ⟨d, hd, hquote, -⟩ := head_terminator terminator rest
      obtain ⟨u, hu, hloop', -⟩ := ht.loop_field f (terminator.bytes ++ rest)
        fun _ _ => ⟨d, hd, hquote⟩
      have hahead : terminator = .cr → ∃ d, rest.head? = some d ∧ d ≠ lf := by
        rintro rfl
        exact head_recordsText (by simp) hrest
      obtain ⟨v, hv, hloop'', -⟩ := hu.loop_terminator (by omega) terminator rest hahead
      obtain ⟨w, q, g, cs', lastRow, last', hq, hg, hcol', hw, hcalls', hend, hflag⟩ :=
        ih (by simp) (fun q hq => hwidth q (List.mem_cons_of_mem r hq)) hrest hv
      refine ⟨w, q, g, cs ++ [⟨last, row, f.bytes⟩] ++ cs', lastRow, last', by simpa using hq, hg, hcol',
        by simpa using hw, ?_, ?_, hflag⟩
      · rw [List.append_assoc, hcalls', hcalls]
        simp [recordsCalls, List.zipIdx_cons]
      · rw [← hend, ← hloop'', ← hloop', ← hloop]
        rfl

end Records

section Document

variable {fmt : Format} {width row col : Nat} {calls : List OnField} {field : Bytes} {s : CSVParser}

theorem at_new (fmt : Format) (width : Nat) :
    At fmt width [] 0 0 [] (new fmt.escape fmt.sep false) :=
  ⟨rfl, rfl, rfl, rfl, rfl, rfl, rfl, rfl, rfl, rfl, nofun⟩

/-- The end of a text behind the terminator of its last record. -/
theorem At.finish_closed (h : At fmt width calls row col field s) (hcol : col + 1 = width)
    (terminator : Terminator) :
    ∃ t, (s.loop terminator.bytes >>= finish) = .ok t ∧ t.calls = calls ++ [⟨col, row, field⟩] := by
  by_cases hcr : terminator = .cr
  · subst hcr
    obtain ⟨hend, hat⟩ := h.endRecord hcol true
    refine ⟨{ s.recordEnd with afterRecordSep := true, newlining := false }, ?_, hat.calls⟩
    have hstop : s.loop Terminator.cr.bytes = .ok { s with newlining := true } := by
      have hcomma : cr ≠ s.comma := by
        rw [h.comma]
        exact fmt.sep_ne.2.2.1.symm
      rw [Terminator.bytes, loop, iteration.eq_def, if_neg (by simp), if_neg hcomma, if_pos (.inr rfl),
        if_pos (by simp [h.quoted]), if_pos ⟨rfl, rfl⟩]
    rw [hstop, ok_bind, finish, if_neg (by simp [h.quoted]), if_pos rfl, execute, resumeEscape,
      if_neg (by simp [h.escaping])]
    dsimp only
    rw [resumeNewline, if_pos rfl, hend]
    rfl
  · obtain ⟨t, ht, hloop, hflag⟩ := h.loop_terminator hcol terminator []
      fun hcr' => absurd hcr' hcr
    refine ⟨t, ?_, ht.calls⟩
    rw [List.append_nil] at hloop
    rw [hloop, loop, ok_bind, finish, if_neg (by simp [ht.quoted]), if_neg (by simp [ht.newlining]),
      if_neg (by simp [hflag])]

/-- The end of a text without a terminator. -/
theorem At.finish_open (h : At fmt width calls row col field s) (hcol : col + 1 = width)
    (hflag : s.afterRecordSep = false) :
    ∃ t, s.finish = .ok t ∧ t.calls = calls ++ [⟨col, row, field⟩] := by
  obtain ⟨t, ht, hloop, -⟩ := h.loop_terminator hcol .lf [] nofun
  refine ⟨t, ?_, ht.calls⟩
  rw [finish, if_neg (by simp [h.quoted]), if_neg (by simp [h.newlining]), if_pos (by simp [hflag]),
    h.fresh.execute]
  exact hloop

/-- A text is read back exactly if it does not end in a quote that could be the first of two. -/
theorem Document.readBack_iff (doc : Document fmt) : doc.ReadBack ↔ ¬ doc.EndsInQuote := by
  let start := new fmt.escape fmt.sep false
  obtain ⟨t, r, f, cs, lastRow, last, hr, hf, hcol, ht, hcalls, hloop, hflag⟩ :=
    (at_new fmt doc.width).loop_records doc.terminator doc.nonempty doc.pos doc.rectangular doc.last
  have hparse : start.parse [doc.text] =
      t.loop (f.text ++ if doc.closed then doc.terminator.bytes else []) >>= finish := by
    rw [parse_single, (at_new fmt doc.width).fresh.execute]
    exact congrArg (· >>= finish) hloop
  have hends : doc.EndsInQuote ↔ fmt.escape = quote ∧ doc.closed = false ∧ f.quoted = true := by
    unfold EndsInQuote
    simp [hr, hf]
  have hread : (∃ s, start.parse [doc.text] = .ok s ∧
      s.calls = [] ++ cs ++ [⟨last, lastRow, f.bytes⟩]) → doc.ReadBack := by
    rintro ⟨s, hs, hfound⟩
    refine ⟨s, hs, ?_⟩
    rw [hfound, List.nil_append, hcalls]
    rfl
  rw [hends]
  cases hclosed : doc.closed with
  | true =>
    rw [hclosed, if_pos rfl] at hparse
    refine iff_of_true (hread ?_) (by simp)
    obtain ⟨d, hd, hquote, -⟩ := head_terminator doc.terminator []
    obtain ⟨u, hu, hloop', -⟩ := ht.loop_field f doc.terminator.bytes
      fun _ _ => ⟨d, by simpa using hd, hquote⟩
    rw [hparse, hloop']
    exact hu.finish_closed hcol doc.terminator
  | false =>
    rw [hclosed, if_neg (by simp), List.append_nil] at hparse
    by_cases hquote : fmt.escape = quote ∧ f.quoted = true
    · refine iff_of_false ?_ (by simp [hquote])
      rintro ⟨v, hv, -⟩
      obtain ⟨u, hu, hquoted⟩ := ht.loop_ends hquote.2 hquote.1
      have herror : start.parse [doc.text] = .error (.QuoteNotClosed, u) := by
        rw [hparse, hu, ok_bind, finish, if_pos hquoted]
      cases herror.symm.trans hv
    · refine iff_of_true (hread ?_) fun h => hquote ⟨h.1, h.2.2⟩
      obtain ⟨u, hu, hloop', hflag'⟩ := ht.loop_field f []
        fun hquoted hescape => absurd ⟨hescape, hquoted⟩ hquote
      have hend : u.afterRecordSep = false := by
        rcases hflag' with hflag' | ⟨hnil, rfl⟩
        · exact hflag'
        · exact hflag.resolve_right fun htext => doc.last hclosed r hr (htext.trans hnil)
      rw [List.append_nil] at hloop'
      rw [hparse, hloop', loop, ok_bind]
      exact hu.finish_open hcol hend

/-- One record of the empty field between quotes, without a terminator: `""`. -/
def quotedEnd : Document ⟨quote, 44, .inl rfl, by decide⟩ where
  width := 1
  records := [[⟨[], true, nofun⟩]]
  terminator := .lf
  closed := false
  pos := by decide
  nonempty := by simp
  rectangular := by simp
  last _ r hr := by
    obtain rfl := Option.some.inj hr
    simp [recordText, Field.text]

theorem quotedEnd_not_readBack : ¬ quotedEnd.ReadBack := by
  rintro ⟨s, hs, -⟩
  cases hs

end Document

end JoinOptimizer.CSVParser
