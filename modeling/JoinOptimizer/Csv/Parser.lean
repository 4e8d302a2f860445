import JoinOptimizer.Data

/-! `CSVParser` of `include/csv_parser.h` and `src/csv_parser.cpp`, a parser that is given its input in
buffers.  The calls of the virtual `on_field` are kept in a list. -/

namespace JoinOptimizer

/-- `CSVParser::Error`; where a function returns `Ok`, it has no error here. -/
inductive CSVParser.Error
  | QuoteNotClosed
  | InconsistentColumns
  | NoTrailingComma
  deriving DecidableEq

/-- A call of `on_field`. -/
structure OnField where
  colIdx : Nat
  rowIdx : Nat
  field : Bytes
  deriving DecidableEq

structure CSVParser where
  escape : UInt8
  comma : UInt8
  hasTrailingComma : Bool
  currentField : Bytes
  colIdx : Nat
  rowIdx : Nat
  numCols : Nat
  afterFirstRow : Bool
  quoted : Bool
  afterFieldSep : Bool
  afterRecordSep : Bool
  escaping : Bool
  newlining : Bool
  calls : List OnField
  deriving DecidableEq

namespace CSVParser

/-- The characters that the parser knows by themselves: a line feed, a carriage return and a quote. -/
def lf : UInt8 := 10

def cr : UInt8 := 13

def quote : UInt8 := 34

/-- The constructor. -/
def new (escape sep : UInt8) (hasTrailingComma : Bool) : CSVParser where
  escape := escape
  comma := sep
  hasTrailingComma := hasTrailingComma
  currentField := []
  colIdx := 0
  rowIdx := 0
  numCols := 0
  afterFirstRow := false
  quoted := false
  afterFieldSep := false
  afterRecordSep := false
  escaping := false
  newlining := false
  calls := []

/-- What `execute` or `finish` returns, with the parser it leaves. -/
abbrev Outcome := Except (Error × CSVParser) CSVParser

/-- `current_field_.push_back(c)`. -/
def push (s : CSVParser) (c : UInt8) : CSVParser := { s with currentField := s.currentField ++ [c] }

/-- `on_field` and `current_field_.clear()`. -/
def emit (s : CSVParser) : CSVParser :=
  { s with calls := s.calls ++ [⟨s.colIdx, s.rowIdx, s.currentField⟩], currentField := [] }

/-- The flags that an iteration sets at its end. -/
def setFlags (s : CSVParser) (fieldSep recordSep : Bool) : CSVParser :=
  { s with afterFieldSep := fieldSep, afterRecordSep := recordSep }

/-- The first row tells the number of columns, and the other rows have as many. -/
def checkColumns (s : CSVParser) (cols : Nat) : Outcome :=
  if !s.afterFirstRow then .ok { s with afterFirstRow := true, numCols := cols }
  else if cols ≠ s.numCols then .error (.InconsistentColumns, s)
  else .ok s

/-- The end of a record, up to the flags. -/
def endRecord (s : CSVParser) : Outcome :=
  if s.hasTrailingComma then
    if !s.afterFieldSep then .error (.NoTrailingComma, s)
    else do
      let s ← s.checkColumns s.colIdx
      .ok { s with colIdx := 0, rowIdx := s.rowIdx + 1 }
  else do
    let s ← s.checkColumns (s.colIdx + 1)
    let s := s.emit
    .ok { s with colIdx := 0, rowIdx := s.rowIdx + 1 }

/-- How an iteration of the loop ends: with `++i`, with `++i` twice, or with a `return`. -/
inductive Iteration
  | next (s : CSVParser)
  | skip (s : CSVParser)
  | stop (outcome : Outcome)

/-- The iteration for a line feed or a carriage return outside quotes, behind the check for a carriage
return at the end of the buffer. -/
def newline (s : CSVParser) (c : UInt8) (ahead : Option UInt8) : Iteration :=
  match s.endRecord with
  | .error e => .stop (.error e)
  | .ok s =>
    let s := s.setFlags false true
    if c = cr ∧ ahead = some lf then .skip s else .next s

/-- The body of the loop for `c = buffer[i]`, where `ahead` is `buffer[i + 1]` unless `i + 1 == len`. -/
def iteration (s : CSVParser) (c : UInt8) (ahead : Option UInt8) : Iteration :=
  if c ≠ s.comma ∧ c ≠ lf ∧ c ≠ cr ∧ c ≠ quote ∧ c ≠ s.escape then
    .next ((s.push c).setFlags false false)
  else if c = s.comma then
    if !s.quoted then
      let s := s.emit
      .next ({ s with colIdx := s.colIdx + 1 }.setFlags true false)
    else
      .next ((s.push c).setFlags false false)
  else if c = lf ∨ c = cr then
    if !s.quoted then
      if c = cr ∧ ahead = none then .stop (.ok { s with newlining := true })
      else s.newline c ahead
    else
      .next ((s.push c).setFlags false false)
  else if c = quote then
    if s.escape = quote then
      if !s.quoted then
        .next ({ s with quoted := true }.setFlags false false)
      else
        match ahead with
        | none => .stop (.ok { s with escaping := true })
        | some d =>
          if d = quote then .skip ((s.push c).setFlags false false)
          else .next ({ s with quoted := false }.setFlags false false)
    else
      .next ({ s with quoted := !s.quoted }.setFlags false false)
  else if s.quoted then
    match ahead with
    | none => .stop (.ok { s with escaping := true })
    | some d =>
      if d = quote ∨ d = s.escape then .skip ((s.push d).setFlags false false)
      else .next ((s.push s.escape).setFlags false false)
  else
    .next ((s.push c).setFlags false false)

/-- The loop over the bytes from `buffer[i]` on. -/
def loop (s : CSVParser) : Bytes → Outcome
  | [] => .ok s
  | c :: rest =>
    match s.iteration c rest.head? with
    | .next s => s.loop rest
    | .skip s =>
      match rest with
      | [] => .ok s
      | _ :: rest => s.loop rest
    | .stop outcome => outcome

/-- The first `if` of `execute`: the buffer before ended in an escape character or, where the escape is a
quote, in a quote.  An empty buffer is the literal of `finish`, whose first byte is zero. -/
def resumeEscape (s : CSVParser) (buffer : Bytes) : Nat × CSVParser :=
  if s.escaping then
    let c := buffer.headD 0
    if s.escape = quote then
      if c = quote then (1, { s.push quote with escaping := false })
      else (0, { s with quoted := false, escaping := false })
    else if c = quote ∨ c = s.escape then (1, { s.push c with escaping := false })
    else (0, { s.push s.escape with escaping := false })
  else (0, s)

/-- The second `if`: the buffer before ended in a carriage return. -/
def resumeNewline (i : Nat) (s : CSVParser) (buffer : Bytes) :
    Except (Error × CSVParser) (Nat × CSVParser) :=
  if s.newlining then do
    let i := if buffer.head? = some lf then i + 1 else i
    let s ← s.endRecord
    .ok (i, { s with afterRecordSep := true, newlining := false })
  else .ok (i, s)

/-- `CSVParser::execute`. -/
def execute (s : CSVParser) (buffer : Bytes) : Outcome := do
  let (i, s) := s.resumeEscape buffer
  let (i, s) ← resumeNewline i s buffer
  s.loop (buffer.drop i)

/-- `CSVParser::finish`. -/
def finish (s : CSVParser) : Outcome :=
  if s.quoted then .error (.QuoteNotClosed, s)
  else if s.newlining then s.execute []
  else if !s.afterRecordSep then s.execute [lf]
  else .ok s

/-- A whole run: `execute` on each buffer as long as there is no error, and then `finish`. -/
def parse (s : CSVParser) (buffers : List Bytes) : Outcome := do
  let s ← buffers.foldlM execute s
  s.finish

/-- The calls of `on_field` that a run has made. -/
def Outcome.calls : Outcome → List OnField
  | .ok s => s.calls
  | .error e => e.2.calls

end CSVParser

end JoinOptimizer
