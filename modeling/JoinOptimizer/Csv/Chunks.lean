import JoinOptimizer.Csv.Parser
import JoinOptimizer.Lib.Chunks

/-! How the input is cut makes no difference to the parser.  The code that resumes behind a cut leaves
`after_field_sep_` as it was, so that a record that follows may be refused for another reason. -/

namespace JoinOptimizer.CSVParser

open Lib

/-- What holds of the parser between two iterations. -/
structure Sound (s : CSVParser) : Prop where
  quoted : s.quoted = true → s.afterFieldSep = false ∧ s.afterRecordSep = false
  escaping : s.escaping = true → s.quoted = true
  newlining : s.newlining = true → s.quoted = false
  numCols : s.hasTrailingComma = true → s.afterFirstRow = true → s.numCols ≠ 0
  fieldSep : s.afterFieldSep = true → s.afterFirstRow = true ∨ s.colIdx ≠ 0

/-- The flag `after_field_sep_` says nothing that counts: it is not read, or the record that begins here
cannot end here. -/
def Stale (s : CSVParser) : Prop :=
  s.hasTrailingComma = true →
    s.afterFirstRow = true ∧ s.colIdx = 0 ∧ (s.afterRecordSep = true ∨ s.newlining = true)

/-- Two parsers that differ at most in a flag that says nothing. -/
structure Same (s t : CSVParser) : Prop where
  left : s.Sound
  right : t.Sound
  fields : t = { s with afterFieldSep := t.afterFieldSep }
  stale : s.afterFieldSep ≠ t.afterFieldSep → s.Stale

/-- Two errors behind the same calls of `on_field`. -/
def SameCalls (e f : Error × CSVParser) : Prop := e.2.calls = f.2.calls

/-- No buffer before has left anything to do. -/
structure Fresh (s : CSVParser) : Prop where
  escaping : s.escaping = false
  newlining : s.newlining = false

theorem Sound.same {s : CSVParser} (h : s.Sound) : Same s s := ⟨h, h, rfl, fun hne => absurd rfl hne⟩

theorem same_symm : Std.Symm Same where
  symm s t h := by
    obtain ⟨hs, ht, hfields, hstale⟩ := h
    refine ⟨ht, hs, by rw [hfields], fun hne => ?_⟩
    rw [hfields]
    exact hstale (Ne.symm hne)

theorem same_trans : IsTrans CSVParser Same where
  trans s t u hst htu := by
    refine ⟨hst.left, htu.right, ?_, fun hne => ?_⟩
    · have h := htu.fields
      rw [hst.fields] at h
      exact h
    · by_cases hsame : s.afterFieldSep = t.afterFieldSep
      · have hstale := htu.stale (by rwa [← hsame])
        rw [hst.fields] at hstale
        exact hstale
      · exact hst.stale hsame

theorem Same.fresh {s t : CSVParser} (h : Same s t) (hs : s.Fresh) : t.Fresh := by
  rw [h.fields]
  exact ⟨hs.escaping, hs.newlining⟩

section Record

variable {s : CSVParser}

/-- The columns of the record that ends here. -/
def columns (s : CSVParser) : Nat := if s.hasTrailingComma then s.colIdx else s.colIdx + 1

/-- Why the record may not end here. -/
def recordError (s : CSVParser) : Option Error :=
  if s.hasTrailingComma && !s.afterFieldSep then some .NoTrailingComma
  else if s.afterFirstRow && s.columns != s.numCols then some .InconsistentColumns
  else none

/-- The parser behind the record that ends here, up to the flags. -/
def recordEnd (s : CSVParser) : CSVParser :=
  { s with
    calls := if s.hasTrailingComma then s.calls else s.emit.calls
    currentField := if s.hasTrailingComma then s.currentField else []
    afterFirstRow := true
    numCols := if s.afterFirstRow then s.numCols else s.columns
    colIdx := 0
    rowIdx := s.rowIdx + 1 }

theorem endRecord_eq (s : CSVParser) :
    s.endRecord = match s.recordError with
      | some e => .error (e, s)
      | none => .ok s.recordEnd := by
  unfold endRecord recordError recordEnd columns checkColumns
  cases htrailing : s.hasTrailingComma with
  | true =>
    cases hsep : s.afterFieldSep with
    | false => rfl
    | true =>
      cases hrow : s.afterFirstRow with
      | false => rfl
      | true =>
        by_cases hcols : s.colIdx = s.numCols
        · simp [hcols, htrailing, hsep, hrow]
        · simp [hcols]
  | false =>
    cases hrow : s.afterFirstRow with
    | false => rfl
    | true =>
      by_cases hcols : s.colIdx + 1 = s.numCols
      · simp [hcols, htrailing, hrow, emit]
      · simp [hcols]

theorem sound_recordEnd (h : s.Sound) (hquoted : s.quoted = false) (hend : s.recordError = none)
    (fieldSep recordSep newlining : Bool) :
    Sound { s.recordEnd with afterFieldSep := fieldSep, afterRecordSep := recordSep,
                             newlining := newlining } where
  quoted hq := absurd (hquoted.symm.trans hq) (by simp)
  escaping hescaping := h.escaping hescaping
  newlining _ := hquoted
  fieldSep _ := .inl rfl
  numCols htrailing _ := by
    have htrailing : s.hasTrailingComma = true := htrailing
    show (if s.afterFirstRow then s.numCols else s.columns) ≠ 0
    cases hrow : s.afterFirstRow with
    | true => exact h.numCols htrailing hrow
    | false =>
      have hsep : s.afterFieldSep = true := by
        cases hsep : s.afterFieldSep with
        | true => rfl
        | false => simp [recordError, htrailing, hsep] at hend
      simpa [columns, htrailing, hrow] using h.fieldSep hsep

/-- A flag that says nothing does not decide whether the record may end here. -/
theorem recordError_same (hs : s.Sound) {b : Bool} (hstale : s.afterFieldSep ≠ b → s.Stale) :
    (∃ e f, s.recordError = some e ∧ recordError { s with afterFieldSep := b } = some f) ∨
      recordError { s with afterFieldSep := b } = s.recordError := by
  by_cases hb : s.afterFieldSep = b
  · right
    rw [← hb]
  by_cases htrailing : s.hasTrailingComma = true
  · left
    obtain ⟨hrow, hcol, -⟩ := hstale hb htrailing
    have hcols := hs.numCols htrailing hrow
    have hsome : ∀ b, ∃ e, recordError { s with afterFieldSep := b } = some e := by
      intro b
      cases b with
      | false => exact ⟨.NoTrailingComma, by simp [recordError, htrailing]⟩
      | true => exact ⟨.InconsistentColumns, by
          simp [recordError, columns, htrailing, hrow, hcol, Ne.symm hcols]⟩
    obtain ⟨e, he⟩ := hsome s.afterFieldSep
    obtain ⟨f, hf⟩ := hsome b
    exact ⟨e, f, he, hf⟩
  · right
    simp [recordError, columns, htrailing]

end Record

section Loop

variable {s t : CSVParser}

/-- The iterations of parsers that are the same. -/
inductive Iteration.Same : Iteration → Iteration → Prop
  | next {u : CSVParser} : u.Sound → u.Fresh → Same (.next u) (.next u)
  | skip {u : CSVParser} : u.Sound → u.Fresh → Same (.skip u) (.skip u)
  | stop {x y : Outcome} : Agree SameCalls CSVParser.Same x y → Same (.stop x) (.stop y)

theorem Sound.setFlags (h : s.Sound) (hs : s.Fresh) (field : Bytes) (quoted : Bool) :
    ({ s with currentField := field, quoted := quoted }.setFlags false false).Sound where
  quoted _ := ⟨rfl, rfl⟩
  escaping hescaping := absurd (hs.escaping.symm.trans hescaping) (by simp)
  newlining hnewlining := absurd (hs.newlining.symm.trans hnewlining) (by simp)
  numCols := h.numCols
  fieldSep hsep := absurd hsep (by simp [CSVParser.setFlags])

theorem Fresh.setFlags (hs : s.Fresh) (field : Bytes) (quoted : Bool) :
    ({ s with currentField := field, quoted := quoted }.setFlags false false).Fresh :=
  ⟨hs.escaping, hs.newlining⟩

theorem newline_same (h : s.Sound) (hs : s.Fresh) (hquoted : s.quoted = false) {b : Bool}
    (hstale : s.afterFieldSep ≠ b → s.Stale) (c : UInt8) (ahead : Option UInt8) :
    (s.newline c ahead).Same (newline { s with afterFieldSep := b } c ahead) := by
  unfold newline
  rw [endRecord_eq, endRecord_eq]
  rcases recordError_same h hstale with ⟨e, f, he, hf⟩ | hsame
  · rw [he, hf]
    exact .stop (.error rfl)
  · rw [hsame]
    cases hend : s.recordError with
    | some e => exact .stop (.error rfl)
    | none =>
      have hsound := sound_recordEnd h hquoted hend false true s.newlining
      have hfresh : (s.recordEnd.setFlags false true).Fresh := ⟨hs.escaping, hs.newlining⟩
      dsimp only
      split
      · exact .skip hsound hfresh
      · exact .next hsound hfresh

theorem Sound.newlines (h : s.Sound) (hquoted : s.quoted = false) :
    Sound { s with newlining := true } where
  quoted := h.quoted
  escaping := h.escaping
  newlining _ := hquoted
  numCols := h.numCols
  fieldSep := h.fieldSep

theorem Sound.escapes (h : s.Sound) (hs : s.Fresh) (hquoted : s.quoted = true) :
    Sound { s with escaping := true } where
  quoted := h.quoted
  escaping _ := hquoted
  newlining hnewlining := absurd (hs.newlining.symm.trans hnewlining) (by simp)
  numCols := h.numCols
  fieldSep := h.fieldSep

theorem iteration_same (h : Same s t) (hs : s.Fresh) (c : UInt8) (ahead : Option UInt8) :
    (s.iteration c ahead).Same (t.iteration c ahead) := by
  obtain ⟨hsound, hsound', hfields, hstale⟩ := h
  generalize t.afterFieldSep = b at hfields hstale
  subst hfields
  have hplain : ∀ field quoted, Iteration.Same
      (.next ({ s with currentField := field, quoted := quoted }.setFlags false false))
      (.next ({ s with currentField := field, quoted := quoted }.setFlags false false)) :=
    fun field quoted => .next (hsound.setFlags hs field quoted) (hs.setFlags field quoted)
  have hskip : ∀ field, Iteration.Same
      (.skip ({ s with currentField := field }.setFlags false false))
      (.skip ({ s with currentField := field }.setFlags false false)) :=
    fun field => .skip (hsound.setFlags hs field s.quoted) (hs.setFlags field s.quoted)
  unfold iteration
  dsimp only
  split
  · exact hplain _ s.quoted
  · split
    · split
      case isTrue hquoted =>
        refine .next ⟨?_, ?_, ?_, hsound.numCols, ?_⟩ ⟨hs.escaping, hs.newlining⟩
        · intro hq
          simp_all [setFlags, emit]
        · intro hescaping
          exact hsound.escaping hescaping
        · intro hnewlining
          exact hsound.newlining hnewlining
        · intro _
          exact .inr (Nat.succ_ne_zero _)
      case isFalse => exact hplain _ s.quoted
    · split
      · split
        case isTrue hquoted =>
          have hquoted : s.quoted = false := by simpa using hquoted
          split
          · refine .stop (.ok ⟨hsound.newlines hquoted, hsound'.newlines hquoted, rfl, ?_⟩)
            intro hb htrailing
            obtain ⟨hrow, hcol, -⟩ := hstale hb htrailing
            exact ⟨hrow, hcol, .inr rfl⟩
          · exact newline_same hsound hs hquoted hstale c ahead
        case isFalse => exact hplain _ s.quoted
      · have hescapes : s.quoted = true → Iteration.Same
            (.stop (.ok { s with escaping := true }))
            (.stop (.ok { s with afterFieldSep := b, escaping := true })) := by
          intro hquoted
          refine .stop (.ok ⟨hsound.escapes hs hquoted, hsound'.escapes ⟨hs.escaping, hs.newlining⟩ hquoted,
            rfl, ?_⟩)
          intro hb htrailing
          exact hstale hb htrailing
        split
        · split
          · split
            · exact hplain s.currentField true
            case isFalse hquoted =>
              split
              · exact hescapes (by simpa using hquoted)
              · split
                · exact hskip _
                · exact hplain s.currentField false
          · exact hplain s.currentField (!s.quoted)
        · split
          case isTrue hquoted =>
            split
            · exact hescapes hquoted
            · split
              · exact hskip _
              · exact hplain _ s.quoted
          case isFalse => exact hplain _ s.quoted

theorem loop_same (h : Same s t) (hs : s.Fresh) (xs : Bytes) :
    Agree SameCalls Same (s.loop xs) (t.loop xs) := by
  induction s, xs using loop.induct generalizing t with
  | case1 s => exact .ok h
  | case2 s c rest u hnext ih =>
    have hsame := iteration_same h hs c rest.head?
    rw [hnext] at hsame
    rw [loop, loop, hnext]
    generalize t.iteration c rest.head? = i at hsame
    cases hsame with
    | next hsound hfresh => exact ih hsound.same hfresh
  | case3 s c u hskip =>
    have hsame := iteration_same h hs c [].head?
    rw [hskip] at hsame
    rw [loop, loop, hskip]
    generalize t.iteration c [].head? = i at hsame
    cases hsame with
    | skip hsound _ => exact .ok hsound.same
  | case4 s c u d rest hskip ih =>
    have hsame := iteration_same h hs c (d :: rest).head?
    rw [hskip] at hsame
    rw [loop, loop, hskip]
    generalize t.iteration c (d :: rest).head? = i at hsame
    cases hsame with
    | skip hsound hfresh => exact ih hsound.same hfresh
  | case5 s c rest outcome hstop =>
    have hsame := iteration_same h hs c rest.head?
    rw [hstop] at hsame
    rw [loop, loop, hstop]
    generalize t.iteration c rest.head? = i at hsame
    cases hsame with
    | stop hagree => exact hagree

end Loop

section Resume

variable {s t : CSVParser}

theorem Fresh.resumeEscape (hs : s.Fresh) (buffer : Bytes) : s.resumeEscape buffer = (0, s) := by
  unfold CSVParser.resumeEscape
  rw [hs.escaping]
  rfl

theorem Fresh.resumeNewline (hs : s.Fresh) (i : Nat) (buffer : Bytes) :
    CSVParser.resumeNewline i s buffer = .ok (i, s) := by
  unfold CSVParser.resumeNewline
  rw [hs.newlining]
  rfl

theorem Fresh.execute (hs : s.Fresh) (buffer : Bytes) : s.execute buffer = s.loop buffer := by
  unfold CSVParser.execute
  rw [hs.resumeEscape]
  dsimp only
  rw [hs.resumeNewline]
  rfl

/-- Where the loop starts, and with which parser. -/
def resume (s : CSVParser) (buffer : Bytes) : Except (Error × CSVParser) (Nat × CSVParser) :=
  let (i, s) := s.resumeEscape buffer
  CSVParser.resumeNewline i s buffer

theorem execute_eq (s : CSVParser) (buffer : Bytes) :
    s.execute buffer = s.resume buffer >>= fun (i, s) => s.loop (buffer.drop i) := rfl

/-- Only the first byte of a buffer has a say in how the parser resumes. -/
theorem resume_cons (s : CSVParser) (c : UInt8) (rest : Bytes) : s.resume (c :: rest) = s.resume [c] := rfl

/-- Starts of the loop that are the same: behind one byte at most, and with nothing left to do. -/
structure SameStart (x y : Nat × CSVParser) : Prop where
  index : x.1 = y.1
  le : x.1 ≤ 1
  same : Same x.2 y.2
  fresh : x.2.Fresh

theorem Sound.escaped (h : s.Sound) (hescaping : s.escaping = true) (field : Bytes) (quoted : Bool) :
    Sound { s with currentField := field, quoted := quoted, escaping := false } where
  quoted _ := h.quoted (h.escaping hescaping)
  escaping hescaping := absurd hescaping (by simp)
  newlining hnewlining := by
    have hquoted := h.newlining hnewlining
    rw [h.escaping hescaping] at hquoted
    cases hquoted
  numCols := h.numCols
  fieldSep := h.fieldSep

/-- What the first `if` does behind an escape: it may take the first byte, and changes the field, the
quotes and its own flag. -/
theorem resumeEscape_eq (hescaping : s.escaping = true) (buffer : Bytes) :
    ∃ i ≤ 1, ∃ field quoted, ∀ b, resumeEscape { s with afterFieldSep := b } buffer =
      (i, { s with currentField := field, quoted := quoted, afterFieldSep := b, escaping := false }) := by
  by_cases hescape : s.escape = quote
  · by_cases hfirst : buffer.headD 0 = quote
    · refine ⟨1, Nat.le_refl 1, s.currentField ++ [quote], s.quoted, fun b => ?_⟩
      simp only [resumeEscape, hescaping, hescape, hfirst, if_true, push]
    · refine ⟨0, Nat.zero_le 1, s.currentField, false, fun b => ?_⟩
      simp only [resumeEscape, hescaping, hescape, hfirst, if_true, if_false]
  · by_cases hfirst : buffer.headD 0 = quote ∨ buffer.headD 0 = s.escape
    · refine ⟨1, Nat.le_refl 1, s.currentField ++ [buffer.headD 0], s.quoted, fun b => ?_⟩
      simp only [resumeEscape, hescaping, hescape, hfirst, if_true, if_false, push]
    · refine ⟨0, Nat.zero_le 1, s.currentField ++ [s.escape], s.quoted, fun b => ?_⟩
      simp only [resumeEscape, hescaping, hescape, hfirst, if_true, if_false, push]

/-- What the second `if` does behind a carriage return. -/
theorem resumeNewline_eq (hnewlining : s.newlining = true) (i : Nat) (buffer : Bytes) :
    CSVParser.resumeNewline i s buffer = match s.recordError with
      | some e => .error (e, s)
      | none => .ok (if buffer.head? = some lf then i + 1 else i,
          { s.recordEnd with afterRecordSep := true, newlining := false }) := by
  unfold CSVParser.resumeNewline
  rw [if_pos hnewlining, endRecord_eq]
  cases s.recordError with
  | some e => rfl
  | none => rfl

theorem resume_same (h : Same s t) (buffer : Bytes) :
    Agree SameCalls SameStart (s.resume buffer) (t.resume buffer) := by
  obtain ⟨hsound, hsound', hfields, hstale⟩ := id h
  generalize t.afterFieldSep = b at hfields hstale
  subst hfields
  unfold resume
  rcases Bool.eq_false_or_eq_true s.escaping with hescaping | hescaping
  · have hnewlining : s.newlining = false := by
      by_contra hnewlining
      have hquoted := hsound.newlining (by simpa using hnewlining)
      rw [hsound.escaping hescaping] at hquoted
      cases hquoted
    obtain ⟨i, hi, field, quoted, hresume⟩ := resumeEscape_eq hescaping buffer
    have hnone : ∀ b, CSVParser.resumeNewline i
        { s with currentField := field, quoted := quoted, afterFieldSep := b, escaping := false } buffer =
          .ok (i, { s with currentField := field, quoted := quoted, afterFieldSep := b,
                           escaping := false }) := by
      intro b
      apply Fresh.resumeNewline
      exact ⟨rfl, hnewlining⟩
    rw [show s.resumeEscape buffer = _ from hresume s.afterFieldSep, hresume b]
    dsimp only
    rw [hnone, hnone]
    exact .ok ⟨rfl, hi, ⟨hsound.escaped hescaping field quoted, hsound'.escaped hescaping field quoted,
      rfl, hstale⟩, ⟨rfl, hnewlining⟩⟩
  · have hnone : ∀ b, resumeEscape { s with afterFieldSep := b } buffer =
        (0, { s with afterFieldSep := b }) := by
      intro b
      unfold resumeEscape
      dsimp only
      rw [hescaping]
      rfl
    rw [show s.resumeEscape buffer = _ from hnone s.afterFieldSep, hnone b]
    dsimp only
    rcases Bool.eq_false_or_eq_true s.newlining with hnewlining | hnewlining
    · have hquoted := hsound.newlining hnewlining
      rw [resumeNewline_eq hnewlining, resumeNewline_eq (s := { s with afterFieldSep := b }) hnewlining]
      rcases recordError_same hsound hstale with ⟨e, f, he, hf⟩ | hsame
      · rw [he, hf]
        exact .error rfl
      · rw [hsame]
        cases hend : s.recordError with
        | some e => exact .error rfl
        | none =>
          have hrecord := sound_recordEnd hsound hquoted hend
          refine .ok ⟨rfl, ?_, ⟨hrecord s.afterFieldSep true false, hrecord b true false, rfl, ?_⟩,
            ⟨hescaping, rfl⟩⟩
          · dsimp only
            split
            · exact Nat.le_refl 1
            · exact Nat.zero_le 1
          · exact fun _ _ => ⟨rfl, rfl, .inl rfl⟩
    · have hfresh : ∀ b, CSVParser.resumeNewline 0 { s with afterFieldSep := b } buffer =
          .ok (0, { s with afterFieldSep := b }) :=
        fun b => Fresh.resumeNewline (s := { s with afterFieldSep := b }) ⟨hescaping, hnewlining⟩ 0 buffer
      rw [show CSVParser.resumeNewline 0 s buffer = _ from hfresh s.afterFieldSep, hfresh b]
      exact .ok ⟨rfl, Nat.zero_le 1, h, ⟨hescaping, hnewlining⟩⟩

theorem execute_same (h : Same s t) (buffer : Bytes) :
    Agree SameCalls Same (s.execute buffer) (t.execute buffer) := by
  rw [execute_eq, execute_eq]
  apply (resume_same h buffer).bind
  rintro ⟨i, u⟩ ⟨j, v⟩ ⟨hindex, -, hsame, hfresh⟩
  obtain rfl : i = j := hindex
  exact loop_same hsame hfresh _

end Resume

section Cut

variable {s : CSVParser}

/-- What an iteration does with a byte behind an escape character inside quotes. -/
def escaped (s : CSVParser) (d : UInt8) : Iteration :=
  if s.escape = quote then
    if d = quote then .skip ((s.push quote).setFlags false false)
    else .next ({ s with quoted := false }.setFlags false false)
  else if d = quote ∨ d = s.escape then .skip ((s.push d).setFlags false false)
  else .next ((s.push s.escape).setFlags false false)

/-- How an iteration for `c` depends on the byte ahead. -/
inductive Ahead (s : CSVParser) (c : UInt8) : Prop
  | next (u : CSVParser) : (∀ ahead, s.iteration c ahead = .next u) → Ahead s c
  | refused (e : Error) : (∀ ahead, s.iteration c ahead = .stop (.error (e, s))) → Ahead s c
  | newline : c = cr → s.quoted = false →
      s.iteration c none = .stop (.ok { s with newlining := true }) →
      (∀ d, s.iteration c (some d) = s.newline c (some d)) → Ahead s c
  | escape : s.quoted = true → s.iteration c none = .stop (.ok { s with escaping := true }) →
      (∀ d, s.iteration c (some d) = s.escaped d) → Ahead s c

theorem newline_lf (s : CSVParser) (ahead : Option UInt8) :
    s.newline lf ahead = match s.recordError with
      | some e => .stop (.error (e, s))
      | none => .next (s.recordEnd.setFlags false true) := by
  unfold newline
  rw [endRecord_eq]
  cases s.recordError with
  | some e => rfl
  | none => rfl

theorem ahead (s : CSVParser) (c : UInt8) : s.Ahead c := by
  by_cases hplain : c ≠ s.comma ∧ c ≠ lf ∧ c ≠ cr ∧ c ≠ quote ∧ c ≠ s.escape
  · exact .next _ fun ahead => by rw [iteration.eq_def, if_pos hplain]
  by_cases hcomma : c = s.comma
  · by_cases hquoted : s.quoted = true
    · exact .next _ fun ahead => by
        rw [iteration.eq_def, if_neg hplain, if_pos hcomma, if_neg (by simp [hquoted])]
    · exact .next _ fun ahead => by
        rw [iteration.eq_def, if_neg hplain, if_pos hcomma, if_pos (by simpa using hquoted)]
  by_cases hline : c = lf ∨ c = cr
  · by_cases hquoted : s.quoted = true
    · exact .next _ fun ahead => by
        rw [iteration.eq_def, if_neg hplain, if_neg hcomma, if_pos hline, if_neg (by simp [hquoted])]
    have hiteration : ∀ ahead, s.iteration c ahead =
        if c = cr ∧ ahead = none then .stop (.ok { s with newlining := true }) else s.newline c ahead := by
      intro ahead
      rw [iteration.eq_def, if_neg hplain, if_neg hcomma, if_pos hline, if_pos (by simpa using hquoted)]
    by_cases hcr : c = cr
    · refine .newline hcr (by simpa using hquoted) ?_ ?_
      · rw [hiteration, if_pos ⟨hcr, rfl⟩]
      · intro d
        rw [hiteration, if_neg (by simp)]
    · obtain rfl : c = lf := hline.resolve_right hcr
      have hnewline : ∀ ahead, s.iteration lf ahead = s.newline lf ahead := fun ahead => by
        rw [hiteration, if_neg (by simp [hcr])]
      simp only [newline_lf] at hnewline
      cases hend : s.recordError with
      | some e => exact .refused e fun ahead => by rw [hnewline, hend]
      | none => exact .next _ fun ahead => by rw [hnewline, hend]
  by_cases hquote : c = quote
  · by_cases hescape : s.escape = quote
    · by_cases hquoted : s.quoted = true
      · refine .escape hquoted ?_ ?_
        · rw [iteration.eq_def, if_neg hplain, if_neg hcomma, if_neg hline, if_pos hquote, if_pos hescape,
            if_neg (by simp [hquoted])]
        · intro d
          rw [iteration.eq_def, if_neg hplain, if_neg hcomma, if_neg hline, if_pos hquote, if_pos hescape,
            if_neg (by simp [hquoted]), escaped, if_pos hescape, hquote]
      · exact .next _ fun ahead => by
          rw [iteration.eq_def, if_neg hplain, if_neg hcomma, if_neg hline, if_pos hquote, if_pos hescape,
            if_pos (by simpa using hquoted)]
    · exact .next _ fun ahead => by
        rw [iteration.eq_def, if_neg hplain, if_neg hcomma, if_neg hline, if_pos hquote, if_neg hescape]
  · obtain rfl : c = s.escape := by
      by_contra hescape
      exact hplain ⟨hcomma, fun h => hline (.inl h), fun h => hline (.inr h), hquote, hescape⟩
    by_cases hquoted : s.quoted = true
    · refine .escape hquoted ?_ ?_
      · rw [iteration.eq_def, if_neg hplain, if_neg hcomma, if_neg hline, if_neg hquote, if_pos hquoted]
      · intro d
        rw [iteration.eq_def, if_neg hplain, if_neg hcomma, if_neg hline, if_neg hquote, if_pos hquoted,
          escaped, if_neg hquote]
    · exact .next _ fun ahead => by
        rw [iteration.eq_def, if_neg hplain, if_neg hcomma, if_neg hline, if_neg hquote, if_neg hquoted]

theorem setFlags_self {u : CSVParser} (hfield : u.afterFieldSep = false)
    (hrecord : u.afterRecordSep = false) : u.setFlags false false = u := by
  unfold setFlags
  cases u
  simp_all

/-- The code behind a cut does with the next byte what the iteration would have done. -/
theorem execute_escaping (h : s.Sound) (hs : s.Fresh) (hquoted : s.quoted = true) (d : UInt8)
    (rest : Bytes) : execute { s with escaping := true } (d :: rest) =
      match s.escaped d with
      | .next u => u.loop (d :: rest)
      | .skip u => u.loop rest
      | .stop outcome => outcome := by
  obtain ⟨hfield, hrecord⟩ := h.quoted hquoted
  have hself : ∀ field quoted,
      { s with currentField := field, quoted := quoted }.setFlags false false =
        { s with currentField := field, quoted := quoted, escaping := false } := by
    intro field quoted
    rw [setFlags_self (u := { s with currentField := field, quoted := quoted }) hfield hrecord,
      ← hs.escaping]
  have hresume : ∀ i field quoted,
      resumeEscape { s with escaping := true } (d :: rest) =
        (i, { s with currentField := field, quoted := quoted, escaping := false }) →
      execute { s with escaping := true } (d :: rest) =
        ({ s with currentField := field, quoted := quoted }.setFlags false false).loop
          ((d :: rest).drop i) := by
    intro i field quoted hstart
    rw [execute_eq, resume, hstart, hself]
    dsimp only
    rw [Fresh.resumeNewline (s := { s with currentField := field, quoted := quoted,
                                           escaping := false }) ⟨rfl, hs.newlining⟩]
    rfl
  unfold escaped
  by_cases hescape : s.escape = quote
  · by_cases hd : d = quote
    · rw [if_pos hescape, if_pos hd]
      apply hresume 1 (s.currentField ++ [quote]) s.quoted
      simp [resumeEscape, hescape, hd, push]
    · rw [if_pos hescape, if_neg hd]
      apply hresume 0 s.currentField false
      simp [resumeEscape, hescape, hd]
  · by_cases hd : d = quote ∨ d = s.escape
    · rw [if_neg hescape, if_pos hd]
      apply hresume 1 (s.currentField ++ [d]) s.quoted
      simp [resumeEscape, hescape, hd, push]
    · rw [if_neg hescape, if_neg hd]
      apply hresume 0 (s.currentField ++ [s.escape]) s.quoted
      simp [resumeEscape, hescape, hd, push]

/-- The code behind a cut ends the record as the iteration would have, but for the flag that it leaves
as it was. -/
theorem execute_newlining (h : s.Sound) (hs : s.Fresh) (hquoted : s.quoted = false) (d : UInt8)
    (rest : Bytes) : Agree SameCalls Same
      (match s.newline cr (some d) with
        | .next u => u.loop (d :: rest)
        | .skip u => u.loop rest
        | .stop outcome => outcome)
      (execute { s with newlining := true } (d :: rest)) := by
  rw [execute_eq, resume, resumeEscape, if_neg (by simp [hs.escaping])]
  dsimp only
  rw [resumeNewline_eq rfl]
  unfold newline
  rw [endRecord_eq, show recordError { s with newlining := true } = s.recordError from rfl]
  cases hend : s.recordError with
  | some e => exact .error rfl
  | none =>
    have hrecord := sound_recordEnd h hquoted hend
    let u := s.recordEnd.setFlags false true
    let v : CSVParser :=
      { recordEnd { s with newlining := true } with afterRecordSep := true, newlining := false }
    have hsame : Same u v := by
      refine ⟨hrecord false true s.newlining, hrecord s.afterFieldSep true false, ?_,
        fun _ _ => ⟨rfl, rfl, .inl rfl⟩⟩
      show v = { s.recordEnd with afterFieldSep := s.afterFieldSep, afterRecordSep := true,
                                  newlining := s.newlining }
      rw [hs.newlining]
      rfl
    have hfresh : u.Fresh := ⟨hs.escaping, hs.newlining⟩
    by_cases hd : d = lf
    · simp only [hd, and_self, if_true, List.head?_cons]
      exact loop_same hsame hfresh rest
    · simp only [hd, Option.some.injEq, and_false, if_false, List.head?_cons]
      exact loop_same hsame hfresh (d :: rest)

theorem loop_cut (h : s.Sound) (hs : s.Fresh) (c d : UInt8) (rest : Bytes) :
    Agree SameCalls Same (s.loop (c :: d :: rest)) (s.loop [c] >>= fun t => t.execute (d :: rest)) := by
  have hwhole : s.loop (c :: d :: rest) = match s.iteration c (some d) with
      | .next u => u.loop (d :: rest)
      | .skip u => u.loop rest
      | .stop outcome => outcome := by
    rw [loop]
    rfl
  have hone : s.loop [c] = match s.iteration c none with
      | .next u => .ok u
      | .skip u => .ok u
      | .stop outcome => outcome := by
    rw [loop]
    rfl
  have hsame := iteration_same h.same hs c (some d)
  rw [hwhole, hone]
  rcases s.ahead c with ⟨u, hnext⟩ | ⟨e, hrefused⟩ | ⟨rfl, hquoted, hnone, hsome⟩ |
    ⟨hquoted, hnone, hsome⟩
  · rw [hnext] at hsame ⊢
    rw [hnext]
    cases hsame with
    | next hsound hfresh =>
      show Agree SameCalls Same (u.loop (d :: rest)) (u.execute (d :: rest))
      rw [hfresh.execute]
      exact loop_same hsound.same hfresh _
  · rw [hrefused, hrefused]
    exact .error rfl
  · rw [hnone, hsome]
    exact execute_newlining h hs hquoted d rest
  · rw [hnone, hsome]
    show Agree SameCalls Same _ (execute { s with escaping := true } (d :: rest))
    rw [execute_escaping h hs hquoted]
    rw [hsome] at hsame
    generalize s.escaped d = i at hsame
    cases hsame with
    | next hsound hfresh => exact loop_same hsound.same hfresh _
    | skip hsound hfresh => exact loop_same hsound.same hfresh _
    | stop hagree => exact hagree

theorem execute_cut (h : s.Sound) (c : UInt8) {rest : Bytes} (hrest : rest ≠ []) :
    Agree SameCalls Same (s.execute (c :: rest)) (s.execute [c] >>= fun t => t.execute rest) := by
  rw [execute_eq, execute_eq, resume_cons, bind_assoc]
  apply (resume_same h.same [c]).bind
  rintro ⟨i, u⟩ ⟨j, v⟩ ⟨hindex, hle, hsame, hfresh⟩
  obtain rfl : i = j := hindex
  have hv : v.Fresh := hsame.fresh hfresh
  obtain ⟨d, rest, rfl⟩ := List.exists_cons_of_ne_nil hrest
  refine (loop_same hsame hfresh _).trans ⟨fun _ _ _ h h' => h.trans h'⟩ same_trans ?_
  obtain rfl | rfl : i = 0 ∨ i = 1 := by omega
  · exact loop_cut hsame.right hv c d rest
  · show Agree SameCalls Same (v.loop (d :: rest)) (v.execute (d :: rest))
    rw [hv.execute]
    exact loop_same hsame.right.same hv _

theorem resumable : Resumable SameCalls Same execute where
  symmE := ⟨fun _ _ h => h.symm⟩
  transE := ⟨fun _ _ _ h h' => h.trans h'⟩
  symm := same_symm
  trans := same_trans
  respects h _ := execute_same h _
  cut h hrest := execute_cut h.left _ hrest

end Cut

/-- `finish` says the same of parsers that are the same. -/
theorem finish_same {s t : CSVParser} (h : Same s t) : Agree SameCalls Same s.finish t.finish := by
  have hquoted : t.quoted = s.quoted := by rw [h.fields]
  have hnewlining : t.newlining = s.newlining := by rw [h.fields]
  have hrecord : t.afterRecordSep = s.afterRecordSep := by rw [h.fields]
  have hcalls : s.calls = t.calls := by rw [h.fields]
  unfold finish
  rw [hquoted, hnewlining, hrecord]
  split
  · exact .error hcalls
  · split
    · exact execute_same h []
    · split
      · exact execute_same h [lf]
      · exact .ok h

theorem sound_new (escape sep : UInt8) (hasTrailingComma : Bool) :
    (new escape sep hasTrailingComma).Sound := by
  constructor <;> simp [new]

theorem calls_of_agree {x y : Outcome} (h : Agree SameCalls Same x y) :
    x.calls = y.calls ∧ x.isOk = y.isOk := by
  cases h with
  | ok h =>
    refine ⟨?_, rfl⟩
    show _ = _
    rw [h.fields]
    rfl
  | error h => exact ⟨h, rfl⟩

theorem parse_single (s : CSVParser) (buffer : Bytes) :
    s.parse [buffer] = s.execute buffer >>= finish := by
  unfold parse
  rw [List.foldlM_cons, bind_assoc]
  rfl

/-- The parser ends the same on a text and on its cuts. -/
theorem parse_agree {s : CSVParser} (hs : s.Sound) (hfresh : s.Fresh) {buffers : List Bytes}
    (hbuffers : ∀ buffer ∈ buffers, buffer ≠ []) :
    Agree SameCalls Same (s.parse [buffers.flatten]) (s.parse buffers) := by
  have hexecute : Agree SameCalls Same (s.execute buffers.flatten) (buffers.foldlM execute s) := by
    by_cases hne : buffers = []
    · subst hne
      rw [List.flatten_nil, hfresh.execute]
      exact .ok hs.same
    · exact resumable.chunks hs.same hne hbuffers
  rw [parse_single]
  exact hexecute.bind fun _ _ => finish_same

/-- The calls of `on_field`, and whether the text is accepted, do not depend on the cuts. -/
theorem parse_buffers (escape sep : UInt8) (hasTrailingComma : Bool) {buffers : List Bytes}
    (hbuffers : ∀ buffer ∈ buffers, buffer ≠ []) :
    let whole := (new escape sep hasTrailingComma).parse [buffers.flatten]
    let cut := (new escape sep hasTrailingComma).parse buffers
    whole.calls = cut.calls ∧ whole.isOk = cut.isOk :=
  calls_of_agree (parse_agree (sound_new escape sep hasTrailingComma) ⟨rfl, rfl⟩ hbuffers)

theorem parse_buffers_crlf :
    let whole := (new 34 44 false).parse [[34, 97, 34, 34, 98, 34, 13, 10, 99]]
    let cut := (new 34 44 false).parse [[34, 97, 34], [34, 98, 34], [13], [10, 99]]
    whole.calls = cut.calls ∧ whole.isOk = cut.isOk :=
  parse_buffers 34 44 false
    (by decide : ∀ buffer ∈ ([[34, 97, 34], [34, 98, 34], [13], [10, 99]] : List Bytes), buffer ≠ [])

end JoinOptimizer.CSVParser
