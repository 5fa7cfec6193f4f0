/-
  Mnemion/PassageTime.lean
  ========================
  **When the passages of a memory were last changed** (`service/passage_time.py`): a text
  is cut into passages, each dated by its own label, its section's or the revision's;
  `capture` stores the dates and keeps the earlier ones of unchanged passages.

  The digits of other scripts and the texts `fromisoformat` takes beside its extended
  format are the language's own and stand as parameters; nothing is assumed of them.
-/
import Mnemion.PythonDates

namespace Mnemion.PassageTime

open PythonText JsonText

def MAX_SEGMENTS : Nat := 2048

/-! ### Times -/

/-- Microseconds of UTC since the day before 0001-01-01. -/
abbrev Instant := Nat

/-- The years 1 to 9999. -/
def onCalendar (instant : Nat) : Prop :=
  1 ≤ instant / 86400000000 ∧ instant / 86400000000 ≤ MAX_ORDINAL

instance (instant : Nat) : Decidable (onCalendar instant) := instDecidableAnd

/-- A `datetime` with a time zone: its instant and its offset from UTC in seconds. -/
structure Datetime where
  instant : Instant
  offset : Int
  clock : Nat
  ahead : (clock : Int) = instant + offset * 1000000
  instantValid : onCalendar instant
  clockValid : onCalendar clock
  offsetValid : offset.natAbs < 86400

def Datetime.isoformat (date : Datetime) : List Char := isoformatAt date.clock date.offset

/-- `date.astimezone(timezone.utc)`, none for an `OverflowError`. -/
theorem zero_offset : Int.natAbs 0 < 86400 := by decide

def utc (instant : Int) : Option Datetime :=
  if h : 0 ≤ instant ∧ onCalendar instant.toNat then
    some ⟨instant.toNat, 0, instant.toNat, by simp, h.2, h.2, zero_offset⟩
  else none

/-- What the language's tables and `fromisoformat` say beyond what is written out here:
    the clock and the offset of an aware result. -/
structure Library where
  isDigit : Char → Bool
  fromisoformat : List Nat → Option (Int × Int)

def codes (text : List Char) : List Nat := text.map Char.toNat

/-- The text of code points that are all characters. -/
def characters (codes : List Nat) : Option (List Char) :=
  let text := codes.map Char.ofNat
  if text.map Char.toNat = codes then some text else none

/-- `fromisoformat`, for a result with a time zone. -/
def Library.parse (library : Library) (codes : List Nat) : Option (Int × Int) :=
  match (characters codes).bind readIso with
  | some (clock, offset) => some (clock, offset)
  | none => library.fromisoformat codes

/-- `timestamp` -/
def Library.timestamp (library : Library) : Json → Option Datetime
  | .str codes =>
    if 64 < codes.length then none
    else (library.parse codes).bind fun read => utc (read.1 - read.2 * 1000000)
  | _ => none

inductive Basis where
  | recordedAt
  | sourceModifiedAt
  | sourceTimestamp
  | sourceDate
deriving DecidableEq, Repr

def Basis.text : Basis → List Char
  | .recordedAt => "recorded_at".toList
  | .sourceModifiedAt => "source_modified_at".toList
  | .sourceTimestamp => "source_timestamp".toList
  | .sourceDate => "source_date".toList

/-- The place of a basis in the order of their texts. -/
def Basis.order : Basis → Nat
  | .recordedAt => 0
  | .sourceDate => 1
  | .sourceModifiedAt => 2
  | .sourceTimestamp => 3

def Basis.all : List Basis := [.recordedAt, .sourceModifiedAt, .sourceTimestamp, .sourceDate]

/-- A revision's metadata, as `dict.get` reads it. -/
abbrev Metadata := List Char → Option Json

/-- `source_time` -/
def Library.sourceTime (library : Library) (metadata : Metadata) (recordedAt : Datetime) :
    Datetime × Basis :=
  match (metadata "source_modified_at".toList).bind library.timestamp with
  | some date =>
    if date.instant ≤ recordedAt.instant then (date, .sourceModifiedAt)
    else (recordedAt, .recordedAt)
  | none => (recordedAt, .recordedAt)

/-! ### The date a line begins with -/

def strip (text : List Char) : List Char :=
  ((text.dropWhile pySpace).reverse.dropWhile pySpace).reverse

/-- `re.sub(r"^(?:#{1,6}\s+|[-*]\s+|\|\s*)", "", line.strip())` -/
def withoutMark (raw : List Char) : List Char :=
  let hashes := (raw.takeWhile (· = '#')).length
  let rest := raw.drop hashes
  if 1 ≤ hashes ∧ hashes ≤ 6 ∧ rest.head?.any pySpace then rest.dropWhile pySpace
  else
    match raw with
    | c :: rest =>
      if (c = '-' ∨ c = '*') ∧ rest.head?.any pySpace then rest.dropWhile pySpace
      else if c = '|' then rest.dropWhile pySpace
      else raw
    | [] => raw

/-- Exactly `n` digits `\d`, and the rest. -/
def Library.digits (library : Library) (n : Nat) (text : List Char) : Option (List Char × List Char) :=
  if (text.take n).length = n ∧ (text.take n).all library.isDigit = true then
    some (text.take n, text.drop n)
  else none

/-- `\d{2}:\d{2}` -/
def Library.pair (library : Library) (text : List Char) : Option (List Char × List Char) := do
  let (first, text) ← library.digits 2 text
  let text ← readMark ':' text
  let (second, text) ← library.digits 2 text
  return (first ++ ':' :: second, text)

/-- What `(?:\.\d{1,6})?` matches behind a clock, the longest first. -/
def Library.fractions (library : Library) (clock : List Char) : List Char → List (List Char × List Char)
  | '.' :: text =>
    let run := ((text.takeWhile library.isDigit).take 6).length
    ((List.range run).map fun i =>
      (clock ++ '.' :: text.take (run - i), text.drop (run - i))) ++ [(clock, '.' :: text)]
  | text => [(clock, text)]

/-- What `\d{2}:\d{2}(?::\d{2}(?:\.\d{1,6})?)?` matches, in the order it is tried. -/
def Library.clocks (library : Library) (text : List Char) : List (List Char × List Char) :=
  match library.pair text with
  | none => []
  | some (clock, rest) =>
    (match (readMark ':' rest).bind (library.digits 2) with
      | none => []
      | some (second, rest) => library.fractions (clock ++ ':' :: second) rest) ++ [(clock, rest)]

/-- What `(Z|[+-]\d{2}:\d{2})?` matches, in the order it is tried. -/
def Library.zones (library : Library) (text : List Char) : List (List Char × List Char) :=
  (match text with
    | 'Z' :: rest => [(['Z'], rest)]
    | sign :: rest =>
      if sign = '+' ∨ sign = '-' then
        match library.pair rest with
        | none => []
        | some (zone, rest) => [(sign :: zone, rest)]
      else []
    | [] => []) ++ [([], text)]

/-- `\d{4}-\d{2}-\d{2}` -/
def Library.date (library : Library) (text : List Char) : Option (List Char × List Char) := do
  let (year, text) ← library.digits 4 text
  let text ← readMark '-' text
  let (month, text) ← library.digits 2 text
  let text ← readMark '-' text
  let (day, text) ← library.digits 2 text
  return (year ++ '-' :: (month ++ '-' :: day), text)

/-- The groups of `_DATE.match`; a group that did not take part is empty. -/
def Library.matchDate (library : Library) (text : List Char) :
    Option (List Char × List Char × List Char) := do
  let (date, rest) ← library.date text
  let timed :=
    match rest with
    | c :: text =>
      if c = ' ' ∨ c = 'T' then
        (library.clocks text).flatMap fun clock =>
          (library.zones clock.2).map fun zone => (clock.1, zone.1, zone.2)
      else []
    | [] => []
  let (clock, zone, _) ← (timed ++ [([], [], rest)]).find? fun tried =>
    !tried.2.2.head?.any library.isDigit
  return (date, clock, zone)

/-- `_leading_date` -/
def Library.leadingDate (library : Library) (line : List Char) (ceiling : Datetime) :
    Option (Datetime × Basis) := do
  let value := (withoutMark (strip line)).dropWhile (· = '[')
  let (date, clock, zone) ← library.matchDate value
  -- a clock without an offset leaves only the calendar day
  let precise := clock ≠ [] ∧ zone ≠ []
  let text := if precise then date ++ 'T' :: (clock ++ zone) else date ++ "T00:00:00Z".toList
  let parsed ← library.timestamp (.str (codes text))
  if ceiling.instant < parsed.instant then none
  else return (parsed, if precise then .sourceTimestamp else .sourceDate)

/-! ### Passages -/

structure Passage where
  start : Nat
  stop : Nat
  declaredAt : Option Datetime
  basis : Basis

/-- `str.splitlines(keepends=True)` -/
def splitlinesKeep : List Char → List (List Char)
  | [] => []
  | '\r' :: '\n' :: rest => ['\r', '\n'] :: splitlinesKeep rest
  | c :: rest =>
    if lineBreak c then [c] :: splitlinesKeep rest
    else match splitlinesKeep rest with
      | [] => [[c]]
      | line :: lines => (c :: line) :: lines

/-- `re.match(r"^(`{3,}|~{3,})", raw)`: the symbol and how often it stands. -/
def fenceMarker (raw : List Char) : Option (Char × Nat) :=
  match raw with
  | [] => none
  | c :: _ =>
    let run := (raw.takeWhile (· = c)).length
    if (c = '\x60' ∨ c = '~') ∧ 3 ≤ run then some (c, run) else none

/-- `re.match(r"^(#{1,6})\s+", raw)`: the level of the heading. -/
def headingLevel (raw : List Char) : Option Nat :=
  let hashes := (raw.takeWhile (· = '#')).length
  if 1 ≤ hashes ∧ hashes ≤ 6 ∧ (raw.drop hashes).head?.any pySpace then some hashes else none

/-- The length of a match of `\(\d{1,3}\)\s+` at the start of a text. -/
def Library.numberedMatch (library : Library) : List Char → Option Nat
  | '(' :: text =>
    let digits := (text.takeWhile library.isDigit).length
    match text.drop digits with
    | ')' :: rest =>
      let spaces := (rest.takeWhile pySpace).length
      if 1 ≤ digits ∧ digits ≤ 3 ∧ 1 ≤ spaces then some (digits + 2 + spaces) else none
    | _ => none
  | _ => none

/-- `_NUMBERED.finditer`: the starts from `position` on.  `behindSpace` says that nothing
    or a space stands before it, `skip` how much a match still covers. -/
def Library.numbered (library : Library) (position : Nat) (behindSpace : Bool) (skip : Nat) :
    List Char → List Nat
  | [] => []
  | c :: rest =>
    match skip with
    | skip + 1 => library.numbered (position + 1) (pySpace c) skip rest
    | 0 =>
      match if behindSpace then library.numberedMatch (c :: rest) else none with
      | some length => position :: library.numbered (position + 1) (pySpace c) (length - 1) rest
      | none => library.numbered (position + 1) (pySpace c) 0 rest

/-- The variables that the loop over the lines keeps. -/
structure Section where
  date : Option Datetime
  basis : Basis
  level : Nat
  fence : Option (Char × Nat)

def Section.start : Section := ⟨none, .recordedAt, 0, none⟩

/-- A line's part in the sections: whether it lies in code, its date, and what it
    changes for the lines behind it. -/
def Library.line (library : Library) (ceiling : Datetime) (state : Section) (line : List Char) :
    Section × Bool × Option Datetime × Basis :=
  let raw := strip line
  let marker := fenceMarker raw
  let insideCode := state.fence.isSome || marker.isSome
  let fence :=
    match marker, state.fence with
    | none, fence => fence
    | some marker, none => some marker
    | some (symbol, run), some fence =>
      if symbol = fence.1 ∧ fence.2 ≤ run then none else some fence
  let heading := if insideCode then none else headingLevel raw
  let dated := if insideCode then none else library.leadingDate line ceiling
  let state : Section :=
    match heading, dated with
    | some level, some (date, basis) => ⟨some date, basis, level, fence⟩
    | some level, none =>
      if state.level ≠ 0 ∧ level ≤ state.level then ⟨none, .recordedAt, 0, fence⟩
      else { state with fence := fence }
    | none, _ => { state with fence := fence }
  match dated with
  | some (date, basis) => (state, insideCode, some date, basis)
  | none => (state, insideCode, state.date, state.basis)

/-- The bounds without the white space at both ends, none when nothing else is there. -/
def trimmed (line : List Char) (start stop : Nat) : Option (Nat × Nat) :=
  let piece := (line.drop start).take (stop - start)
  let lead := (piece.takeWhile pySpace).length
  let trail := (piece.reverse.takeWhile pySpace).length
  if lead < piece.length then some (start + lead, stop - trail) else none

/-- `range(begin, finish, 2000)`, with the end of each chunk. -/
def chunks (start finish : Nat) : List (Nat × Nat) :=
  (List.range ((finish - start + 1999) / 2000)).map fun i =>
    (start + i * 2000, min (start + i * 2000 + 2000) finish)

/-- The cuts of a line into its numbered statements. -/
def Library.cuts (library : Library) (insideCode : Bool) (line : List Char) : List Nat :=
  [0] ++ (if insideCode then [] else (library.numbered 0 true 0 line).filter (· ≠ 0)) ++ [line.length]

/-- The bounds of a line's passages. -/
def Library.pieces (library : Library) (insideCode : Bool) (line : List Char) : List (Nat × Nat) :=
  let cuts := library.cuts insideCode line
  ((cuts.zip cuts.tail).flatMap fun cut => chunks cut.1 cut.2).filterMap fun chunk =>
    trimmed line chunk.1 chunk.2

/-- The loop over the lines, from an offset on. -/
def Library.parts (library : Library) (ceiling : Datetime) (offset : Nat) (state : Section) :
    List (List Char) → List Passage
  | [] => []
  | line :: lines =>
    let (state, insideCode, date, basis) := library.line ceiling state line
    (library.pieces insideCode line).map (fun piece =>
      ⟨offset + piece.1, offset + piece.2, date, basis⟩) ++
      library.parts ceiling (offset + line.length) state lines

/-- `passages`; the loop gives up as soon as it has too many, and it only ever adds. -/
def Library.passages (library : Library) (text : List Char) (ceiling : Datetime) : List Passage :=
  let whole : Passage := ⟨0, text.length, none, .recordedAt⟩
  let result := library.parts ceiling 0 .start (splitlinesKeep text)
  if MAX_SEGMENTS < result.length then [whole]
  else if result = [] then [whole] else result

/-! ### Stored times -/

/-- A row that `_stored` accepts. -/
structure Row where
  start : Nat
  stop : Nat
  date : Datetime
  basis : Basis

/-- `dict.get`, on the pairs of an object. -/
def get (key : String) : Json → Option Json
  | .obj pairs => (pairs.find? fun pair => decide (pair.1 = codes key.toList)).map (·.2)
  | _ => none

/-- A row of `segments` behind the one that ends at `previous`. -/
def Library.row (library : Library) (length previous : Nat) : Json → Option Row
  | .arr [.int start, .int stop, date, .str basis] => do
    let basis ← Basis.all.find? fun known => decide (basis = codes known.text)
    let date ← library.timestamp date
    if (previous : Int) ≤ start ∧ start < stop ∧ stop ≤ length then
      return ⟨start.toNat, stop.toNat, date, basis⟩
    else none
  | _ => none

/-- The loop of `_stored`; one bad row spoils all. -/
def Library.rows (library : Library) (length previous : Nat) : List Json → Option (List Row)
  | [] => some []
  | json :: rest => do
    let row ← library.row length previous json
    let rows ← library.rows length row.stop rest
    return row :: rows

/-- `_stored` -/
def Library.stored (library : Library) (value : Json) (length : Nat) : List Row :=
  match get "version" value, get "segments" value with
  | some (.int 1), some (.arr rows) =>
    if MAX_SEGMENTS < rows.length then [] else (library.rows length 0 rows).getD []
  | _, _ => []

/-- `(date, basis) <= (date, basis)` -/
def Row.le (a b : Row) : Bool :=
  a.date.instant < b.date.instant ||
    (a.date.instant = b.date.instant && a.basis.order ≤ b.basis.order)

/-- `max(matches)` of the rows that contain a passage. -/
def latest : List Row → Option Row
  | [] => none
  | row :: rows => some (rows.foldl (fun best row => if row.le best then best else row) row)

/-- A passage with the time it has. -/
structure Timed where
  part : Passage
  date : Datetime
  basis : Basis

/-- The time of one passage; `stored` begins with the first row that ends behind it. -/
def timeOf (recordedAt : Datetime) (fallback : Datetime × Basis) (stored : List Row)
    (part : Passage) : Timed :=
  let found := (stored.takeWhile fun row => row.start < part.stop).filter fun row =>
    row.start ≤ part.start && part.stop ≤ row.stop && row.date.instant ≤ recordedAt.instant
  match latest found, part.declaredAt with
  | some row, _ => ⟨part, row.date, row.basis⟩
  | none, some date => ⟨part, date, part.basis⟩
  | none, none => ⟨part, fallback.1, fallback.2⟩

/-- The loop of `times`; the cursor only moves on. -/
def timesFrom (recordedAt : Datetime) (fallback : Datetime × Basis) (stored : List Row) :
    List Passage → List Timed
  | [] => []
  | part :: parts =>
    let stored := stored.dropWhile fun row => row.stop ≤ part.start
    timeOf recordedAt fallback stored part :: timesFrom recordedAt fallback stored parts

/-- `times` -/
def Library.times (library : Library) (text : List Char) (value : Json) (metadata : Metadata)
    (recordedAt : Datetime) : List Timed :=
  timesFrom recordedAt (library.sourceTime metadata recordedAt) (library.stored value text.length)
    (library.passages text recordedAt)

/-! ### Capturing -/

/-- A revision of a memory, as `capture` reads the previous one. -/
structure Revision where
  content : List Char
  metadata : Metadata
  passageTimes : Json
  recordedAt : Datetime

def slice (text : List Char) (start stop : Nat) : List Char := (text.drop start).take (stop - start)

/-- `" ".join(text.split())` -/
def normalised (text : List Char) : List Char := List.intercalate [' '] (words text)

/-- The normalised content of a passage. -/
def content (text : List Char) (part : Passage) : List Char :=
  normalised (slice text part.start part.stop)

section Capture

variable {Digest : Type} [DecidableEq Digest]

/-- The earliest time of each fingerprint so far. -/
abbrev Prior (Digest : Type) := List (Digest × Datetime × Basis)

def Prior.find (prior : Prior Digest) (digest : Digest) : Option (Datetime × Basis) :=
  (prior.find? fun entry => decide (entry.1 = digest)).map (·.2)

/-- One round over the previous revision; `sha256` is of the normalised text. -/
def Prior.add (sha256 : List Char → Digest) (text : List Char) (prior : Prior Digest)
    (timed : Timed) : Prior Digest :=
  let digest := sha256 (content text timed.part)
  match prior.find digest with
  | none => prior ++ [(digest, timed.date, timed.basis)]
  | some old =>
    if timed.date.instant < old.1.instant then
      prior.map fun entry => if entry.1 = digest then (digest, timed.date, timed.basis) else entry
    else prior

/-- What `capture` takes from the previous revision. -/
structure Retained (Digest : Type) where
  prior : Prior Digest
  declared : List Instant

def Library.retained (library : Library) (sha256 : List Char → Digest) :
    Option Revision → Retained Digest
  | none => ⟨[], []⟩
  | some previous =>
    let before := library.times previous.content previous.passageTimes previous.metadata
      previous.recordedAt
    ⟨before.foldl (Prior.add sha256 previous.content) [],
      before.filterMap fun timed => timed.part.declaredAt.map (·.instant)⟩

/-- The time that `capture` gives one passage. -/
def Retained.captured (retained : Retained Digest) (sha256 : List Char → Digest) (text : List Char)
    (source : Datetime × Basis) (timed : Timed) : Timed :=
  match retained.prior.find (sha256 (content text timed.part)) with
  | some old =>
    if old.1.instant ≤ timed.date.instant then { timed with date := old.1, basis := old.2 }
    else if timed.part.declaredAt.any fun date => retained.declared.contains date.instant then
      { timed with date := source.1, basis := source.2 }
    else timed
  | none =>
    if timed.part.declaredAt.any fun date => retained.declared.contains date.instant then
      { timed with date := source.1, basis := source.2 }
    else timed

/-- The passages of a text with the times that `capture` computes. -/
def Library.observed (library : Library) (sha256 : List Char → Digest) (text : List Char)
    (metadata : Metadata) (recordedAt : Datetime) (previous : Option Revision) : List Timed :=
  (library.times text .null metadata recordedAt).map
    ((library.retained sha256 previous).captured sha256 text (library.sourceTime metadata recordedAt))

/-- A row of `output`: bounds, the text of the date, and the basis. -/
structure Segment where
  start : Nat
  stop : Nat
  date : List Char
  basis : Basis
deriving DecidableEq

/-- One round of the loop that writes `output`. -/
def addSegment (output : List Segment) (timed : Timed) : List Segment :=
  let row : Segment := ⟨timed.part.start, timed.part.stop, timed.date.isoformat, timed.basis⟩
  match output.getLast? with
  | some last =>
    if last.date = row.date ∧ last.basis = row.basis then
      output.dropLast ++ [{ last with stop := row.stop }]
    else output ++ [row]
  | none => output ++ [row]

def Segment.json (segment : Segment) : Json :=
  .arr [.int segment.start, .int segment.stop, .str (codes segment.date),
    .str (codes segment.basis.text)]

/-- `capture` -/
def Library.capture (library : Library) (sha256 : List Char → Digest) (text : List Char)
    (metadata : Metadata) (recordedAt : Datetime) (previous : Option Revision) : Json :=
  let output := (library.observed sha256 text metadata recordedAt previous).foldl addSegment []
  .obj [(codes "version".toList, .int 1), (codes "segments".toList, .arr (output.map Segment.json))]

end Capture

end Mnemion.PassageTime
