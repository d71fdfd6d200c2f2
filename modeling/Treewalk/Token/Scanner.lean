import Treewalk.Token.Scan

/-!
# Scanning by bytes

A scanner goes over the bytes of a text with two positions: where the current lexeme starts, and
which byte is in front. Asked for the next item (`Scanner.next`) it reads one lexeme after the
other until one of them is an item, which blanks and comments are not. Behind the text it sees
the byte zero. At the end it gives an end of file and goes one further, where it has no more to
give.

A byte that is not there, a text that is cut inside a character and a turn that gets nowhere
halt a scanner for good (`Scanner.Halt`).
-/

namespace Treewalk

structure Scanner where
  source : String
  /-- The first byte of the current lexeme. -/
  start : Nat
  /-- The byte in front. -/
  current : Nat
  /-- The line, from 1 on. -/
  line : Nat
  /-- What the current lexeme is, as soon as it is known to be a token. -/
  pending : Option Kind

namespace Scanner

/-- What stops a scanner within a lexeme. -/
inductive Halt where
  /-- A fault in the text. The scanner goes on behind it. -/
  | fault (d : Diagnostic)
  /-- There is no byte where one was read. -/
  | outside
  /-- A text was cut inside a character. -/
  | cut
  /-- A turn did not move on, so no later one would. -/
  | stuck

abbrev Reader := EStateM Halt Scanner

def ofText (source : String) : Scanner where
  source := source
  start := 0
  current := 0
  line := 1
  pending := none

/-- How many bytes the text has. -/
def size (s : Scanner) : Nat :=
  s.source.utf8ByteSize

def byte? (s : Scanner) (i : Nat) : Option UInt8 :=
  if h : (⟨i⟩ : String.Pos.Raw) < s.source.rawEndPos then some (s.source.getUTF8Byte ⟨i⟩ h)
  else none

/-! ## Looking at bytes and going past them -/

def atEnd : Reader Bool := fun s =>
  .ok (decide (s.size ≤ s.current)) s

/-- Goes past the byte in front, which has to be there. -/
def advance : Reader UInt8 := fun s =>
  match s.byte? s.current with
  | some b => .ok b { s with current := s.current + 1 }
  | none => .error .outside s

/-- The byte in front, or zero behind the text. -/
def peek : Reader UInt8 := fun s =>
  .ok ((s.byte? s.current).getD 0) s

/-- The byte after the one in front, or zero behind the text. -/
def peekNext : Reader UInt8 := fun s =>
  .ok ((s.byte? (s.current + 1)).getD 0) s

/-- Goes past the byte in front if it is this one. -/
def accept (b : UInt8) : Reader Bool := do
  if !(← atEnd) && (← peek) == b then
    let _ ← advance
    pure true
  else pure false

def emit (kind : Kind) : Reader Unit := fun s =>
  .ok () { s with pending := some kind }

def fail (f : LexicalFault) : Reader Unit := fun s =>
  .error (.fault (.lexical s.line f)) s

def countLine : Reader Unit := fun s =>
  .ok () { s with line := s.line + 1 }

/-- The text between two positions. Neither may be inside a character. -/
def slice (i j : Nat) : Reader String := fun s =>
  if i ≤ j ∧ String.Pos.Raw.isValid s.source ⟨i⟩ ∧ String.Pos.Raw.isValid s.source ⟨j⟩ then
    .ok (String.Pos.Raw.extract s.source ⟨i⟩ ⟨j⟩) s
  else .error .cut s

/-- The text of the current lexeme. -/
def lexeme : Reader String := fun s =>
  slice s.start s.current s

theorem lt_size_of_byte? {s : Scanner} {i : Nat} {b : UInt8} (h : s.byte? i = some b) :
    i < s.size := by
  unfold byte? at h
  split at h
  · assumption
  · cases h

theorem advance_lt {s s' : Scanner} {b : UInt8} (h : advance s = .ok b s') :
    s'.size - s'.current < s.size - s.current := by
  unfold advance at h
  split at h
  · rename_i hb
    cases h
    have hlt := lt_size_of_byte? hb
    show s.size - (s.current + 1) < _
    omega
  · cases h

/-- Goes on as long as the byte in front passes the test. -/
def skipWhile (q : UInt8 → Bool) : Reader Unit := fun s =>
  if q ((s.byte? s.current).getD 0) then
    match _ : advance s with
    | .ok _ s' => skipWhile q s'
    | .error e s' => .error e s'
  else .ok () s
termination_by s => s.size - s.current
decreasing_by exact advance_lt ‹_›

/-! ## Lexemes -/

/-- A test of characters, for bytes that stand for themselves. -/
def ascii (q : Char → Bool) (b : UInt8) : Bool :=
  q (Char.ofUInt8 b)

/-- An operator that is longer if `=` follows. -/
def orEqual (short long : Symbol) : Reader Unit := do
  if ← accept '='.toUInt8 then emit (.symbol long) else emit (.symbol short)

/-- Goes on to the next line break, or to the end of the text. -/
def skipLine : Reader Unit := fun s =>
  let breaks (k : Nat) : Bool := s.byte? (s.current + k) == some '\n'.toUInt8
  if s.size < s.current then .error .outside s
  else
    match (List.range (s.size - s.current)).find? breaks with
    | some k => .ok () { s with current := s.current + k }
    | none => .ok () { s with current := s.size }

/-- A comment runs up to the line break, which is left for the line count. -/
def slash : Reader Unit := do
  if ← accept '/'.toUInt8 then skipLine else emit (.symbol .slash)

/-- Goes on to the next quote, counting lines. -/
def skipString : Reader Unit := fun s =>
  if s.current < s.size ∧ (s.byte? s.current).getD 0 ≠ '"'.toUInt8 then
    match _ : advance s with
    | .ok b s' =>
      skipString { s' with line := if b == '\n'.toUInt8 then s'.line + 1 else s'.line }
    | .error e s' => .error e s'
  else .ok () s
termination_by s => s.size - s.current
decreasing_by
  rename_i hadvance
  have hlt := advance_lt hadvance
  exact hlt

/-- A string, without the quotes as its value. -/
def string : Reader Unit := do
  skipString
  if ← atEnd then fail .unterminatedString
  else
    let _ ← advance
    let s ← get
    emit (.string (← slice (s.start + 1) (s.current - 1)))

/-- The double nearest to a numeral. -/
def valueOf (text : List Char) : Float :=
  Piece.numeral (text.takeWhile Char.isDigit) ((text.dropWhile Char.isDigit).drop 1)

/-- Digits, then a point if a digit follows it, and more digits. -/
def number : Reader Unit := do
  skipWhile (ascii Char.isDigit)
  if (← peek) == '.'.toUInt8 && ascii Char.isDigit (← peekNext) then
    let _ ← advance
    skipWhile (ascii Char.isDigit)
  emit (.number (valueOf (← lexeme).toList))

/-- A name, or a reserved word. -/
def word : Reader Unit := do
  skipWhile (ascii Piece.inWord)
  emit (match Symbol.ofWord? (← lexeme) with
    | some s => .symbol s
    | none => .identifier)

/-- A character that starts no token. All its bytes are passed. -/
def unexpected : Reader Unit := fun s =>
  if String.Pos.Raw.isValid s.source ⟨s.start⟩ then
    let width := ((String.Pos.Raw.get? s.source ⟨s.start⟩).map Char.utf8Size).getD 1
    fail .unexpectedCharacter { s with current := s.start + width }
  else .error .cut s

/-- The lexeme that starts with a byte, which was read as a character. -/
def lexemeFrom (c : Char) : Reader Unit :=
  match c with
  | '(' => emit (.symbol .leftParen)
  | ')' => emit (.symbol .rightParen)
  | '\x7b' => emit (.symbol .leftBrace)
  | '\x7d' => emit (.symbol .rightBrace)
  | ',' => emit (.symbol .comma)
  | '.' => emit (.symbol .dot)
  | '-' => emit (.symbol .minus)
  | '+' => emit (.symbol .plus)
  | ';' => emit (.symbol .semicolon)
  | '*' => emit (.symbol .star)
  | '!' => orEqual .bang .bangEqual
  | '=' => orEqual .equal .equalEqual
  | '<' => orEqual .less .lessEqual
  | '>' => orEqual .greater .greaterEqual
  | ' ' | '\r' | '\t' => pure ()
  | '\n' => countLine
  | '/' => slash
  | '"' => string
  | _ =>
    if c.isDigit then number
    else if Piece.startsWord c then word
    else unexpected

/-! ## Items -/

/-- One lexeme, and the item that it is, if it is one. -/
def turn : Reader (Option Item) := fun s =>
  let read : Reader Unit := do lexemeFrom (Char.ofUInt8 (← advance))
  match read { s with start := s.current, pending := none } with
  | .error (.fault d) s => .ok (some (.fault d)) s
  | .error h s => .error h s
  | .ok () s =>
    match s.pending with
    | none => .ok none s
    | some kind =>
      match lexeme s with
      | .error h s => .error h s
      | .ok text s => .ok (some (.token ⟨kind, text, s.line⟩)) { s with pending := none }

/-- The next item. There is none behind the end of file. -/
def next : Reader (Option Item) := fun s =>
  if s.size < s.current then .ok none s
  else if s.current = s.size then
    .ok (some (.token (.endOfFile s.line))) { s with current := s.current + 1 }
  else
    match turn s with
    | .error h s' => .error h s'
    | .ok (some item) s' => .ok (some item) s'
    | .ok none s' =>
      if s'.size - s'.current < s.size - s.current then next s' else .error .stuck s'
termination_by s => s.size - s.current

end Scanner

end Treewalk
