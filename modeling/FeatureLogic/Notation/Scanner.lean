import FeatureLogic.Notation.Token
import FeatureLogic.Text.Blank
import FeatureLogic.Text.Decimal

/-!
Scanners: texts cut into tokens one by one. Brackets, parentheses and the hash sign are tokens by
themselves, a quoted text runs to the next quotation mark that no backslash precedes, and any
other run of characters is a number when it has digits only and fits into 32 bits, else a word.
-/

namespace FeatureLogic.Notation

/-- What is left of a text, with the line and column of the last character read. -/
structure Cursor where
  rest : List Char
  line : Nat
  column : Nat

namespace Cursor

def start (text : String) : Cursor := ⟨text.toList, 1, 0⟩

/-- Reads the character `c`, with `rest` after it. -/
def advance (k : Cursor) (c : Char) (rest : List Char) : Cursor :=
  if c = '\n' then ⟨rest, k.line + 1, 0⟩ else ⟨rest, k.line, k.column + 1⟩

/-- The place of the next character. -/
def position (k : Cursor) : Position := ⟨k.line, k.column + 1⟩

/-- Reads blanks. -/
def skipBlanks (k : Cursor) : Cursor :=
  match k with
  | ⟨[], _, _⟩ => k
  | ⟨c :: rest, line, column⟩ =>
    if Text.isBlank c then skipBlanks (advance ⟨c :: rest, line, column⟩ c rest) else k
  termination_by k.rest.length
  decreasing_by
    unfold advance
    split <;> simp

/-- Reads up to the closing quotation mark; `none` when there is none. `text` is what was read,
last first. -/
def quotedText (k : Cursor) (text : List Char) : Option String × Cursor :=
  match k with
  | ⟨[], _, _⟩ => (none, k)
  | ⟨'"' :: rest, line, column⟩ =>
    (some (String.ofList text.reverse), advance ⟨'"' :: rest, line, column⟩ '"' rest)
  | ⟨'\\' :: rest, line, column⟩ =>
    match rest with
    | [] => (none, advance ⟨'\\' :: [], line, column⟩ '\\' [])
    | c :: rest =>
      quotedText ((advance ⟨'\\' :: c :: rest, line, column⟩ '\\' (c :: rest)).advance c rest)
        (c :: text)
  | ⟨c :: rest, line, column⟩ =>
    quotedText (advance ⟨c :: rest, line, column⟩ c rest) (c :: text)
  termination_by k.rest.length
  decreasing_by
    all_goals simp only [advance]
    all_goals repeat' split
    all_goals simp only [List.length_cons]
    all_goals omega

/-- Characters that end a word and are not part of it. -/
def isDelimiter (c : Char) : Bool :=
  c == '[' || c == ']' || c == '(' || c == ')' || c == '#' || c == '"'

def isWordChar (c : Char) : Bool := !Text.isBlank c && !isDelimiter c

/-- Reads the characters of a word. -/
def wordText (k : Cursor) : List Char × Cursor :=
  let word := k.rest.takeWhile isWordChar
  (word, ⟨k.rest.dropWhile isWordChar, k.line, k.column + word.length⟩)

end Cursor

/-- A run of characters as a number, when it has digits only and fits into 32 bits, or a word. -/
def Token.ofWord (word : List Char) : Token :=
  match (Text.digitsNat? word).filter (· < Nat.pow 2 32) with
  | some n => .number n
  | none => .word (String.ofList word)

/-- What scanning finds: a token with its place, or the end of the text. -/
abbrev Found := Option (Token × Position)

/-- Reads the next token from a text. -/
def Cursor.scan (k : Cursor) : Except SyntaxError Found × Cursor :=
  let k := k.skipBlanks
  let position := k.position
  let one (token : Token) (rest : List Char) (c : Char) : Except SyntaxError Found × Cursor :=
    (.ok (some (token, position)), k.advance c rest)
  match k.rest with
  | [] => (.ok none, k)
  | c :: rest =>
    match c with
    | '[' => one .openBracket rest c
    | ']' => one .closeBracket rest c
    | '(' => one .openParen rest c
    | ')' => one .closeParen rest c
    | '#' => one .hash rest c
    | '"' =>
      match (k.advance c rest).quotedText [] with
      | (some text, k) => (.ok (some (.quoted text, position)), k)
      | (none, k) => (.error (.unterminatedString position), k)
    | _ =>
      let (more, k) := (k.advance c rest).wordText
      (.ok (some (.ofWord (c :: more), position)), k)

/-- A text being cut into tokens, with what was looked at ahead. -/
structure Scanner where
  cursor : Cursor
  /-- What the next reading finds, when it was looked at already. -/
  ahead : Option Found

namespace Scanner

def start (text : String) : Scanner := ⟨.start text, none⟩

/-- The next token, which is read. -/
def next (s : Scanner) : Except SyntaxError Found × Scanner :=
  match s.ahead with
  | some found => (.ok found, { s with ahead := none })
  | none =>
    let (found, cursor) := s.cursor.scan
    (found, ⟨cursor, none⟩)

/-- The next token, which is left to be read. An unterminated text is not kept ahead. -/
def peek (s : Scanner) : Except SyntaxError Found × Scanner :=
  match s.ahead with
  | some found => (.ok found, s)
  | none =>
    match s.cursor.scan with
    | (.ok found, cursor) => (.ok found, ⟨cursor, some found⟩)
    | (.error e, cursor) => (.error e, ⟨cursor, none⟩)

/-- No more tokens than this are left. -/
def bound (s : Scanner) : Nat := s.cursor.rest.length + 1

/-- At most `fuel` tokens up to the end or the first error, which is the second part. -/
def collect : Nat → Scanner → List (Token × Position) → List (Token × Position) × Option SyntaxError
  | 0, _, found => (found.reverse, none)
  | fuel + 1, s, found =>
    match s.next with
    | (.ok (some token), s) => collect fuel s (token :: found)
    | (.ok none, _) => (found.reverse, none)
    | (.error e, _) => (found.reverse, some e)

/-- All tokens up to the end or the first error, which is the second part. -/
def toList (s : Scanner) : List (Token × Position) × Option SyntaxError :=
  collect (s.bound + 1) s []

end Scanner

end FeatureLogic.Notation
