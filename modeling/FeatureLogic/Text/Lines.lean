/-!
Lines of raw text. A line ends at a line feed, which takes a carriage return before it along; what
follows the last line feed is a line when it is not empty. Each line is decoded by itself.
-/

namespace FeatureLogic.Text

/-- Bytes of a text, decoded when they are valid UTF-8. -/
def decode? (bytes : List UInt8) : Option String := String.fromUTF8? ⟨bytes.toArray⟩

/-- The bytes of a text. -/
def encode (text : String) : List UInt8 := text.toUTF8.toList

/-- The bytes of a line without a carriage return at its end. -/
def dropReturn (line : List UInt8) : List UInt8 :=
  if line.getLast? = some 13 then line.dropLast else line

/-- Cuts bytes at line feeds. -/
def rawLines (bytes : List UInt8) : List (List UInt8) :=
  go bytes [] []
where
  /-- `current` and `lines` hold what was read so far, last first. -/
  go : List UInt8 → List UInt8 → List (List UInt8) → List (List UInt8)
    | [], [], lines => lines.reverse
    | [], current, lines => (current.reverse :: lines).reverse
    | b :: rest, current, lines =>
      if b = 10 then go rest [] (dropReturn current.reverse :: lines)
      else go rest (b :: current) lines

/-- The lines of raw text; a line that is not valid UTF-8 has no text. -/
def lines (bytes : List UInt8) : List (Option String) := (rawLines bytes).map decode?

end FeatureLogic.Text
