import FeatureLogic.Text.Lines

/-!
JSON texts as raw bytes. The grammar is read strictly, but a string whose bytes or surrogates make
no text is still a string: it only has no text. So values that nobody looks at may hold such
strings.
Reading keeps the open arrays and objects in a list, so nesting of any depth is read.
-/

namespace FeatureLogic.JsonText

/-- A JSON value. The text of a number does not matter here. -/
inductive Value
  | null
  | bool (b : Bool)
  | number
  | string (text : Option String)
  | array (items : List Value)
  /-- Members in the order of the text, repeated keys included. -/
  | object (members : List (Option String × Value))

/-! ### Blanks, numbers and words -/

def isBlank (b : UInt8) : Bool := b == 32 || b == 10 || b == 13 || b == 9

def skipBlanks (bytes : List UInt8) : List UInt8 := bytes.dropWhile isBlank

def isDigit (b : UInt8) : Bool := 48 ≤ b && b ≤ 57

/-- What follows one or more digits. -/
def digits? : List UInt8 → Option (List UInt8)
  | b :: rest => if isDigit b then some (rest.dropWhile isDigit) else none
  | [] => none

/-- What follows the whole part of a number: a zero alone or digits that begin with no zero. -/
def wholePart? : List UInt8 → Option (List UInt8)
  | 48 :: b :: rest => if isDigit b then none else some (b :: rest)
  | bytes => digits? bytes

/-- What follows the exponent of a number, if it has one. -/
def exponent? : List UInt8 → Option (List UInt8)
  | 101 :: rest | 69 :: rest =>
    match rest with
    | 43 :: rest | 45 :: rest => digits? rest
    | _ => digits? rest
  | bytes => some bytes

/-- What follows a number. -/
def number? (bytes : List UInt8) : Option (List UInt8) := do
  let unsigned := match bytes with
    | 45 :: rest => rest
    | _ => bytes
  match ← wholePart? unsigned with
  | 46 :: rest => exponent? (← digits? rest)
  | rest => exponent? rest

/-- What follows a fixed word. -/
def word? (word : String) (bytes : List UInt8) : Option (List UInt8) :=
  let w := Text.encode word
  if w.isPrefixOf bytes then some (bytes.drop w.length) else none

/-! ### Strings -/

/-- A part of a string: a byte as it stands or a code unit of 16 bits. -/
inductive Piece
  | byte (b : UInt8)
  | unit (n : Nat)

def hexDigit? (b : UInt8) : Option Nat :=
  if isDigit b then some (b.toNat - 48)
  else if 97 ≤ b && b ≤ 102 then some (b.toNat - 87)
  else if 65 ≤ b && b ≤ 70 then some (b.toNat - 55)
  else none

/-- The code unit of four hexadecimal digits. -/
def unit? (a b c d : UInt8) : Option Nat := do
  return 4096 * (← hexDigit? a) + 256 * (← hexDigit? b) + 16 * (← hexDigit? c) + (← hexDigit? d)

/-- The byte that a backslash with this letter stands for. -/
def escaped? (b : UInt8) : Option UInt8 :=
  match b with
  | 34 | 92 | 47 => some b
  | 98 => some 8
  | 102 => some 12
  | 110 => some 10
  | 114 => some 13
  | 116 => some 9
  | _ => none

/-- Reads a string after its opening mark: its parts and what follows the closing mark. `found`
are the parts read so far, last first. -/
def pieces? (found : List Piece) : List UInt8 → Option (List Piece × List UInt8)
  | [] => none
  | 34 :: rest => some (found.reverse, rest)
  | 92 :: 117 :: a :: b :: c :: d :: rest =>
    match unit? a b c d with
    | some n => pieces? (.unit n :: found) rest
    | none => none
  | 92 :: b :: rest =>
    match escaped? b with
    | some e => pieces? (.byte e :: found) rest
    | none => none
  | b :: rest => if b < 32 then none else pieces? (.byte b :: found) rest

/-- The bytes of a string: a code unit alone is a character, two surrogates together are one, and
a surrogate alone is none. -/
def bytes? (found : List UInt8) : List Piece → Option (List UInt8)
  | [] => some found.reverse
  | .byte b :: rest => bytes? (b :: found) rest
  | .unit n :: rest =>
    if n < 0xD800 ∨ 0xDFFF < n then
      bytes? ((Text.encode (Char.ofNat n).toString).reverse ++ found) rest
    else match rest with
      | .unit m :: rest =>
        if n < 0xDC00 ∧ 0xDC00 ≤ m ∧ m ≤ 0xDFFF then
          let c := Char.ofNat (0x10000 + 0x400 * (n - 0xD800) + (m - 0xDC00))
          bytes? ((Text.encode c.toString).reverse ++ found) rest
        else none
      | _ => none

/-- The text of a string's parts. -/
def text? (pieces : List Piece) : Option String := (bytes? [] pieces).bind Text.decode?

/-- Reads a string after its opening mark. -/
def string? (bytes : List UInt8) : Option (Option String × List UInt8) :=
  (pieces? [] bytes).map fun (pieces, rest) => (text? pieces, rest)

/-! ### Values -/

/-- An array or object whose end was not yet come to, with its items or members, last first. -/
inductive Frame
  | array (items : List Value)
  | object (members : List (Option String × Value)) (key : Option String)

/-- What is to be read next. -/
inductive Phase
  | value
  /-- The first item of an array, or its end. -/
  | items
  /-- The first key of an object, or its end. -/
  | members
  /-- What follows a value. -/
  | after (value : Value)

/-- A value without parts and what follows it. -/
def scalar? (bytes : List UInt8) : Option (Value × List UInt8) :=
  match bytes with
  | 34 :: rest => (string? rest).map fun (text, rest) => (.string text, rest)
  | 110 :: _ => (word? "null" bytes).map (.null, ·)
  | 116 :: _ => (word? "true" bytes).map (.bool true, ·)
  | 102 :: _ => (word? "false" bytes).map (.bool false, ·)
  | _ => (number? bytes).map (.number, ·)

/-- A key with the colon after it and what follows them. -/
def key? (bytes : List UInt8) : Option (Option String × List UInt8) :=
  match bytes with
  | 34 :: rest =>
    match string? rest with
    | some (key, rest) =>
      match skipBlanks rest with
      | 58 :: rest => some (key, rest)
      | _ => none
    | none => none
  | _ => none

/-- Reads on, at most `fuel` steps; the value and what follows it. -/
def run : Nat → Phase → List Frame → List UInt8 → Option (Value × List UInt8)
  | 0, _, _, _ => none
  | fuel + 1, phase, open_, bytes =>
    let bytes := skipBlanks bytes
    match phase, open_, bytes with
    | .value, _, 91 :: rest => run fuel .items (.array [] :: open_) rest
    | .value, _, 123 :: rest => run fuel .members open_ rest
    | .value, _, _ =>
      match scalar? bytes with
      | some (value, rest) => run fuel (.after value) open_ rest
      | none => none
    | .items, .array [] :: open_, 93 :: rest => run fuel (.after (.array [])) open_ rest
    | .items, _, _ => run fuel .value open_ bytes
    | .members, _, 125 :: rest => run fuel (.after (.object [])) open_ rest
    | .members, _, _ =>
      match key? bytes with
      | some (key, rest) => run fuel .value (.object [] key :: open_) rest
      | none => none
    | .after value, [], _ => some (value, bytes)
    | .after value, .array items :: open_, 44 :: rest =>
      run fuel .value (.array (value :: items) :: open_) rest
    | .after value, .array items :: open_, 93 :: rest =>
      run fuel (.after (.array (value :: items).reverse)) open_ rest
    | .after value, .object members key :: open_, 44 :: rest =>
      match key? (skipBlanks rest) with
      | some (next, rest) => run fuel .value (.object ((key, value) :: members) next :: open_) rest
      | none => none
    | .after value, .object members key :: open_, 125 :: rest =>
      run fuel (.after (.object ((key, value) :: members).reverse)) open_ rest
    | .after _, _, _ => none

/-- Reads a text that holds one value and nothing else but blanks. Each byte leads to at most
three steps. -/
def read (bytes : List UInt8) : Option Value :=
  match run (3 * (bytes.length + 1)) .value [] bytes with
  | some (value, []) => some value
  | _ => none

/-! ### Values of a known form -/

def Value.text? : Value → Option String
  | string text => text
  | _ => none

/-- The items of an array, each of the same form. -/
def Value.list? {α : Type} (item : Value → Option α) : Value → Option (List α)
  | array items => items.mapM item
  | _ => none

/-- Keys and values of an object, each value of the same form. -/
def Value.members? {α : Type} (item : Value → Option α) : Value → Option (List (String × α))
  | object members => members.mapM fun (key, value) => return (← key, ← item value)
  | _ => none

/-- The values of the named fields in a list of members. A named field that is repeated and a key
without text are refused; other keys are passed over. -/
def pickFields (names : List String) (members : List (Option String × Value)) :
    Option (List (Option Value)) := do
  let keys ← members.mapM Prod.fst
  let values := keys.zip (members.map Prod.snd)
  names.mapM fun name =>
    match values.filter fun (key, _) => key = name with
    | [] => some none
    | [(_, value)] => some (some value)
    | _ => none

/-- The values of the named fields of a record, which is an object or an array of the fields in
order, where the last ones may be left out. -/
def Value.fields? (names : List String) : Value → Option (List (Option Value))
  | object members => pickFields names members
  | array items =>
    if items.length ≤ names.length then
      some (items.map some ++ List.replicate (names.length - items.length) none)
    else none
  | _ => none

end FeatureLogic.JsonText
