/-!
# Failures to read the notation

A text that is not in the notation is rejected at one place, where the reader could not go on,
with what it would have needed there. A failure keeps the text left at that place, so that the
place is the front of a final part of the input by construction.

The message points at the place. One line of input is shown whole with a caret under the place,
counted in bytes; of several lines the one that holds the place is shown, with its number and
column.
-/

namespace WhenClause

inductive Expectation where
  | keyword
  | openBracket
  | colon
  | value
  | attribute
  | entry
  deriving DecidableEq, Repr

def Expectation.text : Expectation → String
  | .keyword => "`and`, `or` or `group`"
  | .openBracket => "`[`"
  | .colon => "`:`"
  | .value => "value"
  | .attribute => "attribute or `\x7d`"
  | .entry => "condition, group or `]`"

/-- A failure with no expectation is text left over after a whole group. -/
structure Failure where
  expected : Option Expectation
  rest : List Char
  deriving DecidableEq, Repr

def byteLength : List Char → Nat
  | [] => 0
  | c :: s => c.utf8Size + byteLength s

structure Place where
  line : Nat
  column : Nat
  content : List Char
  deriving DecidableEq, Repr

namespace Place

def lastLine (s : List Char) : List Char :=
  (s.reverse.takeWhile (· != '\n')).reverse

/-- The place of the first character of `rest` in `before ++ rest`. Columns count characters,
but a place in front of a character of several bytes is counted in bytes. -/
def ofSplit (before rest : List Char) : Place :=
  let indent := lastLine before
  let offset :=
    match rest with
    | c :: _ => if c.utf8Size == 1 then indent.length else byteLength indent
    | [] => indent.length
  ⟨before.count '\n' + 1, offset + 1, indent ++ rest.takeWhile (· != '\n')⟩

/-- The place after the last character of a text: the one after that character's own place, on
the same line, even if the character is a line break. -/
def afterLast (s : List Char) : Place :=
  let before := s.dropLast
  ⟨before.count '\n' + 1, (lastLine before).length + 2,
    lastLine before ++ (s.drop before.length).takeWhile (· != '\n')⟩

end Place

namespace Failure

def before (input : List Char) (f : Failure) : List Char :=
  input.take (input.length - f.rest.length)

def offset (input : List Char) (f : Failure) : Nat := byteLength (f.before input)

def place (input : List Char) (f : Failure) : Place :=
  if f.rest.isEmpty then Place.afterLast input else Place.ofSplit (f.before input) f.rest

def spaces (n : Nat) : List Char := List.replicate n ' '

def picture (input : List Char) (f : Failure) : List Char :=
  if input.contains '\n' then
    let place := f.place input
    let number := Nat.toDigits 10 place.line
    let gutter := spaces number.length ++ " |".toList
    "parse error at line ".toList ++ number ++
      ", column ".toList ++ Nat.toDigits 10 place.column ++ '\n' ::
      gutter ++ '\n' ::
      number ++ " | ".toList ++ place.content ++ '\n' ::
      gutter ++ ' ' :: spaces (place.column - 1) ++ ['^', '\n']
  else
    input ++ '\n' :: spaces (f.offset input) ++ ['^', '\n']

def message (input : List Char) (f : Failure) : String :=
  "parse error: " ++ String.ofList (f.picture input) ++
    match f.expected with
    | some e => "expected " ++ e.text
    | none => ""

end Failure

end WhenClause
