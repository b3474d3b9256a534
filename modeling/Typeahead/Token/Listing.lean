import Typeahead.Text.Blank
import Typeahead.Token.Vocabulary

/-!
The written form of a vocabulary: one entry a line, `'spelling'=id` or `NAME=id`, with any blanks
around it and any blank lines between. A key may hold every character but a line feed, since the last
`=` of a line parts the key from the id.
-/

namespace Typeahead

/-- The value of a run of decimal digits, read from left to right onto `value`. -/
def digitsOnto? (value : Nat) : List Char → Option Nat
  | [] => some value
  | c :: cs => if c.isDigit then digitsOnto? (10 * value + (c.toNat - '0'.toNat)) cs else none

def natOfDigits? : List Char → Option Nat
  | [] => none
  | c :: cs => digitsOnto? 0 (c :: cs)

/-- A whole number in decimal digits, with at most one sign in front. -/
def intOfDigits? : List Char → Option Int
  | '-' :: digits => (natOfDigits? digits).map fun n => -(n : Int)
  | '+' :: digits => (natOfDigits? digits).map Int.ofNat
  | digits => (natOfDigits? digits).map Int.ofNat

def TokenId.read? (chars : List Char) : Option TokenId := (intOfDigits? chars).bind TokenId.ofInt?

namespace Entry

def splitAtLastEquals : List Char → Option (List Char × List Char)
  | [] => none
  | c :: cs =>
    match splitAtLastEquals cs with
    | some (key, value) => some (c :: key, value)
    | none => if c = '=' then some ([], cs) else none

def unquote? : List Char → Option (List Char)
  | '\'' :: c :: cs => if (c :: cs).getLast? = some '\'' then some (c :: cs).dropLast else none
  | _ => none

/-- A quoted key is a literal, and one that does not begin with a quote is a name. -/
def ofKey? (key : List Char) (id : TokenId) : Option Entry :=
  match unquote? key with
  | some text => some (.literal (String.ofList text) id)
  | none => if key = [] ∨ key.head? = some '\'' then none else some (.name (String.ofList key) id)

/-- The entry that a line without blanks at its ends stands for. -/
def ofLine? (line : List Char) : Option Entry :=
  (splitAtLastEquals line).bind fun parts =>
    (TokenId.read? (Text.trim parts.2)).bind (ofKey? parts.1)

end Entry

/-- A line of a listing, numbered from one, that is neither blank nor an entry. -/
structure MalformedLine where
  number : Nat
  text : String

def MalformedLine.message (line : MalformedLine) : String :=
  "malformed token table line " ++ toString line.number ++ ": `" ++ line.text ++ "`"

namespace Vocabulary

def linesOf : List Char → List (List Char)
  | [] => [[]]
  | c :: cs =>
    if c = '\n' then [] :: linesOf cs
    else match linesOf cs with
      | [] => [[c]]
      | line :: lines => (c :: line) :: lines

/-- Adds the entries on lines counted from `number`, up to the first line that is malformed. -/
def addLines (number : Nat) (vocabulary : Vocabulary) :
    List (List Char) → Except MalformedLine Vocabulary
  | [] => .ok vocabulary
  | line :: lines =>
    let line := Text.trim line
    if line = [] then addLines (number + 1) vocabulary lines
    else match Entry.ofLine? line with
      | some entry => addLines (number + 1) (vocabulary.add entry) lines
      | none => .error ⟨number, String.ofList line⟩

def read (text : String) : Except MalformedLine Vocabulary :=
  addLines 1 initial (linesOf text.toList)

end Vocabulary

end Typeahead
