import Typeahead.Lexer.Basic
import Typeahead.Text.Blank
import Typeahead.Text.Offset
import Typeahead.Text.Word
import Typeahead.Token.Vocabulary

/-!
A lexer made from a vocabulary: it knows the literals and, where they are asked for, identifiers,
numbers and quoted strings. Every text can be read, since what fits no class becomes an invalid token.
-/

namespace Typeahead

open Text

/-- The ids that a lexer hands out. A class of tokens that has no id is not looked for. -/
structure Lexicon where
  vocabulary : Vocabulary
  identifier : Option TokenId := none
  number : Option TokenId := none
  quoted : Option TokenId := none

/-- A token found at the front of a text, without its place. -/
structure Lexeme where
  /-- The number of characters after the first one. -/
  more : Nat
  id : TokenId
  channel : Channel := .default

namespace Lexicon

def lookup (lexicon : Lexicon) (name : String) : Except LexError TokenId :=
  match lexicon.vocabulary.nameId? name with
  | some id => .ok id
  | none => .error (.unknownToken name)

def withIdentifier (lexicon : Lexicon) (name : String) : Except LexError Lexicon :=
  (lexicon.lookup name).map fun id => { lexicon with identifier := some id }

def withNumber (lexicon : Lexicon) (name : String) : Except LexError Lexicon :=
  (lexicon.lookup name).map fun id => { lexicon with number := some id }

def withQuoted (lexicon : Lexicon) (name : String) : Except LexError Lexicon :=
  (lexicon.lookup name).map fun id => { lexicon with quoted := some id }

/-- Blanks have the id of `WS`, if there is one. -/
def blankId (lexicon : Lexicon) : TokenId := (lexicon.vocabulary.nameId? "WS").getD .invalid

/-- The spellings to look for, the last registration first. -/
def spellings (lexicon : Lexicon) : List (List Char × TokenId) :=
  lexicon.vocabulary.spellings.map fun spelling => (spelling.1.toList, spelling.2)

/-- A spelling stands at the front of a text if it is not empty and no word goes on behind it. -/
def standsAt (chars spelling : List Char) : Bool :=
  spelling != [] && spelling.isPrefixOf chars
    && !(spelling.getLast?.any isWord && (chars.drop spelling.length).head?.any isWord)

/-- The longest spelling, and of equally long ones the first. -/
def longest : List (List Char × TokenId) → Option (List Char × TokenId)
  | [] => none
  | spelling :: rest =>
    match longest rest with
    | some other => if spelling.1.length < other.1.length then some other else some spelling
    | none => some spelling

/-- The characters of a quoted string behind its opening quote. A backslash takes away the meaning of
the character after it. Without a closing quote the string goes on to the end. -/
def quotedTail : List Char → Nat
  | [] => 0
  | '\\' :: [] => 1
  | '\\' :: _ :: rest => 2 + quotedTail rest
  | c :: rest => if c = '"' then 1 else 1 + quotedTail rest

def fraction : List Char → Nat
  | '.' :: c :: rest => if c.isDigit then 2 + run Char.isDigit rest else 0
  | _ => 0

def numberTail (chars : List Char) : Nat :=
  let digits := run Char.isDigit chars
  digits + fraction (chars.drop digits)

def blankAt? (lexicon : Lexicon) (c : Char) (rest : List Char) : Option Lexeme :=
  if isBlank c then some ⟨run isBlank rest, lexicon.blankId, .hidden⟩ else none

def quotedAt? (lexicon : Lexicon) (c : Char) (rest : List Char) : Option Lexeme :=
  if c = '"' then lexicon.quoted.map fun id => { more := quotedTail rest, id } else none

def literalAt? (spellings : List (List Char × TokenId)) (c : Char) (rest : List Char) :
    Option Lexeme :=
  (longest (spellings.filter fun spelling => standsAt (c :: rest) spelling.1)).map fun spelling =>
    { more := spelling.1.length - 1, id := spelling.2 }

def identifierAt? (lexicon : Lexicon) (c : Char) (rest : List Char) : Option Lexeme :=
  if isWordStart c then lexicon.identifier.map fun id => { more := run isWord rest, id } else none

def numberAt? (lexicon : Lexicon) (c : Char) (rest : List Char) : Option Lexeme :=
  if c.isDigit then lexicon.number.map fun id => { more := numberTail rest, id } else none

/-- Text of no class: a whole word, or a single character that belongs to no word. -/
def invalidAt (c : Char) (rest : List Char) : Lexeme :=
  { more := if isWord c then run isWord rest else 0, id := .invalid }

/-- The token that begins with the character `c`, where `rest` stands behind it. The classes are tried
in a fixed order; `spellings` are those of the lexicon. -/
def lexeme (lexicon : Lexicon) (spellings : List (List Char × TokenId)) (c : Char)
    (rest : List Char) : Lexeme :=
  (lexicon.blankAt? c rest <|> lexicon.quotedAt? c rest <|> literalAt? spellings c rest <|>
    lexicon.identifierAt? c rest <|> lexicon.numberAt? c rest).getD (invalidAt c rest)

def tokensFrom (lexicon : Lexicon) (spellings : List (List Char × TokenId)) (start : Nat) :
    List Char → List Token
  | [] => []
  | c :: rest =>
    let lexeme := lexicon.lexeme spellings c rest
    let text := String.ofList (c :: rest.take lexeme.more)
    ⟨lexeme.id, text, start, lexeme.channel⟩ ::
      lexicon.tokensFrom spellings (start + text.utf8ByteSize) (rest.drop lexeme.more)
termination_by chars => chars.length
decreasing_by simp only [List.length_drop, List.length_cons]; omega

def tokens (lexicon : Lexicon) (text : String) : List Token :=
  lexicon.tokensFrom lexicon.spellings 0 text.toList

def stream (lexicon : Lexicon) (text : String) : Stream :=
  .ofList ((lexicon.tokens text).map .ok) (.ok (.eof text.utf8ByteSize)) rfl

def lexer (lexicon : Lexicon) : Lexer := fun text => .ok (lexicon.stream text)

end Lexicon

end Typeahead
