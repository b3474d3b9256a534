import Typeahead.Token.Basic

/-!
Lexers and what they say. A lexer that is started on a text is asked again and again, and each time
answers with a token or an error. From its answers come the tokens that grammars see: those of the
default channel, up to the end of the input or the first error.
-/

namespace Typeahead

inductive LexError where
  | unknownToken (name : String)
  | other (message : String)
deriving DecidableEq

def LexError.message : LexError → String
  | .unknownToken name => "lexer spec names token `" ++ name ++ "`, which is not in the token table"
  | .other message => message

abbrev Answer := Except LexError Token

/-- Nothing that comes after an error or after the end of the input is looked at. -/
def Answer.isLast : Answer → Bool
  | .error _ => true
  | .ok token => token.isEof

/-- All answers of a lexer started on a text, in the order in which it is asked. The last one that
matters is among the first `bound + 1`. -/
structure Stream where
  answer : Nat → Answer
  bound : Nat
  ends : (answer bound).isLast = true

abbrev Lexer := String → Except LexError Stream

namespace Stream

def ofList (answers : List Answer) (last : Answer) (isLast : last.isLast = true) : Stream :=
  let answers := answers.toArray
  { answer := fun n => answers[n]?.getD last
    bound := answers.size
    ends := by simpa using isLast }

def answers (stream : Stream) : List Answer := (List.range (stream.bound + 1)).map stream.answer

/-- Tokens of the default channel up to the end of the input, or up to and with the first error. -/
def visible : List Answer → List Answer
  | [] => []
  | .error e :: _ => [.error e]
  | .ok token :: rest =>
    if token.isEof then []
    else if token.channel = .default then .ok token :: visible rest
    else visible rest

def items (stream : Stream) : List Answer := visible stream.answers

end Stream

def allTokens : List Answer → Except LexError (List Token)
  | [] => .ok []
  | .error e :: _ => .error e
  | .ok token :: rest => (allTokens rest).map (token :: ·)

def Lexer.items (lexer : Lexer) (text : String) : Except LexError (List Answer) :=
  (lexer text).map Stream.items

def Lexer.tokenize (lexer : Lexer) (text : String) : Except LexError (List Token) :=
  (lexer.items text).bind allTokens

end Typeahead
