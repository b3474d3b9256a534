import Typeahead.Lexer.Basic

/-!
Asking a lexer step by step for what a grammar sees of a text.
-/

namespace Typeahead

structure Cursor where
  stream : Stream
  /-- The number of answers taken so far. -/
  asked : Nat := 0
  /-- Whether the end of the input or an error has been read. -/
  finished : Bool := false

namespace Cursor

def readOn (stream : Stream) : (fuel asked : Nat) → Option Answer × Cursor
  | 0, asked => (none, ⟨stream, asked, true⟩)
  | fuel + 1, asked =>
    match stream.answer asked with
    | .error e => (some (.error e), ⟨stream, asked + 1, true⟩)
    | .ok token =>
      if token.isEof then (none, ⟨stream, asked + 1, true⟩)
      else if token.channel = .default then (some (.ok token), ⟨stream, asked + 1, false⟩)
      else readOn stream fuel (asked + 1)

/-- The next token or error. A finished cursor asks the lexer nothing more. -/
def next (cursor : Cursor) : Option Answer × Cursor :=
  if cursor.finished then (none, cursor)
  else readOn cursor.stream (cursor.stream.bound + 1 - cursor.asked) cursor.asked

end Cursor

end Typeahead
