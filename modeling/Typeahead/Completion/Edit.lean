import Typeahead.Text.Offset

/-!
Texts under edit, and edits of them.
-/

namespace Typeahead

structure Buffer where
  content : String
  caret : Nat
deriving DecidableEq

namespace Buffer

def atEnd (content : String) : Buffer := ⟨content, content.utf8ByteSize⟩

/-- The text before the caret, or all of it if the caret is at no valid offset. -/
def beforeCaret (buffer : Buffer) : String :=
  (Text.before? buffer.content buffer.caret).getD buffer.content

end Buffer

/-- The bytes from `start` to `stop` give way to a text, and the caret moves. -/
structure Edit where
  start : Nat
  stop : Nat
  text : String
  caret : Nat
  description : Option String := none
deriving DecidableEq

def Edit.apply (edit : Edit) (buffer : Buffer) : Buffer :=
  ⟨Text.splice buffer.content edit.start edit.stop edit.text, edit.caret⟩

end Typeahead
