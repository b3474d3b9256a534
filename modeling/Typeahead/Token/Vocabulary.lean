import Typeahead.Sorting
import Typeahead.Token.Basic

/-!
The vocabulary of a language: which literals and which named kinds of tokens it has, and their ids.
Several entries may share an id, and an entry may be registered anew; in every direction of look-up
the last registration counts.
-/

namespace Typeahead

inductive Entry where
  | literal (text : String) (id : TokenId)
  | name (name : String) (id : TokenId)
deriving DecidableEq

namespace Entry

def literalId? (text : String) : Entry → Option TokenId
  | .literal t id => if t = text then some id else none
  | .name _ _ => none

def nameId? (name : String) : Entry → Option TokenId
  | .literal _ _ => none
  | .name n id => if n = name then some id else none

def literalOf? (id : TokenId) : Entry → Option String
  | .literal text i => if i = id then some text else none
  | .name _ _ => none

def nameOf? (id : TokenId) : Entry → Option String
  | .literal _ _ => none
  | .name n i => if i = id then some n else none

def spelling? : Entry → Option (String × TokenId)
  | .literal text id => some (text, id)
  | .name _ _ => none

end Entry

/-- All registrations, the last one first. -/
structure Vocabulary where
  entries : List Entry
deriving DecidableEq

namespace Vocabulary

/-- The end of the input has a name in every vocabulary. -/
def initial : Vocabulary := ⟨[.name "EOF" .eof]⟩

def add (vocabulary : Vocabulary) (entry : Entry) : Vocabulary := ⟨entry :: vocabulary.entries⟩

def literalId? (vocabulary : Vocabulary) (text : String) : Option TokenId :=
  vocabulary.entries.findSome? (·.literalId? text)

def nameId? (vocabulary : Vocabulary) (name : String) : Option TokenId :=
  vocabulary.entries.findSome? (·.nameId? name)

def literalOf? (vocabulary : Vocabulary) (id : TokenId) : Option String :=
  vocabulary.entries.findSome? (·.literalOf? id)

def nameOf? (vocabulary : Vocabulary) (id : TokenId) : Option String :=
  vocabulary.entries.findSome? (·.nameOf? id)

/-- Registered spellings with their ids, the last registration first. -/
def spellings (vocabulary : Vocabulary) : List (String × TokenId) :=
  vocabulary.entries.filterMap Entry.spelling?

/-- Adds a spelling in ascending order; one that is there already gets the new id. -/
def putSpelling (text : String) (id : TokenId) : List (String × TokenId) → List (String × TokenId)
  | [] => [(text, id)]
  | (t, i) :: rest =>
    if t < text then (t, i) :: putSpelling text id rest
    else if t = text then (text, id) :: rest
    else (text, id) :: (t, i) :: rest

def literals (vocabulary : Vocabulary) : List (String × TokenId) :=
  vocabulary.spellings.foldr (fun spelling => putSpelling spelling.1 spelling.2) []

theorem literalId?_add (vocabulary : Vocabulary) (entry : Entry) (text : String) :
    (vocabulary.add entry).literalId? text =
      (entry.literalId? text).or (vocabulary.literalId? text) := by
  simp only [add, literalId?, List.findSome?_cons]
  cases entry.literalId? text <;> rfl

theorem nameId?_add (vocabulary : Vocabulary) (entry : Entry) (name : String) :
    (vocabulary.add entry).nameId? name = (entry.nameId? name).or (vocabulary.nameId? name) := by
  simp only [add, nameId?, List.findSome?_cons]
  cases entry.nameId? name <;> rfl

theorem literalOf?_add (vocabulary : Vocabulary) (entry : Entry) (id : TokenId) :
    (vocabulary.add entry).literalOf? id = (entry.literalOf? id).or (vocabulary.literalOf? id) := by
  simp only [add, literalOf?, List.findSome?_cons]
  cases entry.literalOf? id <;> rfl

theorem nameOf?_add (vocabulary : Vocabulary) (entry : Entry) (id : TokenId) :
    (vocabulary.add entry).nameOf? id = (entry.nameOf? id).or (vocabulary.nameOf? id) := by
  simp only [add, nameOf?, List.findSome?_cons]
  cases entry.nameOf? id <;> rfl

end Vocabulary

end Typeahead
