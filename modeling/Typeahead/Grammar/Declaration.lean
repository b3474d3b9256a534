import Typeahead.Grammar.Basic

/-!
Grammars as they are written down: elements name literals, tokens and rules by their text, and may
hold blocks of alternatives in place.
-/

namespace Typeahead

inductive SetItem where
  | literal (text : String)
  | token (name : String)
deriving DecidableEq

mutual

/-- An element with the suffix that says how often it may occur. -/
structure ElementDecl where
  label : Option String
  form : Form
  suffix : String

inductive Form where
  | literal (text : String)
  | token (name : String)
  | rule (name : String)
  | noneOf (items : List SetItem)
  | any
  | block (alternatives : List AlternativeDecl)

structure AlternativeDecl where
  label : Option String
  elements : List ElementDecl

end

/-- A declared rule. Lexer rules describe how tokens are spelled, and are read leniently. -/
structure RuleDecl where
  name : String
  lexical : Bool
  alternatives : List AlternativeDecl

namespace Form

def element (form : Form) (suffix : String := "") : ElementDecl := ⟨none, form, suffix⟩

end Form

/-- An alternative of elements without suffixes, labels or blocks. -/
def AlternativeDecl.plain (forms : List Form) : AlternativeDecl := ⟨none, forms.map (·.element)⟩

end Typeahead
