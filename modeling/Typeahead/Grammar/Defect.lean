/-!
What can be wrong with the declarations of a grammar.
-/

namespace Typeahead

inductive Defect where
  | duplicateRule (rule : String)
  | emptyRule (rule : String)
  | emptyBlock (rule : String)
  | reservedName (rule : String)
  | unknownRule (rule target : String)
  | unknownLiteral (rule literal : String)
  | unknownToken (rule token : String)
  | badSuffix (rule suffix : String)
deriving DecidableEq

def Defect.message : Defect → String
  | duplicateRule rule => "rule `" ++ rule ++ "` is declared more than once"
  | emptyRule rule => "rule `" ++ rule ++ "` has no alternatives"
  | emptyBlock rule => "rule `" ++ rule ++ "` contains an inline block with no alternatives"
  | reservedName rule =>
    "rule name `" ++ rule ++ "` contains `#`, which is reserved for inline blocks"
  | unknownRule rule target => "rule `" ++ rule ++ "` refers to undeclared rule `" ++ target ++ "`"
  | unknownLiteral rule literal =>
    "rule `" ++ rule ++ "` uses literal '" ++ literal ++ "' missing from the token table"
  | unknownToken rule token =>
    "rule `" ++ rule ++ "` uses token `" ++ token ++ "` missing from the token table"
  | badSuffix rule suffix =>
    "rule `" ++ rule ++ "` has an element with invalid suffix `" ++ suffix ++ "`"

/-- All that is wrong with a grammar, in one line. -/
def Defect.summary (defects : List Defect) : String :=
  "invalid grammar: " ++ "; ".intercalate (defects.map message)

end Typeahead
