import Typeahead.Token.Vocabulary

/-!
Grammars: named rules with ordered alternatives, each a sequence of elements. An element matches a
token or what a rule derives, as often as its multiplicity allows.
-/

namespace Typeahead

inductive Multiplicity where
  | once
  | optional
  | star
  | plus
deriving DecidableEq

namespace Multiplicity

def ofSuffix? : String → Option Multiplicity
  | "" => some .once
  | "?" => some .optional
  | "*" => some .star
  | "+" => some .plus
  | _ => none

def suffix : Multiplicity → String
  | once => ""
  | optional => "?"
  | star => "*"
  | plus => "+"

def isOptional : Multiplicity → Bool
  | optional | star => true
  | once | plus => false

def isRepeatable : Multiplicity → Bool
  | star | plus => true
  | once | optional => false

theorem ofSuffix?_suffix (multiplicity : Multiplicity) :
    ofSuffix? multiplicity.suffix = some multiplicity := by
  cases multiplicity <;> rfl

end Multiplicity

/-- What a single occurrence of an element matches. Rules are referred to by their place in the
grammar. -/
inductive Symbol where
  | literal (text : String) (id : TokenId)
  /-- A token of a named kind. -/
  | token (name : String) (id : TokenId)
  | rule (target : Nat) (name : String)
  /-- A token with none of the ids, which are in ascending order. -/
  | noneOf (excluded : List TokenId)
  | any
deriving DecidableEq

namespace Symbol

def target? : Symbol → Option Nat
  | .rule target _ => some target
  | _ => none

def isTerminal (symbol : Symbol) : Bool := symbol.target?.isNone

def literal? : Symbol → Option String
  | .literal text _ => some text
  | _ => none

/-- Whether a token with the id matches. The end of the input is not excluded by name, and yet no
negated set and no wildcard accepts it. -/
def accepts (id : TokenId) : Symbol → Bool
  | .literal _ i | .token _ i => i == id
  | .rule _ _ => false
  | .noneOf excluded => id != .eof && !excluded.contains id
  | .any => id != .eof

end Symbol

structure Element where
  label : Option String
  symbol : Symbol
  multiplicity : Multiplicity
deriving DecidableEq

structure Alternative where
  label : Option String
  elements : List Element
deriving DecidableEq

inductive Origin where
  | parser
  | lexer
  | block
deriving DecidableEq

structure Rule where
  name : String
  origin : Origin
  alternatives : List Alternative
deriving DecidableEq

/-- Rules, and the vocabulary whose ids their elements hold. -/
structure Grammar where
  rules : List Rule
  vocabulary : Vocabulary
deriving DecidableEq

structure RuleNotFound where
  name : String
deriving DecidableEq

def RuleNotFound.message (failure : RuleNotFound) : String :=
  "no rule named `" ++ failure.name ++ "` in the grammar"

namespace Grammar

/-- The place of the rule with the given name. -/
def ruleIndex? (grammar : Grammar) (name : String) : Option Nat :=
  grammar.rules.findIdx? (·.name == name)

def findRule (grammar : Grammar) (name : String) : Except RuleNotFound Nat :=
  match grammar.ruleIndex? name with
  | some rule => .ok rule
  | none => .error ⟨name⟩

def ruleNamed? (grammar : Grammar) (name : String) : Option Rule :=
  grammar.rules.find? (·.name == name)

def isBlock (grammar : Grammar) (name : String) : Bool :=
  (grammar.ruleNamed? name).any (·.origin == .block)

def alternatives (grammar : Grammar) (rule : Nat) : List Alternative :=
  (grammar.rules[rule]?.map Rule.alternatives).getD []

/-- The elements of an alternative, none if there is no such alternative. -/
def elements (grammar : Grammar) (rule alternative : Nat) : List Element :=
  ((grammar.alternatives rule)[alternative]?.map Alternative.elements).getD []

def element? (grammar : Grammar) (rule alternative index : Nat) : Option Element :=
  (grammar.elements rule alternative)[index]?

end Grammar

end Typeahead
