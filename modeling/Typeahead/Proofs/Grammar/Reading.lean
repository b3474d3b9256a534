import Typeahead.Grammar.Declaration
import Typeahead.Proofs.Grammar.Language

/-!
Declarations read as they are written: a nested expression over tokens and named rules, in which a
block stands for its own alternatives in place.
-/

open Computability

namespace Typeahead

def SetItem.idIn (vocabulary : Vocabulary) : SetItem → Option TokenId
  | .literal text => vocabulary.literalId? text
  | .token name => vocabulary.nameId? name

section Reading

variable (vocabulary : Vocabulary) (lexical : Bool) (known : String → Language TokenId)

mutual

/-- The words of an element, its form as often as the suffix says. -/
def ElementDecl.reading : ElementDecl → Language TokenId
  | ⟨_, form, suffix⟩ =>
    match Multiplicity.ofSuffix? suffix with
    | none => 0
    | some multiplicity => multiplicity.repeated form.reading

/-- The words of one occurrence. What a lexer rule names and the vocabulary does not know is a token of
the invalid kind or any token; there negated sets are any token, too. The end of the input is never
any token, and by name it is no token at all. -/
def Form.reading : Form → Language TokenId
  | .literal text =>
    match vocabulary.literalId? text with
    | some id => TokenId.single (· = id)
    | none => if lexical then TokenId.single (· = .invalid) else 0
  | .token name =>
    match vocabulary.nameId? name with
    | some id => if id = .eof then 1 else TokenId.single (· = id)
    | none => if lexical then TokenId.single (· ≠ .eof) else 0
  | .rule name => known name
  | .noneOf items =>
    if lexical then TokenId.single (· ≠ .eof)
    else TokenId.single fun id =>
      id ≠ .eof ∧ ∀ item ∈ items, item.idIn vocabulary ≠ some id
  | .any => TokenId.single (· ≠ .eof)
  | .block alternatives => AlternativeDecl.choice alternatives

/-- The words of elements one behind the other. -/
def ElementDecl.row : List ElementDecl → Language TokenId
  | [] => 1
  | decl :: decls => decl.reading * ElementDecl.row decls

def AlternativeDecl.reading : AlternativeDecl → Language TokenId
  | ⟨_, decls⟩ => ElementDecl.row decls

/-- The words of any one of some alternatives. -/
def AlternativeDecl.choice : List AlternativeDecl → Language TokenId
  | [] => 0
  | decl :: decls => decl.reading + AlternativeDecl.choice decls

end

end Reading

/-- A declared rule matches the words of its alternatives, where names of rules stand for words that
are known to be matched. -/
inductive RuleDecl.Matches (vocabulary : Vocabulary) (decls : List RuleDecl) :
    (name : String) → (word : List TokenId) → Prop where
  | of_alternative {decl : RuleDecl} {word : List TokenId} (known : String → Language TokenId)
      (matched : ∀ name piece, piece ∈ known name → RuleDecl.Matches vocabulary decls name piece)
      (declared : decl ∈ decls)
      (chosen : word ∈ AlternativeDecl.choice vocabulary decl.lexical known decl.alternatives) :
      RuleDecl.Matches vocabulary decls decl.name word

end Typeahead
