import Typeahead.Grammar.Declaration
import Typeahead.Grammar.Defect
import Typeahead.Sorting

/-!
From declarations to a grammar. Names are resolved against the vocabulary and the declared rules, and
each block becomes a rule of its own, numbered in the order in which the blocks open. Either there is
a grammar or there is a list of all defects.
-/

namespace Typeahead

/-- What declarations are compiled to: a value, the rules of the blocks inside, and the defects. -/
structure Compiled (α : Type) where
  value : α
  blocks : List Rule := []
  defects : List Defect := []

structure Scope where
  vocabulary : Vocabulary
  /-- The names of all declared rules, in order. -/
  declared : List String
  rule : String
  lexical : Bool

namespace Scope

def blockName (scope : Scope) (number : Nat) : String := scope.rule ++ "#block" ++ toString number

def itemId? (scope : Scope) : SetItem → Option TokenId
  | .literal text => scope.vocabulary.literalId? text
  | .token name => scope.vocabulary.nameId? name

def unknownItem (scope : Scope) : SetItem → Defect
  | .literal text => .unknownLiteral scope.rule text
  | .token name => .unknownToken scope.rule name

def idSet (ids : List TokenId) : List TokenId := sortByKey TokenId.toInt ids.eraseDups

/-- What an element without a block matches. A reference to the end of the input matches nothing and is
left out. In a lexer rule an unknown literal has the invalid id, and unknown tokens and negated sets
match every token. -/
def symbol? (scope : Scope) : Form → Compiled (Option Symbol)
  | .literal text =>
    match scope.vocabulary.literalId? text with
    | some id => { value := some (.literal text id) }
    | none =>
      if scope.lexical then { value := some (.literal text .invalid) }
      else { value := none, defects := [.unknownLiteral scope.rule text] }
  | .token name =>
    match scope.vocabulary.nameId? name with
    | some id => { value := if id = .eof then none else some (.token name id) }
    | none =>
      if scope.lexical then { value := some .any }
      else { value := none, defects := [.unknownToken scope.rule name] }
  | .rule name =>
    match scope.declared.findIdx? (· == name) with
    | some target => { value := some (.rule target name) }
    | none => { value := none, defects := [.unknownRule scope.rule name] }
  | .noneOf items =>
    if scope.lexical then { value := some .any }
    else
      { value := some (.noneOf (idSet (items.filterMap scope.itemId?)))
        defects := (items.filter fun item => (scope.itemId? item).isNone).map scope.unknownItem }
  | .any => { value := some .any }
  | .block _ => { value := none }

mutual

/-- Compiles an element; the first block inside it gets the number `next`. An element with a bad suffix
is not looked into. -/
def element (scope : Scope) (next : Nat) : ElementDecl → Compiled (Option Element)
  | ⟨label, form, suffix⟩ =>
    match Multiplicity.ofSuffix? suffix with
    | none => { value := none, defects := [.badSuffix scope.rule suffix] }
    | some multiplicity =>
      let compiled := scope.form next form
      { compiled with value := compiled.value.map fun symbol => ⟨label, symbol, multiplicity⟩ }

def form (scope : Scope) (next : Nat) : Form → Compiled (Option Symbol)
  | .block alternatives =>
    let inner := scope.alternatives (next + 1) alternatives
    let name := scope.blockName next
    { value := some (.rule (scope.declared.length + next) name)
      blocks := ⟨name, .block, inner.value⟩ :: inner.blocks
      defects := (if alternatives.isEmpty then [.emptyBlock scope.rule] else []) ++ inner.defects }
  | other => scope.symbol? other

def elements (scope : Scope) (next : Nat) : List ElementDecl → Compiled (List Element)
  | [] => { value := [] }
  | decl :: decls =>
    let first := scope.element next decl
    let others := scope.elements (next + first.blocks.length) decls
    { value := first.value.toList ++ others.value
      blocks := first.blocks ++ others.blocks
      defects := first.defects ++ others.defects }

def alternative (scope : Scope) (next : Nat) : AlternativeDecl → Compiled Alternative
  | ⟨label, decls⟩ =>
    let compiled := scope.elements next decls
    { compiled with value := ⟨label, compiled.value⟩ }

def alternatives (scope : Scope) (next : Nat) : List AlternativeDecl → Compiled (List Alternative)
  | [] => { value := [] }
  | decl :: decls =>
    let first := scope.alternative next decl
    let others := scope.alternatives (next + first.blocks.length) decls
    { value := first.value :: others.value
      blocks := first.blocks ++ others.blocks
      defects := first.defects ++ others.defects }

end

end Scope

namespace RuleDecl

/-- What is wrong with the names of rules that follow those named `earlier`. -/
def nameDefects (earlier : List String) : List RuleDecl → List Defect
  | [] => []
  | decl :: decls =>
    (if decl.name.toList.contains '#' then [.reservedName decl.name] else []) ++
      (if earlier.contains decl.name then [.duplicateRule decl.name] else []) ++
      nameDefects (decl.name :: earlier) decls

/-- Compiles a rule; its first block gets the number `next`. -/
def compile (vocabulary : Vocabulary) (declared : List String) (next : Nat) (decl : RuleDecl) :
    Compiled (Option Rule) :=
  if decl.alternatives.isEmpty then { value := none, defects := [.emptyRule decl.name] }
  else
    let compiled := Scope.alternatives ⟨vocabulary, declared, decl.name, decl.lexical⟩ next
      decl.alternatives
    let origin := if decl.lexical then Origin.lexer else .parser
    { compiled with value := some ⟨decl.name, origin, compiled.value⟩ }

/-- Compiles rules that follow those named `earlier`. Of two rules with one name only the first is
looked into. -/
def compileAll (vocabulary : Vocabulary) (declared : List String) (earlier : List String)
    (next : Nat) : List RuleDecl → Compiled (List Rule)
  | [] => { value := [] }
  | decl :: decls =>
    let first :=
      if earlier.contains decl.name then { value := none }
      else decl.compile vocabulary declared next
    let others :=
      compileAll vocabulary declared (decl.name :: earlier) (next + first.blocks.length) decls
    { value := first.value.toList ++ others.value
      blocks := first.blocks ++ others.blocks
      defects := first.defects ++ others.defects }

end RuleDecl

/-- The grammar of declared rules, followed by the rules of their blocks; or all defects, those of
names first. -/
def Grammar.compile (vocabulary : Vocabulary) (decls : List RuleDecl) :
    Except (List Defect) Grammar :=
  let compiled := RuleDecl.compileAll vocabulary (decls.map RuleDecl.name) [] 0 decls
  let defects := RuleDecl.nameDefects [] decls ++ compiled.defects
  if defects.isEmpty then .ok ⟨compiled.value ++ compiled.blocks, vocabulary⟩ else .error defects

end Typeahead
