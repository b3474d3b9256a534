import Typeahead.Grammar.Compile

/-!
Small grammars that show what the library does.
-/

namespace Typeahead.Sample

def vocabulary (entries : List Entry) : Vocabulary := entries.foldl Vocabulary.add .initial

def callVocabulary : Vocabulary := vocabulary
  [.name "NAME" ⟨1⟩, .literal "(" ⟨2⟩, .literal ")" ⟨3⟩, .literal "," ⟨4⟩, .name "WS" ⟨5⟩]

def rule (name : String) (alternatives : List AlternativeDecl) : RuleDecl :=
  ⟨name, false, alternatives⟩

/-- Calls of named functions: `NAME '(' args? ')'`, with `args` for `NAME (',' NAME)*`. -/
def call : Except (List Defect) Grammar := Grammar.compile callVocabulary
  [rule "call"
    [⟨none, [Form.element (.token "NAME"), Form.element (.literal "("),
      Form.element (.rule "args") "?", Form.element (.literal ")")]⟩],
   rule "args"
    [⟨none, [Form.element (.token "NAME"),
      Form.element (.block [.plain [.literal ",", .token "NAME"]]) "*"]⟩]]

def callGrammar : Grammar := call.toOption.getD ⟨[], callVocabulary⟩

/-- Two keywords of which one begins with the other. -/
def keyword : Except (List Defect) Grammar := Grammar.compile
  (vocabulary [.literal "for" ⟨1⟩, .literal "forme" ⟨2⟩, .name "NAME" ⟨3⟩])
  [rule "alt" [.plain [.literal "for"], .plain [.literal "forme"]]]

/-- Search queries: one or more of `'key' ':' value`. -/
def query : Except (List Defect) Grammar := Grammar.compile
  (vocabulary [.literal "key" ⟨1⟩, .literal ":" ⟨2⟩, .name "NAME" ⟨3⟩, .name "QUOTED" ⟨4⟩])
  [rule "query" [⟨none, [Form.element (.rule "criteria") "+"]⟩],
   rule "criteria"
    [⟨none, [⟨some "k", .literal "key", ""⟩, Form.element (.literal ":"),
      ⟨some "v", .rule "value", ""⟩]⟩],
   rule "value"
    [⟨some "plain", [Form.element (.token "NAME")]⟩,
     ⟨some "quoted", [Form.element (.token "QUOTED")]⟩]]

/-- Two alternatives that begin alike. -/
def pair : Except (List Defect) Grammar := Grammar.compile
  (vocabulary [.name "NAME" ⟨1⟩, .name "NUMBER" ⟨2⟩, .literal "," ⟨3⟩])
  [rule "pair"
    [.plain [.token "NAME", .literal ",", .token "NAME"],
     .plain [.token "NAME", .literal ",", .token "NUMBER"]]]

/-- One language written with a block and with a named rule. -/
def block : Except (List Defect) Grammar := Grammar.compile
  (vocabulary [.literal "x" ⟨1⟩, .literal "a" ⟨2⟩, .literal "b" ⟨3⟩])
  [rule "blocked" [.plain [.literal "x", .block [.plain [.literal "a", .literal "b"]]]],
   rule "named" [.plain [.literal "x", .rule "ab"]],
   rule "ab" [.plain [.literal "a", .literal "b"]]]

/-- Statements of any tokens but two, ended by a semicolon. -/
def negated : Except (List Defect) Grammar := Grammar.compile
  (vocabulary [.literal "a" ⟨1⟩, .literal "b" ⟨2⟩, .literal ";" ⟨3⟩, .name "NAME" ⟨4⟩])
  [rule "stmt"
    [⟨none, [Form.element (.noneOf [.literal "a", .literal "b"]) "+",
      Form.element (.literal ";")]⟩]]

/-- Sums, left-recursive, with an alternative that matches nothing. -/
def expr : Except (List Defect) Grammar := Grammar.compile
  (vocabulary [.name "NAME" ⟨1⟩, .literal "+" ⟨2⟩, .literal "!" ⟨3⟩])
  [rule "expr" [.plain [.rule "expr", .literal "+", .rule "term"], .plain [.rule "term"]],
   rule "term" [.plain [.token "NAME", .rule "suffix"]],
   rule "suffix" [.plain [.literal "!"], .plain []]]

/-- Names one behind the other, right-recursive. -/
def list : Except (List Defect) Grammar := Grammar.compile callVocabulary
  [rule "list" [.plain [.token "NAME", .rule "list"], .plain [.token "NAME"]]]

end Typeahead.Sample
