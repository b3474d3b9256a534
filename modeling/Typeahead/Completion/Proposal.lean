import Typeahead.Chart.Distance
import Typeahead.Completion.Edit
import Typeahead.Completion.Site
import Typeahead.Lexer.Basic
import Typeahead.Text.Blank

/-!
Proposals: what may be put in at the caret of a buffer, as found by parsing the text before the caret
and asking a source of suggestions.
-/

namespace Typeahead

structure Limits where
  /-- The most tokens that may stand before the caret. -/
  maxTokens : Nat := 4096
  /-- How often texts may be read anew in order to refine what is proposed. -/
  rereads : Nat := 256
  /-- The most tokens that are looked at to see how far a replaced text reaches. -/
  maxReach : Nat := 64
  /-- The most paths that are followed from one element. -/
  maxPaths : Nat := 256
deriving DecidableEq

structure Completer where
  grammar : Grammar
  lexer : Lexer
  source : Source
  limits : Limits := {}

inductive RequestError where
  | ruleNotFound (failure : RuleNotFound)
  | caretOutOfRange (caret size : Nat)
  | caretInsideCharacter (caret : Nat)
  | tooManyTokens (limit : Nat)
  | lex (cause : LexError)
deriving DecidableEq

def RequestError.message : RequestError → String
  | ruleNotFound failure => failure.message
  | caretOutOfRange caret size =>
    s!"caret {caret} is past the end of the input ({size} bytes)"
  | caretInsideCharacter caret => s!"caret {caret} is not on a character boundary"
  | tooManyTokens limit => s!"input has more than {limit} tokens before the caret"
  | lex _ => "failed to lex input"

/-- A suggestion, the site it is for, and the bytes of the input that it replaces. -/
structure Proposal where
  site : Site
  start : Nat
  stop : Nat
  suggestion : Suggestion

namespace Proposal

def result (proposal : Proposal) (content : String) : String :=
  Text.splice content proposal.start proposal.stop proposal.suggestion.content

/-- The suggestion's own caret, if it stands before the end of the suggestion. -/
def placeholder? (proposal : Proposal) : Option Nat :=
  proposal.suggestion.caret.filter (· < proposal.suggestion.content.utf8ByteSize)

end Proposal

/-- Takes one from a budget to find something out; once the budget is spent, `otherwise` is taken to
be so. -/
def spend {α : Type} (budget : Nat) (otherwise : α) (find : Unit → α) : α × Nat :=
  match budget with
  | 0 => (otherwise, 0)
  | budget + 1 => (find (), budget)

namespace Completer

/-- At most `limit` tokens, and no error among them. -/
def takeTokens (limit : Nat) : (left : Nat) → List Answer → Except RequestError (List Token)
  | _, [] => .ok []
  | 0, _ :: _ => .error (.tooManyTokens limit)
  | _ + 1, .error e :: _ => .error (.lex e)
  | left + 1, .ok token :: rest => (takeTokens limit left rest).map (token :: ·)

def prefixTokens (completer : Completer) (text : String) : Except RequestError (List Token) :=
  match completer.lexer.items text with
  | .error e => .error (.lex e)
  | .ok items => takeTokens completer.limits.maxTokens completer.limits.maxTokens items

def checkCaret (buffer : Buffer) : Except RequestError Unit :=
  let size := buffer.content.utf8ByteSize
  if size < buffer.caret then .error (.caretOutOfRange buffer.caret size)
  else if (Text.before? buffer.content buffer.caret).isNone then
    .error (.caretInsideCharacter buffer.caret)
  else .ok ()

def chart (completer : Completer) (buffer : Buffer) (rule : String) :
    Except RequestError Chart := do
  let start ← (completer.grammar.findRule rule).mapError .ruleNotFound
  checkCaret buffer
  let tokens ← completer.prefixTokens buffer.beforeCaret
  return .parse completer.grammar start tokens

/-- What is typed at a position: the text from the last token before it up to the caret, without the
blanks in front. -/
def typedAt (buffer : Buffer) (tokens : List Token) (position : Nat) : String :=
  Text.trimStart <|
    match position with
    | 0 => buffer.beforeCaret
    | before + 1 =>
      ((tokens[before]?).bind fun token =>
        Text.between? buffer.content token.stop buffer.caret).getD ""

def inquiriesAt (completer : Completer) (buffer : Buffer) (chart : Chart) (position : Nat) :
    List Inquiry :=
  let typed := typedAt buffer chart.tokens position
  (chart.expectingTerminal position).flatMap fun id =>
    (chart.paths completer.limits.maxPaths id).map fun path =>
      ⟨position, typed, Site.chain completer.grammar 0 path⟩

/-- What is asked in a request: the last token may be complete, or the front of a longer one, so the
position before it is looked at too. -/
def inquiries (completer : Completer) (buffer : Buffer) (chart : Chart) : List Inquiry :=
  let last := chart.positions - 1
  completer.inquiriesAt buffer chart last ++
    if last = 0 then [] else completer.inquiriesAt buffer chart (last - 1)

/-- Where the text that begins at `start` ends which the element matches and so would replace. -/
def reachEnd? (completer : Completer) (content : String) (start : Nat) (element : Element) :
    Option Nat := do
  let rest ← Text.after? content start
  let items ← (completer.lexer.items rest).toOption
  let tokens ← (allTokens (items.take completer.limits.maxReach)).toOption
  let first ← tokens.head?
  if first.start = 0 then
    let last ← (tokens.take (element.reach completer.grammar tokens)).getLast?
    return start + last.stop
  else none

/-- Whether a text put in behind `before` leaves the last of the tokens up to `position` as it was. If
the result cannot be read, it is taken to do so. -/
def keepsToken (completer : Completer) (tokens : List Token) (position : Nat) (before : String)
    (suggestion : Suggestion) : Bool :=
  match completer.lexer.tokenize (before ++ suggestion.content) with
  | .error _ => true
  | .ok reread =>
    match tokens[position - 1]?, reread[position - 1]? with
    | some old, some new =>
      position < reread.length && new.start == old.start && new.stop == old.stop
    | _, _ => false

def filterSuggestions (keeps : Suggestion → Bool) :
    List Suggestion → (budget : Nat) → List Suggestion × Nat
  | [], budget => ([], budget)
  | suggestion :: rest, budget =>
    let kept := spend budget true fun _ => keeps suggestion
    let others := filterSuggestions keeps rest kept.2
    (if kept.1 then suggestion :: others.1 else others.1, others.2)

def proposalsOf (completer : Completer) (buffer : Buffer) (tokens : List Token) (offer : Offer)
    (budget : Nat) : List Proposal × Nat :=
  let start := buffer.caret - offer.typed.utf8ByteSize
  let reach := spend budget none fun _ =>
    completer.reachEnd? buffer.content start offer.site.element
  let stop := max (reach.1.getD buffer.caret) buffer.caret
  let before := (Text.before? buffer.content start).getD ""
  let kept :=
    if offer.position = 0 then (offer.suggestions, reach.2)
    else filterSuggestions (completer.keepsToken tokens offer.position before) offer.suggestions
      reach.2
  (kept.1.map fun suggestion => ⟨offer.site, start, stop, suggestion⟩, kept.2)

def proposalsOfAll (completer : Completer) (buffer : Buffer) (tokens : List Token) :
    List Offer → (budget : Nat) → List Proposal × Nat
  | [], budget => ([], budget)
  | offer :: offers, budget =>
    let first := completer.proposalsOf buffer tokens offer budget
    let others := completer.proposalsOfAll buffer tokens offers first.2
    (first.1 ++ others.1, others.2)

/-- All proposals for a buffer, and what is left of the budget. -/
def collect (completer : Completer) (buffer : Buffer) (rule : String) :
    Except RequestError (List Proposal × Nat) :=
  (completer.chart buffer rule).map fun chart =>
    let offers := (completer.inquiries buffer chart).filterMap (·.offer? completer.source)
    completer.proposalsOfAll buffer chart.tokens offers completer.limits.rereads

/-- All proposals for a buffer, those included that change nothing. -/
def proposals (completer : Completer) (buffer : Buffer) (rule : String) :
    Except RequestError (List Proposal) :=
  (completer.collect buffer rule).map (·.1)

/-- What the source is asked in a request, in order: the sites, each with what is typed there. -/
def questions (completer : Completer) (buffer : Buffer) (rule : String) : List (Site × String) :=
  match completer.chart buffer rule with
  | .error _ => []
  | .ok chart =>
    (completer.inquiries buffer chart).flatMap fun inquiry =>
      (inquiry.asked completer.source).map fun site => (site, inquiry.typed)

end Completer

end Typeahead
