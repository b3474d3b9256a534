import Typeahead.Completion.Proposal

/-!
Completions: proposals with one result are merged, the literals that must follow are appended where all
of them agree, and the caret is placed where input goes on.
-/

namespace Typeahead

/-- Proposals that lead to the same text, in the order in which they came. -/
structure ProposalGroup where
  text : String
  first : Proposal
  others : List Proposal

namespace ProposalGroup

def put (text : String) (proposal : Proposal) : List ProposalGroup → List ProposalGroup
  | [] => [⟨text, proposal, []⟩]
  | group :: groups =>
    if group.text = text then ⟨text, group.first, group.others ++ [proposal]⟩ :: groups
    else group :: put text proposal groups

def ofProposals (content : String) (proposals : List Proposal) : List ProposalGroup :=
  proposals.foldl (fun groups proposal => put (proposal.result content) proposal groups) []

end ProposalGroup

/-- The bytes at the front of a text that are left once all characters but blanks have been matched
with `expected`; zero if they do not match. The text begins at byte `offset`, and `expected` is not
empty. -/
def skipFrom (offset : Nat) : (chars expected : List Char) → Nat
  | [], _ => 0
  | _ :: _, [] => 0
  | c :: chars, e :: expected =>
    if Text.isBlank c then skipFrom (offset + c.utf8Size) chars (e :: expected)
    else if c = e then
      if expected.isEmpty then offset + c.utf8Size
      else skipFrom (offset + c.utf8Size) chars expected
    else 0

/-- How many bytes at the front of a text the literals take, with blanks anywhere between their
characters, or zero if they are not all there. -/
def skipLiterals (text : String) (literals : List String) : Nat :=
  skipFrom 0 text.toList ((String.join literals).toList.filter fun c => !Text.isBlank c)

namespace Completer

/-- Whether a literal that ends a text needs a blank in front to be its own last token. -/
def needsBlank? (completer : Completer) (text literal : String) : Option Bool :=
  match completer.lexer.tokenize text with
  | .error _ => none
  | .ok tokens =>
    match tokens.getLast? with
    | none => some true
    | some last =>
      some (last.start != text.utf8ByteSize - literal.utf8ByteSize
        || last.stop != text.utf8ByteSize)

/-- Appends literals to a text, each with a blank in front if it needs one. There is no result if that
cannot be found out. -/
def appendLiterals (completer : Completer) :
    (literals : List String) → (text : String) → (budget : Nat) → Option String × Nat
  | [], text, budget => (some text, budget)
  | literal :: literals, text, budget =>
    if (completer.grammar.vocabulary.literalId? literal).isSome then
      let needs := spend budget none fun _ => completer.needsBlank? (text ++ literal) literal
      match needs.1 with
      | none => (none, needs.2)
      | some true => completer.appendLiterals literals (text ++ " " ++ literal) needs.2
      | some false => completer.appendLiterals literals (text ++ literal) needs.2
    else completer.appendLiterals literals (text ++ literal) budget

/-- The text after a suggestion is put in, with the literals that must follow it. -/
def extendedResult (completer : Completer) (content : String) (proposal : Proposal)
    (budget : Nat) : Option String × Nat :=
  let before := (Text.before? content proposal.start).getD content
  let after := (Text.after? content proposal.stop).getD ""
  let appended := completer.appendLiterals proposal.site.mandatoryAfter
    (before ++ proposal.suggestion.content) budget
  (appended.1.map (· ++ after), appended.2)

def agree (completer : Completer) (content text : String) :
    List Proposal → (budget : Nat) → Bool × Nat
  | [], budget => (true, budget)
  | proposal :: proposals, budget =>
    let extended := completer.extendedResult content proposal budget
    if extended.1 = some text then completer.agree content text proposals extended.2
    else (false, extended.2)

def agreedResult? (completer : Completer) (content : String) (group : ProposalGroup)
    (budget : Nat) : Option String × Nat :=
  match completer.extendedResult content group.first budget with
  | (none, budget) => (none, budget)
  | (some text, budget) =>
    let agreed := completer.agree content text group.others budget
    (if agreed.1 then some text else none, agreed.2)

/-- The edit that turns the buffer's content into `text`, which is the result of a group of proposals,
extended or not. The caret goes to the place to be filled in, or else behind the new text, or, if
nothing was appended, behind the literals that had to follow and are there already. -/
def editTo (buffer : Buffer) (group : ProposalGroup) (text : String) : Edit :=
  let first := group.first
  let stop := text.utf8ByteSize + first.stop - buffer.content.utf8ByteSize
  let caret :=
    match first.placeholder? with
    | some caret => first.start + caret
    | none =>
      if text = group.text then
        stop + skipLiterals ((Text.after? text stop).getD "") first.site.mandatoryAfter
      else stop
  { start := first.start
    stop := first.stop
    text := (Text.between? text first.start stop).getD ""
    caret
    description := first.suggestion.description }

/-- The edit of a group. Nothing is appended to what replaces text behind the caret. -/
def editOf (completer : Completer) (buffer : Buffer) (group : ProposalGroup) (budget : Nat) :
    Edit × Nat :=
  if group.first.stop ≤ buffer.caret then
    let agreed := completer.agreedResult? buffer.content group budget
    (editTo buffer group (agreed.1.getD group.text), agreed.2)
  else (editTo buffer group group.text, budget)

def editsOf (completer : Completer) (buffer : Buffer) :
    List ProposalGroup → (budget : Nat) → List Edit
  | [], _ => []
  | group :: groups, budget =>
    let edit := completer.editOf buffer group budget
    edit.1 :: completer.editsOf buffer groups edit.2

def dropSeen (buffer : Buffer) : (seen : List String) → List Edit → List Edit
  | _, [] => []
  | seen, edit :: edits =>
    let result := (edit.apply buffer).content
    if seen.contains result then dropSeen buffer seen edits
    else edit :: dropSeen buffer (result :: seen) edits

/-- The completions of a buffer as text of a rule, in the order in which their elements were found. No
two lead to the same text, and none leaves the text as it is. -/
def complete (completer : Completer) (buffer : Buffer) (rule : String) :
    Except RequestError (List Edit) :=
  (completer.collect buffer rule).map fun collected =>
    let groups := ProposalGroup.ofProposals buffer.content collected.1
    dropSeen buffer [buffer.content] (completer.editsOf buffer groups collected.2)

end Completer

end Typeahead
