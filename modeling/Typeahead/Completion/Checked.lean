import Typeahead.Completion.Complete

/-!
Requests with every cut of a text, every look-up of a place and every difference checked. Where one of them
is out of range there is a fault in place of an answer; where none is, the answer is that of the
unchecked request.
-/

namespace Typeahead

inductive Fault where
  | slice
  | index
  | difference
deriving DecidableEq

abbrev Checked := Except Fault

namespace Checked

variable {α β : Type}

def slice (part : Option String) : Checked String := part.elim (.error .slice) .ok

def index (entry : Option α) : Checked α := entry.elim (.error .index) .ok

def difference (whole part : Nat) : Checked Nat :=
  if part ≤ whole then .ok (whole - part) else .error .difference

def spend (budget : Nat) (otherwise : α) (find : Unit → Checked α) : Checked (α × Nat) :=
  match budget with
  | 0 => return (otherwise, 0)
  | budget + 1 => do return (← find (), budget)

section Proposals

variable (completer : Completer) (buffer : Buffer)

def typedAt (tokens : List Token) : (position : Nat) → Checked String
  | 0 => return Text.trimStart buffer.beforeCaret
  | before + 1 => do
    let token ← index tokens[before]?
    return Text.trimStart ((Text.between? buffer.content token.stop buffer.caret).getD "")

def inquiriesAt (chart : Chart) (position : Nat) : Checked (List Inquiry) := do
  let typed ← typedAt buffer chart.tokens position
  return (chart.expectingTerminal position).flatMap fun id =>
    (chart.paths completer.limits.maxPaths id).map fun path =>
      ⟨position, typed, Site.chain completer.grammar 0 path⟩

def inquiries (chart : Chart) : Checked (List Inquiry) := do
  let last ← difference chart.positions 1
  let here ← inquiriesAt completer buffer chart last
  if last = 0 then return here
  else
    let before ← difference last 1
    return here ++ (← inquiriesAt completer buffer chart before)

def reachEnd (content : String) (start : Nat) (element : Element) : Checked (Option Nat) := do
  let rest ← slice (Text.after? content start)
  match (completer.lexer.items rest).toOption.bind fun items =>
      (allTokens (items.take completer.limits.maxReach)).toOption with
  | none => return none
  | some tokens =>
    if tokens.head?.any (·.start = 0) then
      match element.reach completer.grammar tokens with
      | 0 => return none
      | before + 1 => do
        let last ← index tokens[before]?
        return some (start + last.stop)
    else return none

def keepsToken (tokens : List Token) (position : Nat) (before : String) (suggestion : Suggestion) :
    Checked Bool := do
  let place ← difference position 1
  let old ← index tokens[place]?
  match completer.lexer.tokenize (before ++ suggestion.content) with
  | .error _ => return true
  | .ok reread =>
    if position < reread.length then
      let new ← index reread[place]?
      return new.start == old.start && new.stop == old.stop
    else return false

def filterSuggestions (keeps : Suggestion → Checked Bool) :
    List Suggestion → (budget : Nat) → Checked (List Suggestion × Nat)
  | [], budget => return ([], budget)
  | suggestion :: rest, budget => do
    let kept ← spend budget true fun _ => keeps suggestion
    let others ← filterSuggestions keeps rest kept.2
    return (if kept.1 then suggestion :: others.1 else others.1, others.2)

def proposalsOf (tokens : List Token) (offer : Offer) (budget : Nat) :
    Checked (List Proposal × Nat) := do
  let start ← difference buffer.caret offer.typed.utf8ByteSize
  let reach ← spend budget none fun _ =>
    reachEnd completer buffer.content start offer.site.element
  let before ← slice (Text.before? buffer.content start)
  let kept ←
    if offer.position = 0 then .ok (offer.suggestions, reach.2)
    else filterSuggestions (keepsToken completer tokens offer.position before) offer.suggestions reach.2
  return (kept.1.map fun suggestion =>
    ⟨offer.site, start, max (reach.1.getD buffer.caret) buffer.caret, suggestion⟩, kept.2)

def proposalsOfAll (tokens : List Token) :
    List Offer → (budget : Nat) → Checked (List Proposal × Nat)
  | [], budget => return ([], budget)
  | offer :: offers, budget => do
    let first ← proposalsOf completer buffer tokens offer budget
    let others ← proposalsOfAll tokens offers first.2
    return (first.1 ++ others.1, others.2)

def collect (rule : String) : Checked (Except RequestError (List Proposal × Nat)) :=
  match completer.chart buffer rule with
  | .error failure => return .error failure
  | .ok chart => do
    let asked ← inquiries completer buffer chart
    let offers := asked.filterMap (·.offer? completer.source)
    return .ok (← proposalsOfAll completer buffer chart.tokens offers completer.limits.rereads)

def proposals (rule : String) : Checked (Except RequestError (List Proposal)) := do
  return (← collect completer buffer rule).map (·.1)

end Proposals

section Edits

variable (completer : Completer) (buffer : Buffer)

def result (content : String) (proposal : Proposal) : Checked String := do
  let before ← slice (Text.before? content proposal.start)
  let after ← slice (Text.after? content proposal.stop)
  return before ++ proposal.suggestion.content ++ after

def groupsFrom (content : String) :
    List ProposalGroup → List Proposal → Checked (List ProposalGroup)
  | groups, [] => return groups
  | groups, proposal :: proposals => do
    let text ← result content proposal
    groupsFrom content (ProposalGroup.put text proposal groups) proposals

def skipFrom (offset : Nat) : (chars expected : List Char) → Checked Nat
  | [], _ => return 0
  | c :: chars, expected =>
    if Text.isBlank c then skipFrom (offset + c.utf8Size) chars expected
    else
      match expected with
      | [] => .error .index
      | e :: expected =>
        if c = e then
          if expected.isEmpty then return offset + c.utf8Size
          else skipFrom (offset + c.utf8Size) chars expected
        else return 0

def skipLiterals (text : String) (literals : List String) : Checked Nat :=
  let expected := (String.join literals).toList.filter fun c => !Text.isBlank c
  if expected.isEmpty then return 0 else skipFrom 0 text.toList expected

def needsBlank (text literal : String) : Checked (Option Bool) :=
  match completer.lexer.tokenize text with
  | .error _ => return none
  | .ok tokens =>
    match tokens.getLast? with
    | none => return some true
    | some last => do
      let place ← difference text.utf8ByteSize literal.utf8ByteSize
      return some (last.start != place || last.stop != text.utf8ByteSize)

def appendLiterals : (literals : List String) → (text : String) → (budget : Nat) →
    Checked (Option String × Nat)
  | [], text, budget => return (some text, budget)
  | literal :: literals, text, budget =>
    if (completer.grammar.vocabulary.literalId? literal).isSome then do
      let needs ← spend budget none fun _ => needsBlank completer (text ++ literal) literal
      match needs.1 with
      | none => return (none, needs.2)
      | some true => appendLiterals literals (text ++ " " ++ literal) needs.2
      | some false => appendLiterals literals (text ++ literal) needs.2
    else appendLiterals literals (text ++ literal) budget

def extendedResult (content : String) (proposal : Proposal) (budget : Nat) :
    Checked (Option String × Nat) := do
  let before ← slice (Text.before? content proposal.start)
  let appended ← appendLiterals completer proposal.site.mandatoryAfter
    (before ++ proposal.suggestion.content) budget
  match appended.1 with
  | none => return (none, appended.2)
  | some text => do
    let after ← slice (Text.after? content proposal.stop)
    return (some (text ++ after), appended.2)

def agree (content text : String) : List Proposal → (budget : Nat) → Checked (Bool × Nat)
  | [], budget => return (true, budget)
  | proposal :: proposals, budget => do
    let extended ← extendedResult completer content proposal budget
    if extended.1 = some text then agree content text proposals extended.2
    else return (false, extended.2)

def agreedResult (content : String) (group : ProposalGroup) (budget : Nat) :
    Checked (Option String × Nat) := do
  let extended ← extendedResult completer content group.first budget
  match extended.1 with
  | none => return (none, extended.2)
  | some text => do
    let agreed ← agree completer content text group.others extended.2
    return (if agreed.1 then some text else none, agreed.2)

def caretIn (group : ProposalGroup) (text : String) (stop : Nat) : Checked Nat :=
  match group.first.placeholder? with
  | some caret => return group.first.start + caret
  | none =>
    if text = group.text then do
      let behind ← slice (Text.after? text stop)
      let skipped ← skipLiterals behind group.first.site.mandatoryAfter
      return stop + skipped
    else return stop

def editTo (group : ProposalGroup) (text : String) : Checked Edit := do
  let first := group.first
  let stop ← difference (text.utf8ByteSize + first.stop) buffer.content.utf8ByteSize
  let caret ← caretIn group text stop
  let new ← slice (Text.between? text first.start stop)
  return {
    start := first.start
    stop := first.stop
    text := new
    caret
    description := first.suggestion.description }

def editOf (group : ProposalGroup) (budget : Nat) : Checked (Edit × Nat) :=
  if group.first.stop ≤ buffer.caret then do
    let agreed ← agreedResult completer buffer.content group budget
    let edit ← editTo buffer group (agreed.1.getD group.text)
    return (edit, agreed.2)
  else do
    let edit ← editTo buffer group group.text
    return (edit, budget)

def editsOf : List ProposalGroup → (budget : Nat) → Checked (List Edit)
  | [], _ => return []
  | group :: groups, budget => do
    let edit ← editOf completer buffer group budget
    let others ← editsOf groups edit.2
    return edit.1 :: others

def complete (rule : String) : Checked (Except RequestError (List Edit)) := do
  match ← collect completer buffer rule with
  | .error failure => return .error failure
  | .ok collected => do
    let groups ← groupsFrom buffer.content [] collected.1
    let edits ← editsOf completer buffer groups collected.2
    return .ok (Completer.dropSeen buffer [buffer.content] edits)

end Edits

end Checked

end Typeahead
