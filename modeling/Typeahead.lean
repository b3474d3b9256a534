import Typeahead.Lexer.Lexicon
import Typeahead.Lexer.Cursor
import Typeahead.Token.Listing
import Typeahead.Grammar.Layout
import Typeahead.Grammar.Mandatory
import Typeahead.Grammar.Sample
import Typeahead.Chart.Path
import Typeahead.Chart.Distance
import Typeahead.Completion.Complete
import Typeahead.Completion.Checked
import Typeahead.Proofs.Chart.Recognition
import Typeahead.Proofs.Chart.Links
import Typeahead.Proofs.Grammar.Refinement
import Typeahead.Proofs.Grammar.Spelling
import Typeahead.Proofs.Completion.Request
import Typeahead.Proofs.Lexer.Tiling
import Typeahead.Proofs.Text.Classes
import Typeahead.Proofs.Text.Trimming
import Typeahead.Proofs.Token.Writing
import Typeahead.Proofs.Lexer.Lexemes
import Typeahead.Proofs.Lexer.Separation
import Typeahead.Proofs.Lexer.Coverage
import Typeahead.Proofs.Lexer.Resumption
import Typeahead.Proofs.Lexer.Spacing
import Typeahead.Proofs.Lexer.Joining
import Typeahead.Proofs.Grammar.Walking
import Typeahead.Proofs.Grammar.Resolution
import Typeahead.Proofs.Grammar.Preorder
import Typeahead.Proofs.Grammar.References
import Typeahead.Proofs.Grammar.Numbering
import Typeahead.Proofs.Grammar.WellFormed
import Typeahead.Proofs.Grammar.Renaming
import Typeahead.Proofs.Grammar.Matching
import Typeahead.Proofs.Grammar.Extraction
import Typeahead.Proofs.Chart.Following
import Typeahead.Proofs.Chart.Reach
import Typeahead.Proofs.Chart.Climbing
import Typeahead.Proofs.Chart.Paths
import Typeahead.Proofs.Chart.Invariant
import Typeahead.Proofs.Chart.Agenda
import Typeahead.Proofs.Chart.Renaming
import Typeahead.Proofs.Completion.Grouping
import Typeahead.Proofs.Completion.Editing
import Typeahead.Proofs.Completion.Agreement
import Typeahead.Proofs.Completion.Range
import Typeahead.Proofs.Completion.Merging
import Typeahead.Proofs.Completion.Continuation
import Typeahead.Proofs.Completion.Appending
import Typeahead.Proofs.Completion.Replacing
import Typeahead.Proofs.Lexer.Stability
import Typeahead.Proofs.Completion.Keeping
import Typeahead.Proofs.Completion.Skipping
import Typeahead.Proofs.Completion.Chaining
import Typeahead.Proofs.Completion.Transparency
import Typeahead.Proofs.Sorting
import Typeahead.Proofs.Results
import Typeahead.Proofs.Chart.Enumeration
import Typeahead.Proofs.Completion.Asking
import Typeahead.Proofs.Grammar.Scanning
import Typeahead.Proofs.Chart.Greedy
import Typeahead.Proofs.Chart.Extent
import Typeahead.Proofs.Lexer.Cutting
import Typeahead.Proofs.Completion.Overreach
import Typeahead.Proofs.Completion.Budget
import Typeahead.Proofs.Completion.Limits
import Typeahead.Proofs.Grammar.Defects
import Typeahead.Proofs.Lexer.Munching
import Typeahead.Proofs.Completion.Separating
import Typeahead.Proofs.Chart.Prefix
import Typeahead.Proofs.Chart.Derivations
import Typeahead.Proofs.Chart.Chains
import Typeahead.Proofs.Completion.Refusing
import Typeahead.Proofs.Completion.Isolating
import Typeahead.Proofs.Token.Format
import Typeahead.Proofs.Token.Registration
import Typeahead.Proofs.Lexer.Delivery
import Typeahead.Proofs.Chart.Drafting
import Typeahead.Proofs.Chart.Tables
import Typeahead.Proofs.Chart.Upkeep
import Typeahead.Proofs.Completion.Measuring
