import Typeset.Main
import Typeset.Run.Record
import Typeset.Proofs.Grammar.Derivation
import Typeset.Proofs.Grammar.Soundness
import Typeset.Proofs.Grammar.Listing
import Typeset.Proofs.Grammar.Completeness
import Typeset.Proofs.Grammar.Uniqueness
import Typeset.Proofs.Database.Declared
import Typeset.Proofs.Database.Parsing
import Typeset.Proofs.Database.Spelling
import Typeset.Proofs.Formula.Sameness
import Typeset.Proofs.Definition.Unguarded
import Typeset.Proofs.Grammar.Generic
import Typeset.Proofs.Database.Matching
import Typeset.Proofs.Definition.Compiled
import Typeset.Proofs.Definition.Covering
import Typeset.Proofs.Definition.Calls
import Typeset.Proofs.Definition.Built
import Typeset.Proofs.Definition.Termination
import Typeset.Proofs.Definition.Extension
import Typeset.Proofs.Definition.Compositional
import Typeset.Proofs.Definition.Shadowing
import Typeset.Proofs.Formula.Variables
import Typeset.Proofs.Formula.Instances
import Typeset.Proofs.Definition.Removal
import Typeset.Proofs.Definition.Failure
import Typeset.Proofs.Text.Runs
import Typeset.Proofs.Text.Words
import Typeset.Proofs.Text.Quoted
import Typeset.Proofs.Directive.Layout
import Typeset.Proofs.Directive.Exactness
import Typeset.Proofs.Highlight.Rules
import Typeset.Proofs.Highlight.Agreement
import Typeset.Proofs.Database.Outline
import Typeset.Proofs.Database.Scoping
import Typeset.Proofs.Database.Places
import Typeset.Proofs.Database.Comments
import Typeset.Proofs.Database.Grounded
import Typeset.Proofs.Page
import Typeset.Proofs.Database.Ending
import Typeset.Proofs.Definition.Subsumed
import Typeset.Proofs.Database.Infix
import Typeset.Proofs.Definition.Strictness
import Typeset.Proofs.Directive.Concatenation
import Typeset.Proofs.Definition.Concatenation
import Typeset.Proofs.Formula.Distinct
import Typeset.Proofs.Database.SyntaxSteps
import Typeset.Proofs.Database.Markup
import Typeset.Proofs.Database.Typesetting
import Typeset.Proofs.Text.Filling
import Typeset.Proofs.Definition.Templates
import Typeset.Proofs.Highlight.Lossless
import Typeset.Proofs.Definition.Typing
