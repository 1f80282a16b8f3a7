import Sveltify.Main
import Sveltify.Proofs.Batch.Duplicates
import Sveltify.Proofs.Batch.StyleModules
import Sveltify.Proofs.Component.Assignment
import Sveltify.Proofs.Component.Entries
import Sveltify.Proofs.Component.HelperNames
import Sveltify.Proofs.Component.History
import Sveltify.Proofs.Component.Identifiers
import Sveltify.Proofs.Component.Losses
import Sveltify.Proofs.Component.Mentions
import Sveltify.Proofs.Config
import Sveltify.Proofs.Cuts
import Sveltify.Proofs.Markup.Conditionals
import Sveltify.Proofs.Markup.Elements
import Sveltify.Proofs.Markup.Numbering
import Sveltify.Proofs.ModuleCode
import Sveltify.Proofs.Relative
import Sveltify.Proofs.Source.Additive
import Sveltify.Proofs.Source.Outermost
import Sveltify.Proofs.Source.Statements
import Sveltify.Proofs.Style.Canonical
import Sveltify.Proofs.Style.Comments
import Sveltify.Proofs.Style.Exports
import Sveltify.Proofs.Style.FixedPoint
import Sveltify.Proofs.Style.RootLines
import Sveltify.Proofs.UnusedDeclarations
