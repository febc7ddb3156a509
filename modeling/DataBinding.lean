import DataBinding.Decimal.Reading
import DataBinding.Proofs.Equality
import DataBinding.Proofs.StaleText
import DataBinding.Proofs.FormValue
import DataBinding.Proofs.DocumentOrder
import DataBinding.Proofs.Rereading
import DataBinding.Proofs.Dependencies
import DataBinding.Proofs.Recompiling
import DataBinding.Proofs.Release
import DataBinding.Proofs.Transparency
import DataBinding.Proofs.Firing
import DataBinding.Proofs.BindingOrder
import DataBinding.Proofs.Brackets
import DataBinding.Proofs.Observation
import DataBinding.Proofs.Conversion
import DataBinding.Proofs.FanOut
import DataBinding.Proofs.Mirroring
import DataBinding.Proofs.Unheard
import DataBinding.Proofs.Mentions
import DataBinding.Proofs.Unfolding
import DataBinding.Proofs.RoundTrip
import DataBinding.Proofs.Tokens
import DataBinding.Proofs.Naming
import DataBinding.Proofs.TextContent
import DataBinding.Proofs.FirstMatch
import DataBinding.Proofs.Dispatching
import DataBinding.Proofs.Telling
import DataBinding.Scenario.Questions
