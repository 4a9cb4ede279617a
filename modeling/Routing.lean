import Routing.Query.Data
import Routing.Query.Render
import Routing.Router.Resolve
import Routing.Proofs.Graph.Words
import Routing.Proofs.Graph.Trie
import Routing.Proofs.Graph.Insert
import Routing.Proofs.Graph.Walk
import Routing.Proofs.Batch.Pieces
import Routing.Proofs.Router.Registration
import Routing.Proofs.Router.History
import Routing.Proofs.Router.Acceptance
import Routing.Proofs.Pattern.Reading
import Routing.Proofs.Percent.Escapes
import Routing.Proofs.Percent.Spelling
import Routing.Proofs.Percent.Uri
import Routing.Proofs.Normalizer.NormalForm
import Routing.Proofs.Percent.Codec
import Routing.Proofs.Pattern.Literal
import Routing.Proofs.Normalizer.Paths
import Routing.Proofs.Normalizer.Plain
import Routing.Proofs.Batch.Reading
import Routing.Proofs.Batch.Lifting
import Routing.Proofs.Batch.Ending
import Routing.Proofs.Normalizer.Canonical
import Routing.Proofs.Router.Forms
import Routing.Proofs.Router.Agreement
import Routing.Proofs.Router.Hits
import Routing.Proofs.Router.Encodings
import Routing.Proofs.Batch.Rendering
import Routing.Proofs.Query.Writing
import Routing.Proofs.Query.RoundTrip
import Routing.Proofs.Query.Reading
import Routing.Proofs.Query.Events
import Routing.Proofs.Query.Canonical
import Routing.Proofs.Router.RoundTrip
import Routing.Proofs.Graph.Order
import Routing.Proofs.Router.Frame
import Routing.Proofs.Router.Ending
import Routing.Proofs.Batch.Kinds
import Routing.Proofs.Router.Permutation
import Routing.Proofs.Batch.Extraction
import Routing.Proofs.Router.Extraction
import Routing.Proofs.Pattern.Spelled
import Routing.Proofs.Router.Modes
import Routing.Proofs.Router.Single
import Routing.Proofs.Router.Static
import Routing.Proofs.Pattern.ClosingSlash
import Routing.Proofs.Percent.Scan
import Routing.Proofs.Router.ClosingSlash
import Routing.Proofs.Router.Sent
import Routing.Proofs.Batch.Runs
import Routing.Proofs.Router.Runs
import Routing.Proofs.Router.Regeneration
import Routing.Proofs.Graph.Prefixes
import Routing.Proofs.Router.States
import Routing.Proofs.Router.Joined
import Routing.Proofs.Router.Written
import Routing.Proofs.Router.Verbatim
import Routing.Proofs.Pattern.Groups
import Routing.Proofs.Router.Alignment
import Routing.Proofs.Specificity
import Routing.Proofs.Router.Outcomes
