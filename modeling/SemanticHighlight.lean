import SemanticHighlight.Json.Shared
import SemanticHighlight.Settings.Source
import SemanticHighlight.Proofs.Document.Encoding
import SemanticHighlight.Proofs.Exchange.Run
import SemanticHighlight.Proofs.Token.Excerpt
import SemanticHighlight.Proofs.Document.Named
import SemanticHighlight.Proofs.Workspace.Failure
import SemanticHighlight.Proofs.Workspace.Audience
import SemanticHighlight.Proofs.Workspace.Handles
import SemanticHighlight.Proofs.Workspace.Chains
import SemanticHighlight.Proofs.Workspace.OpenSet
import SemanticHighlight.Proofs.Edit.Chain
import SemanticHighlight.Proofs.Json.RoundTrip
import SemanticHighlight.Proofs.Edit.Least
import SemanticHighlight.Proofs.Token.Narrowing
import SemanticHighlight.Proofs.Token.Locality
import SemanticHighlight.Proofs.Edit.Batch
import SemanticHighlight.Proofs.Legend.Masks
import SemanticHighlight.Proofs.Legend.TypeNames
import SemanticHighlight.Proofs.Token.Sorted
import SemanticHighlight.Proofs.Settings.Override
