import SelectionModel.Main
import SelectionModel.Json.Reader
import SelectionModel.Tree.Decoding
import SelectionModel.Proofs.Tree.Subfields
import SelectionModel.Proofs.Groups
import SelectionModel.Proofs.Merging.Interfaces
import SelectionModel.Proofs.Merging.Implementations
import SelectionModel.Proofs.Merging.Fields
import SelectionModel.Proofs.Merging.Depth
import SelectionModel.Proofs.Lowering.Depth
import SelectionModel.Proofs.Lowering.Derivation
import SelectionModel.Proofs.Lowering.Scopes
import SelectionModel.Proofs.Lowering.Invariant
import SelectionModel.Proofs.Lowering.Failures
import SelectionModel.Proofs.Partition
import SelectionModel.Proofs.Lowering.Built
import SelectionModel.Proofs.Collection.Kept
import SelectionModel.Proofs.Collection.Pooled
import SelectionModel.Proofs.Lowering.Erasure
import SelectionModel.Proofs.Collection.Behind
import SelectionModel.Proofs.Keys
import SelectionModel.Proofs.SelfMerging
import SelectionModel.Proofs.Lowering.Complete
import SelectionModel.Proofs.Lowering.Narrowing
import SelectionModel.Proofs.Spreads
import SelectionModel.Proofs.UsedFragments.Walk
import SelectionModel.Proofs.UsedFragments.Search
import SelectionModel.Proofs.Source.Scan
import SelectionModel.Proofs.UsedFragments.Text
import SelectionModel.Proofs.Locality
import SelectionModel.Proofs.Lowering.Conditions
import SelectionModel.Proofs.Conditions
import SelectionModel.Proofs.Language.Lexemes
import SelectionModel.Proofs.Language.Rules
import SelectionModel.Proofs.Language.Brackets
import SelectionModel.Proofs.Source.Tokens
import SelectionModel.Proofs.Source.Counting
import SelectionModel.Proofs.Source.Positions
import SelectionModel.Proofs.Source.Definitions
import SelectionModel.Proofs.Arrangement
import SelectionModel.Proofs.Roots
import SelectionModel.Proofs.Tree.RoundTrip
import SelectionModel.Proofs.Tree.AcceptedKeys
import SelectionModel.Proofs.JsonForm
import SelectionModel.Proofs.Merging.Order
import SelectionModel.Proofs.Lowering.Comparison
import SelectionModel.Proofs.Lowering.Pruning
import SelectionModel.Proofs.Pruning
import SelectionModel.Proofs.Schema.Drafts
import SelectionModel.Proofs.Schema.PossibleTypes
import SelectionModel.Proofs.Interfaces
import SelectionModel.Proofs.ImplementationNames
import SelectionModel.Proofs.Lowering.Calls
import SelectionModel.Proofs.Termination
import SelectionModel.Proofs.Patching
import SelectionModel.Proofs.Coercion.Admissible
import SelectionModel.Proofs.Coercion.Defaults
import SelectionModel.Proofs.Copies
import SelectionModel.Proofs.Schema.Loading
import SelectionModel.Proofs.Schema.Extensions
import SelectionModel.Proofs.Schema.RootTypes
import SelectionModel.Proofs.Registration
import SelectionModel.Proofs.Source.DefinitionTexts
import SelectionModel.Source.ByteScan
import SelectionModel.Proofs.Source.ByteScan
import SelectionModel.Proofs.Source.Offsets
import SelectionModel.Proofs.Merging.Calls
import SelectionModel.Proofs.Merging.Ending
import SelectionModel.Proofs.Lowering.Provenance
import SelectionModel.Proofs.Lowering.Defects
import SelectionModel.Proofs.Locations
