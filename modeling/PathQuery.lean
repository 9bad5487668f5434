import PathQuery.Main
import PathQuery.Proofs.Evaluation.Composition
import PathQuery.Proofs.Number.Exact
import PathQuery.Proofs.Path.Classification
import PathQuery.Proofs.Path.Spelling
import PathQuery.Proofs.Path.Argument
import PathQuery.Proofs.Evaluation.Subpath
import PathQuery.Proofs.Json.KeyOrder
import PathQuery.Proofs.Evaluation.KeyOrder
import PathQuery.Proofs.Evaluation.RootWrapper
import PathQuery.Proofs.Json.Provenance
import PathQuery.Proofs.Evaluation.Conservation
import PathQuery.Proofs.Path.Cuts
import PathQuery.Proofs.Evaluation.Steps
import PathQuery.Proofs.Evaluation.Events
import PathQuery.Proofs.Number.Rounding
import PathQuery.Proofs.Number.Shortest
import PathQuery.Proofs.Json.Numbers
import PathQuery.Proofs.Json.Strings
import PathQuery.Proofs.Json.Reading
import PathQuery.Proofs.Json.ReadBack
import PathQuery.Proofs.CommandLine
import PathQuery.Proofs.Json.Insertion
import PathQuery.Proofs.Json.TableText
import PathQuery.Proofs.Projection
import PathQuery.Proofs.Evaluation.Dotted
import PathQuery.Proofs.Path.Brackets
import PathQuery.Proofs.Path.DotForm
import PathQuery.Proofs.Path.Calls
import PathQuery.Proofs.Evaluation.Filters
import PathQuery.Proofs.Evaluation.Fusion
import PathQuery.Proofs.Evaluation.Flattening
import PathQuery.Proofs.Evaluation.Indexing
import PathQuery.Proofs.Json.Objects
import PathQuery.Proofs.Evaluation.Rendering
import PathQuery.Proofs.Number.Rendering
import PathQuery.Proofs.Text.Boundaries
import PathQuery.Proofs.Path.Slicing
