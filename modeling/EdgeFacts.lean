import EdgeFacts.Analysis.Basic
import EdgeFacts.Analysis.Fold
import EdgeFacts.Analysis.Narration
import EdgeFacts.Analysis.Pipeline
import EdgeFacts.Analysis.Prune
import EdgeFacts.Analysis.Request
import EdgeFacts.Analysis.Run
import EdgeFacts.Command.Invocation
import EdgeFacts.Command.Options
import EdgeFacts.Command.Reply
import EdgeFacts.Fact.Dim
import EdgeFacts.Fact.Literal
import EdgeFacts.Fact.Meet
import EdgeFacts.Fact.Notation
import EdgeFacts.Fact.Shape
import EdgeFacts.Fact.Tensor
import EdgeFacts.Failure.Basic
import EdgeFacts.Failure.Wording
import EdgeFacts.Graph.Basic
import EdgeFacts.Graph.Catalogue
import EdgeFacts.Graph.Description
import EdgeFacts.Graph.Plan
import EdgeFacts.Literal.Basic
import EdgeFacts.Literal.Json
import EdgeFacts.Logger
import EdgeFacts.Main
import EdgeFacts.Number.Decimal
import EdgeFacts.Number.Floating
import EdgeFacts.Operator.Basic
import EdgeFacts.Operator.Broadcast
import EdgeFacts.Operator.Build
import EdgeFacts.Operator.Evaluate
import EdgeFacts.Operator.Ordering
import EdgeFacts.Operator.Refine
import EdgeFacts.Operator.Stream
import EdgeFacts.Settings
import EdgeFacts.Streaming.Session
import EdgeFacts.Table
import EdgeFacts.Tensor.Basic
import EdgeFacts.Tensor.Contraction
import EdgeFacts.Tensor.DType
import EdgeFacts.Tensor.Element
import EdgeFacts.Tensor.Kernel
import EdgeFacts.Tensor.Literal
import EdgeFacts.Tensor.Record
import EdgeFacts.Tensor.Spelling
import EdgeFacts.Tensor.Text
import EdgeFacts.Tensor.TimeStep
import EdgeFacts.Tensor.Value
import EdgeFacts.Text.Blank
import EdgeFacts.Text.CodeRange
import EdgeFacts.Text.Digit
import EdgeFacts.Text.Half
import EdgeFacts.Text.Path
import EdgeFacts.Text.Printable
import EdgeFacts.Text.Quoted
import EdgeFacts.Text.Split
import EdgeFacts.Text.Style
import EdgeFacts.Text.Word
import EdgeFacts.Proofs.Greatest
import EdgeFacts.Proofs.Meaning
import EdgeFacts.Proofs.Index
import EdgeFacts.Proofs.Slice
import EdgeFacts.Proofs.Chunk
import EdgeFacts.Proofs.StreamShape
import EdgeFacts.Proofs.Intersection
import EdgeFacts.Proofs.Termination
import EdgeFacts.Proofs.Consistent
import EdgeFacts.Proofs.Report
import EdgeFacts.Proofs.Streaming
import EdgeFacts.Proofs.Agreement
import EdgeFacts.Proofs.HintOrder
import EdgeFacts.Proofs.Lockstep
import EdgeFacts.Proofs.PlanRenaming
import EdgeFacts.Proofs.Core
import EdgeFacts.Proofs.Unobservable
import EdgeFacts.Proofs.SameFacts
import EdgeFacts.Proofs.Thinning
import EdgeFacts.Proofs.DeadCode
import EdgeFacts.Proofs.Gain
import EdgeFacts.Proofs.Coherence
import EdgeFacts.Proofs.Prediction
import EdgeFacts.Proofs.Build
import EdgeFacts.Proofs.Classification
import EdgeFacts.Proofs.Canonical
import EdgeFacts.Proofs.Cut
import EdgeFacts.Proofs.Compatible
import EdgeFacts.Proofs.InPlace
import EdgeFacts.Proofs.Push
import EdgeFacts.Proofs.Join
import EdgeFacts.Proofs.Rejection
import EdgeFacts.Proofs.Exhaustion
import EdgeFacts.Proofs.Retention
import EdgeFacts.Proofs.Sorting
import EdgeFacts.Proofs.Transposition
import EdgeFacts.Proofs.Unplannable
import EdgeFacts.Proofs.Broadcasting
import EdgeFacts.Proofs.Phase
import EdgeFacts.Proofs.FactNotation
import EdgeFacts.Proofs.Hint
import EdgeFacts.Proofs.RepeatedHint
import EdgeFacts.Proofs.RoundLimit
import EdgeFacts.Proofs.Alternation
import EdgeFacts.Proofs.Construction
import EdgeFacts.Proofs.Combination
import EdgeFacts.Proofs.Usable
import EdgeFacts.Proofs.Locality
import EdgeFacts.Proofs.KnownValue
