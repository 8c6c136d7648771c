/-
# Failures

Why an operation failed. A failure of the analysis has a cause and the contexts
in which it arose, the innermost last; text and settings that cannot be used have
causes of their own, and so have primitive operations. The wording is in
`EdgeFacts.Failure.Wording`.

Key definitions: `Failure`, `Cause`, `Clash`, `Failure.within`, `Failure.withinClash`.
-/
import EdgeFacts.Fact.Tensor
import EdgeFacts.Tensor.Spelling
import EdgeFacts.Text.Path
import EdgeFacts.Tensor.Kernel

namespace EdgeFacts

/-- Two facts that contradict each other. -/
inductive Clash where
  | dims (a b : DimFact)
  | ranks (a b : ShapeFact)
  | dtypes (a b : DType)
  | values (a b : Tensor)
  | literals (a b : Literal)
deriving Repr

/-- Why attributes do not make an operator. Kinds of values are given by name. -/
inductive AttributeFault where
  | none (operator : String)
  | unexpected (operator key : String)
  | missing (operator key : String)
  /-- An argument that is given by its place as well. -/
  | repeated (operator key : String)
  | dtype (fault : DTypeFault)
  | notIterable (kind : String)
  | noLength (kind : String)
  | notOrdered (relation left right : String)
deriving DecidableEq, Repr

/-- Why the analysis, an operator or a stream failed. -/
inductive Cause where
  | clash (c : Clash)
  /- References to nodes. -/
  | noNodeAt (index : Int)
  | noNodeNamed (name : String)
  | misplacedNode (name : String) (id : Int) (index : Nat)
  | repeatedName (name : String) (id : Int)
  | unknownProducer (name : String) (producer : Int)
  /- What operators and pruning must leave intact. -/
  | severalPorts (name : String) (id : Int)
  | badRefinement (name : String) (inputs : Nat) (id : Int)
  | deletedNode (index : Int)
  | deletedEdge (index : Nat)
  /- The plan. -/
  | outputOutside (output : Int)
  | danglingInput (name : String) (producer id : Int)
  | plannedDanglingInput (name : String) (producer : Int) (index : Nat)
  | cycle (node : Nat)
  /- The run. -/
  | notConverged (rounds : Nat)
  /- Operators. -/
  | arity (operator : String) (expected given : Nat)
  | notEvaluable (operator : String)
  | broadcast (a b : DimFact)
  | permInvalid (shown : String)
  | permRank (shown : String) (rank : Nat)
  | stridesInvalid (shown : String)
  | convolutionExtent (data filter : Nat)
  | convolutionRank
  | convolutionChannels (data filter : Nat)
  | unknownOperator (name : String)
  | attributes (operator : String) (fault : AttributeFault)
  | complaint (message : String) (code : String)
  /- Streams. -/
  | emptyBuffer
  | convolutionInputs (given : Nat)
  | streamedFilter
  | wholeData
  | streamedChannels
  | wholeOutput (name : String)
  | missingValue (name : String)
  | notStreamedInput (name : String)
  | notModelInput (name : String)
  | wholeResult
deriving Repr

/-- What was being done when a cause arose. -/
inductive Context where
  | meetingShapes (a b : ShapeFact)
  | combiningOutputs (node : String)
  | refining (node : String)
  | updatingInputs (node : String)
  | updatingOutputs (node : String)
deriving Repr

/-- Why a catalogue does not have what is looked up in it. -/
inductive LookupFault where
  | noModule (name : String)
  | notPackage (name parent : String)
  | noMember (moduleName name : String)
deriving DecidableEq, Repr

/-- Why a text or a setting cannot be used. -/
inductive InputFault where
  | negativeDim (shown : String)
  | notDim (shown : String)
  | emptyFact (kind : String)
  | dimInShape (token text : String)
  | notFact (text : String)
  | unknownDType (spelling : String)
  | notHint (item : String)
  | notFactory
  | factoryUnusable (factory : String) (reason : LookupFault)
  | notModel (factory kind : String)
  | passLimit (shown : String)
  | logLevel (level : String)
  | passLimitText (raw : String)
deriving DecidableEq, Repr

/-- Why an operation failed. -/
inductive Failure where
  /-- The analysis failed; contexts are listed from the outermost. -/
  | analysis (cause : Cause) (contexts : List Context)
  /-- A text or a setting cannot be used. -/
  | input (fault : InputFault)
  /-- A numeral cannot be read. -/
  | numeral (token : String)
  /-- A numeral has too many digits. -/
  | longNumeral (digits : Nat)
  /-- Something does not spell a datatype. -/
  | dtype (fault : DTypeFault)
  /-- No file can have a path. -/
  | path (fault : Path.Fault)
  /-- A primitive operation refuses its operands. -/
  | primitive (fault : KernelFault)
  /-- The rounds of an unlimited run are used up. -/
  | unsettled
deriving Repr

namespace Failure

/-- A cause without context. -/
def because (cause : Cause) : Failure := analysis cause []

/-- A failure of the analysis within a context; other failures are left alone. -/
def within (context : Context) : Failure → Failure
  | analysis cause contexts => analysis cause (context :: contexts)
  | f => f

/-- A clash of facts within a context; other failures are left alone. -/
def withinClash (context : Context) : Failure → Failure
  | analysis (.clash c) contexts => analysis (.clash c) (context :: contexts)
  | f => f

end Failure

end EdgeFacts
