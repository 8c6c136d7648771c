/-
# The wording of failures

What failures say. A failure of the analysis is told as a report: its kind with
what the kind carries, a code, a message, and the contexts, of which the
outermost comes first in the text.

Key definitions: `Report`, `Report.text`, `Cause.message`, `Failure.report?`, `Failure.text`.
-/
import EdgeFacts.Failure.Basic

namespace EdgeFacts

/-- The kinds of failures of the analysis, with what each carries. -/
inductive ReportKind where
  | general
  | unification (left right : String)
  | reference (node : Literal)
  | invariant (node : Literal)
  | plan (node : Literal)
  | convergence (passes : Literal)
  | operator
  | streaming
deriving Repr

/-- The code of a kind unless another is given. -/
def ReportKind.defaultCode : ReportKind → String
  | general => "EANALYSIS"
  | unification _ _ => "EUNIFY"
  | reference _ => "EREF"
  | invariant _ => "EINVARIANT"
  | plan _ => "EPLAN"
  | convergence _ => "ECONVERGE"
  | operator => "EOP"
  | streaming => "ESTREAM"

/-- Whether reports of the kind may have a code of their own. -/
def ReportKind.hasOwnCode : ReportKind → Bool
  | general | plan _ | operator | streaming => true
  | _ => false

/-- A failure of the analysis as it is told. -/
structure Report where
  kind : ReportKind
  message : String
  code : String
  /-- What was being done, the outermost first. -/
  contexts : List String
deriving Repr

namespace Report

/-- A report without context; an empty code stands for that of the kind. -/
def make (kind : ReportKind) (message : String) (code : String) : Report :=
  ⟨kind, message, if code.isEmpty || !kind.hasOwnCode then kind.defaultCode else code, []⟩

/-- The report within a further context. -/
def within (r : Report) (context : String) : Report := { r with contexts := context :: r.contexts }

/-- The contexts and the message. -/
def text (r : Report) : String := String.intercalate ": " (r.contexts ++ [r.message])

end Report

namespace Clash

/-- The first of the facts. -/
def left : Clash → String
  | dims a _ => a.text
  | ranks a _ => a.text
  | dtypes a _ => a.name
  | values a _ => valueFactText (some a)
  | literals a _ => literalFactText (some a)

/-- The second of the facts. -/
def right : Clash → String
  | dims _ b => b.text
  | ranks _ b => b.text
  | dtypes _ b => b.name
  | values _ b => valueFactText (some b)
  | literals _ b => literalFactText (some b)

def message : Clash → String
  | dims a b => "Impossible to unify dimensions " ++ a.text ++ " and " ++ b.text ++ "."
  | ranks a b =>
    "Shapes of different rank cannot unify (found " ++ a.text ++ " and " ++ b.text ++ ")."
  | dtypes a b =>
    "Impossible to unify " ++ dtypeFactText (some a) ++ " with " ++ dtypeFactText (some b) ++ "."
  | values a b =>
    "Impossible to unify " ++ valueFactText (some a) ++ " with " ++ valueFactText (some b) ++ "."
  | literals a b =>
    "Impossible to unify " ++ literalFactText (some a) ++ " with " ++ literalFactText (some b)
      ++ "."

end Clash

def TimeFault.message : TimeFault → String
  | malformed text none => s!"Invalid datetime metadata string \"{text}\""
  | malformed text (some i) => s!"Invalid datetime metadata string \"{text}\" at position {i}"
  | unknownUnit text => s!"Invalid datetime unit in metadata string \"{text}\""
  | indivisible divisor text =>
    s!"divisor ({divisor}) is not a multiple of a lower-unit in datetime metadata \"{text}\""
  | dividedNothing => "Can't use 'den' divisor with generic units"

def RecordFault.message : RecordFault → String
  | unequalLengths =>
    "'names', 'formats', 'offsets', and 'titles' dict entries must have the same length"
  | alignedFlag =>
    "NumPy dtype descriptor includes 'aligned' entry, but its value is neither True nor False"
  | fieldName => "field names must be strings"
  | repeatedName => "name already used as a name or title"
  | offsetNegative offset => s!"offset {offset} cannot be negative"
  | offsetUnaligned offset alignment =>
    s!"offset {offset} for NumPy dtype with fields is " ++
      s!"not divisible by the field alignment {alignment} with align=True"
  | sizeTooSmall needed given =>
    s!"NumPy dtype descriptor requires {needed} bytes, " ++
      s!"cannot override to smaller itemsize of {given}"
  | sizeUnaligned alignment given =>
    s!"NumPy dtype descriptor requires alignment of {alignment} bytes, " ++
      s!"which is not divisible into the specified itemsize {given}"
  | numberTooLarge => "integer won't fit into a C int"

def DTypeFault.message : DTypeFault → String
  | unknown spelling => "data type " ++ Text.quote spelling ++ " not understood"
  | time fault => fault.message
  | part index text => s!"format number {index} of \"{text}\" is not recognized"
  | byteOrders first second => s!"inconsistent byte-order specification {first} and {second}"
  | repeats _ => "invalid syntax"
  | itemSize => "invalid itemsize in generic type tuple"
  | extents => "invalid shape in fixed-type tuple."
  | extentTooLarge =>
    "invalid shape in fixed-type tuple: dimension does not fit into a C int."
  | arrayTooLarge =>
    "invalid shape in fixed-type tuple: dtype size in bytes must fit into a C int."
  | uninterpreted shown => "Cannot interpret '" ++ shown ++ "' as a data type"
  | fieldElement shown => "Field elements must be 2- or 3-tuples, got '" ++ shown ++ "'"
  | fieldEntry => "entry not a 2- or 3- tuple"
  | noLength kind => "object of type '" ++ kind ++ "' has no len()"
  | notIterable kind => "'" ++ kind ++ "' object is not iterable"
  | notIndex kind =>
    if kind = "bool" then "an integer is required"
    else "'" ++ kind ++ "' object cannot be interpreted as an integer"
  | record fault => fault.message

namespace AttributeFault

def message : AttributeFault → String
  | none operator => operator ++ "() takes no arguments"
  | unexpected operator key =>
    operator ++ ".__init__() got an unexpected keyword argument '" ++ key ++ "'"
  | missing operator key =>
    operator ++ ".__init__() missing 1 required positional argument: '" ++ key ++ "'"
  | repeated operator key =>
    operator ++ ".__init__() got multiple values for argument '" ++ key ++ "'"
  | dtype fault => fault.message
  | notIterable kind => "'" ++ kind ++ "' object is not iterable"
  | noLength kind => "object of type '" ++ kind ++ "' has no len()"
  | notOrdered relation left right =>
    "'" ++ relation ++ "' not supported between instances of '" ++ left ++ "' and '" ++ right ++ "'"

end AttributeFault

namespace Cause

/-- The kind of a cause and what it carries. -/
def kind : Cause → ReportKind
  | clash c => .unification c.left c.right
  | noNodeAt index => .reference (.int index)
  | noNodeNamed name => .reference (.text name)
  | misplacedNode _ id _ => .reference (.int id)
  | repeatedName _ id => .reference (.int id)
  | unknownProducer _ producer => .reference (.int producer)
  | severalPorts _ id => .invariant (.int id)
  | badRefinement _ _ id => .invariant (.int id)
  | deletedNode index => .invariant (.int index)
  | deletedEdge _ => .invariant .none
  | outputOutside output => .plan (.int output)
  | danglingInput _ _ id => .plan (.int id)
  | plannedDanglingInput _ _ index => .plan (.int index)
  | cycle node => .plan (.int node)
  | notConverged rounds => .convergence (.int rounds)
  | arity .. | notEvaluable .. | broadcast .. | permInvalid .. | permRank .. | stridesInvalid ..
  | convolutionExtent .. | convolutionRank | convolutionChannels .. | unknownOperator ..
  | attributes .. | complaint .. => .operator
  | emptyBuffer | convolutionInputs .. | streamedFilter | wholeData | streamedChannels
  | wholeOutput .. | missingValue .. | notStreamedInput .. | notModelInput .. | wholeResult =>
    .streaming

/-- The code of a cause, empty where it is that of the kind. -/
def ownCode : Cause → String
  | outputOutside .. | danglingInput .. | plannedDanglingInput .. => "EDANGLING"
  | cycle .. => "ECYCLE"
  | arity .. => "EARITY"
  | broadcast .. => "EBROADCAST"
  | permInvalid .. | permRank .. => "ETRANSPOSE_PERM"
  | stridesInvalid .. => "ECONV_ATTRS"
  | convolutionExtent .. | convolutionChannels .. => "ECONV_DIMS"
  | convolutionRank => "ECONV_RANK"
  | unknownOperator .. => "EUNKNOWN_OP"
  | attributes .. => "EATTR"
  | complaint _ code => code
  | _ => ""

def message : Cause → String
  | clash c => c.message
  | noNodeAt index => s!"There is no node with index {index}."
  | noNodeNamed name => s!"There is no node named '{name}'."
  | misplacedNode name id index => s!"Node '{name}' has id {id} but sits at index {index}."
  | repeatedName name _ => s!"Duplicate node name '{name}'."
  | unknownProducer name producer => s!"Node '{name}' consumes unknown node {producer}."
  | severalPorts name _ =>
    "Analyser only supports nodes with a single output port (" ++ Text.quote name ++ ")."
  | badRefinement name inputs _ =>
    "Operator of node " ++ Text.quote name ++
      s!" must return {inputs} input facts and a single output fact."
  | deletedNode index => s!"A retained element references deleted node {index}."
  | deletedEdge index => s!"A retained node references deleted edge {index}."
  | outputOutside output => s!"Output {output} is not a node of the graph."
  | danglingInput name producer _ => s!"Node '{name}' consumes unknown node {producer}."
  | plannedDanglingInput name producer _ =>
    "Node " ++ Text.quote name ++ s!" consumes unknown node {producer}."
  | cycle _ => "Cycle detected in graph"
  | notConverged rounds => s!"Analysis did not converge after {rounds} rounds."
  | arity operator expected given => s!"{operator} expects {expected} inputs, got {given}"
  | notEvaluable operator => operator ++ " cannot be evaluated."
  | broadcast a b => "Broadcast mismatch: " ++ a.text ++ " vs " ++ b.text
  | permInvalid shown => "Invalid Transpose perm " ++ shown
  | permRank shown rank => s!"Transpose perm {shown} does not match rank {rank}"
  | stridesInvalid shown => "Conv2D strides must be two positive ints, got " ++ shown
  | convolutionExtent data filter =>
    s!"Conv2D input extent {data} is smaller than the filter {filter}"
  | convolutionRank => "Conv2D expects rank-4 tensors (NHWC, HWIO)"
  | convolutionChannels data filter =>
    s!"Conv2D channel mismatch: data has {data}, filter expects {filter}"
  | unknownOperator name => s!"Unknown operator '{name}'"
  | attributes operator fault => s!"Invalid attributes for {operator}: " ++ fault.message
  | complaint message _ => message
  | emptyBuffer => "Cannot consume from an empty stream buffer."
  | convolutionInputs given => s!"Conv2D expects 2 inputs, got {given}"
  | streamedFilter => "Filter input should not be streamed."
  | wholeData => "Data input should be streamed."
  | streamedChannels => "Conv2D only supports batch, height and width streaming."
  | wholeOutput name =>
    "Node " ++ Text.quote name ++ " consumes a streamed input but its output is not streamed."
  | missingValue name => "Missing value for input " ++ Text.quote name ++ "."
  | notStreamedInput name => Text.quote name ++ " is not a streamed input of the model."
  | notModelInput name => Text.quote name ++ " is not a model input."
  | wholeResult => "The model output is not streamed."

end Cause

def Context.message : Context → String
  | meetingShapes a b => "While unifying shapes " ++ a.text ++ " and " ++ b.text
  | combiningOutputs node => "While combining outputs of node " ++ Text.quote node
  | refining node => "While enriching for " ++ node
  | updatingInputs node => "While unifying inputs of node " ++ Text.quote node
  | updatingOutputs node => "While unifying outputs of node " ++ Text.quote node

def LookupFault.message : LookupFault → String
  | noModule name => "No module named " ++ Text.quote name
  | notPackage name parent =>
    "No module named " ++ Text.quote name ++ "; " ++ Text.quote parent ++ " is not a package"
  | noMember moduleName name => s!"module '{moduleName}' has no attribute '{name}'"

def InputFault.message : InputFault → String
  | negativeDim shown => "Dimensions must be non-negative, got " ++ shown
  | notDim shown => "Cannot build a dimension fact from " ++ shown
  | emptyFact kind => kind ++ ".only() needs a value"
  | dimInShape token text => s!"Invalid dimension '{token}' in shape '{text}'"
  | notFact text => s!"Invalid tensor fact '{text}'"
  | unknownDType spelling => s!"Unknown datatype '{spelling}'"
  | notHint item => s!"Hint '{item}' must look like NAME=FACT"
  | notFactory => "factory must look like 'package.module:function'"
  | factoryUnusable factory reason =>
    s!"Cannot load model factory '{factory}': " ++ reason.message
  | notModel factory kind => s!"{factory} returned {kind}, not a Model"
  | passLimit shown => "max_passes must be positive, got " ++ shown
  | logLevel level => s!"Unknown log level '{level}'"
  | passLimitText raw => s!"SHAPEFLOW_MAX_PASSES must be an integer, got '{raw}'"

def Path.Fault.message : Path.Fault → String
  | terminated => "embedded null byte"
  | tooLong => "File name too long"

def KernelFault.message : KernelFault → String
  | mismatch => "operands do not fit together"
  | noSuchAxis => "axis is out of bounds"
  | noSuchPosition => "list index out of range"
  | wrongKind => "value of the wrong kind"
  | zeroDivisor => "integer division or modulo by zero"
  | tooLarge => "number too large"
  | noSuchKey => "no such key"
  | noSuchMember => "no such member"

namespace Failure

/-- The report on a failure of the analysis. -/
def report? : Failure → Option Report
  | analysis cause contexts =>
    let r := Report.make cause.kind cause.message ""
    some { r with
      code := if cause.ownCode.isEmpty then r.code else cause.ownCode
      contexts := contexts.map Context.message }
  | _ => none

/-- How much of a quoted numeral a message shows. -/
def shownNumeral : Nat := 200

/-- What the failure says. -/
def text : Failure → String
  | analysis cause contexts =>
    String.intercalate ": " (contexts.map Context.message ++ [cause.message])
  | input fault => fault.message
  | numeral token =>
    "invalid literal for int() with base 10: " ++
      String.ofList ((Text.quote token).toList.take shownNumeral)
  | longNumeral digits =>
    "Exceeds the limit (4300 digits) for integer string conversion: " ++
      s!"value has {digits} digits; " ++ "use sys.set_int_max_str_digits() to increase the limit"
  | dtype fault => fault.message
  | path fault => fault.message
  | primitive fault => fault.message
  | unsettled => "The rounds of the run are used up."

end Failure

end EdgeFacts
