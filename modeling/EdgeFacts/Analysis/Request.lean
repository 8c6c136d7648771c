/-
# Requests for an analysis

A request names a factory of models, the output of the model, hints in notation
and what is to be done besides inference. It is answered from a catalogue and an
environment, either with the settings checked before the model is loaded or after.

Key definitions: `Request`, `Request.analyse`, `Request.analyseLoaded`.
-/
import EdgeFacts.Analysis.Pipeline
import EdgeFacts.Graph.Catalogue

namespace EdgeFacts

/-- What is asked of an analysis. -/
structure Request where
  /-- The reference to the factory of the model. -/
  factory : String
  /-- The name of the output. -/
  output : String
  hints : List String
  fold : Bool
  prune : Bool
  /-- The largest number of rounds; null leaves that to the environment. -/
  maxPasses : Literal
deriving Repr

namespace Request

/-- The settings of the environment, with the request's number of rounds. -/
def settings (r : Request) (env : Table String) : Except Failure Settings := do
  (← Settings.ofEnvironment env).withPasses r.maxPasses

/-- Analyses a model as requested. -/
def analyseModel (r : Request) (model : Model) (settings : Settings) : Except Failure Analysis := do
  let hints ← Hints.parse r.hints
  Analysis.ofModel model r.output hints r.fold r.prune settings.roundLimit

/-- Checks the settings, then loads the model and analyses it. -/
def analyse (r : Request) (env : Table String) (c : Catalogue) : Except Failure Analysis := do
  let settings ← r.settings env
  let model ← c.load r.factory
  r.analyseModel model settings

/-- Loads the model, then checks the settings and analyses it. -/
def analyseLoaded (r : Request) (env : Table String) (c : Catalogue) : Except Failure Analysis := do
  let model ← c.load r.factory
  let settings ← r.settings env
  r.analyseModel model settings

/-- The facts about all nodes, with the model loaded before the settings are checked. -/
def factsLoaded (r : Request) (env : Table String) (c : Catalogue) :
    Except Failure (Table String) := do
  (← r.analyseLoaded env c).report

end Request

end EdgeFacts
