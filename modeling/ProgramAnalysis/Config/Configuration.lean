import ProgramAnalysis.Collections.OrderedMap
import ProgramAnalysis.Config.Setting

/-!
# Configurations of analyses

A configuration names an analysis and carries options. The iteration of data-flow analyses reads two
of them, `strategy` and `max_iterations`; all others are free.

An analysis that runs other analyses hands its options on to them by name. Three names are not free
in that case, since they denote the parts of the configuration that is being made: `analysis_id` and
`cls` are refused, and what is called `config` takes the place of the whole configuration, which
only a configuration can.
-/

namespace ProgramAnalysis

/-- The configuration of one analysis. -/
structure Configuration where
  id : String
  options : OrderedMap String Setting := ∅

/-- How a fixed point is iterated: the order of the nodes, and a bound on the number of steps. -/
structure Iteration where
  strategy : Strategy
  limit : Int
deriving DecidableEq, Repr

/-- Why a configuration does not say how to iterate. -/
inductive ConfigError where
  | strategy (cause : UnknownStrategy)
  | limit (cause : NotAnInteger)

/-- Why options cannot be handed on. -/
inductive HandOverError where
  | reserved (name : String)
  | strategy (cause : UnknownStrategy)
  | notAConfiguration

namespace Configuration

/-- The bound on the number of steps that holds without the option. -/
def defaultLimit : Int := 100000

/-- The setting of an option, or `d` if it is not set. -/
def get (c : Configuration) (key : String) (d : Setting) : Setting := c.options.findD key d

/-- An option as a truth value. -/
def getBool (c : Configuration) (key : String) (d : Setting) : Bool := (c.get key d).toBool

/-- An option as an integer. -/
def getInt (c : Configuration) (key : String) (d : Setting) : Except NotAnInteger Int :=
  (c.get key d).toInt

/-- The bound on the number of steps. -/
def limit (c : Configuration) : Except NotAnInteger Int :=
  c.getInt "max_iterations" (.int defaultLimit)

/-- The order in which nodes are processed. -/
def strategy (c : Configuration) : Except UnknownStrategy Strategy :=
  Strategy.ofSetting (c.get "strategy" (.text "rpo"))

/-- How the analysis iterates; the strategy is read first. -/
def iteration (c : Configuration) : Except ConfigError Iteration := do
  let strategy ← c.strategy.mapError .strategy
  let limit ← c.limit.mapError .limit
  return ⟨strategy, limit⟩

/-- The given configuration, or one that only names the analysis. -/
def orElse (given : Option Configuration) (id : String) : Configuration := given.getD { id := id }

/-- The names that no option may have when options are handed on. -/
def reservedNames : List String := ["analysis_id", "cls"]

/-- The given configuration, or else one with the given options. All three names that denote parts
of a configuration are refused. -/
def choose (given : Option Configuration) (id : String) (options : OrderedMap String Setting) :
    Except HandOverError Configuration :=
  match (reservedNames ++ ["config"]).find? options.contains with
  | some name => .error (.reserved name)
  | none => .ok (given.getD ⟨id, options⟩)

/-- The configuration of another analysis with the given options, unless one of them is a
configuration that takes its place. -/
def ofOptions (id : String) (options : OrderedMap String Setting) :
    Except HandOverError Configuration :=
  match reservedNames.find? options.contains with
  | some name => .error (.reserved name)
  | none =>
    match options.findD "config" .null with
    | .null => .ok ⟨id, options.erase "config"⟩
    | .configuration id options => .ok ⟨id, .ofList options⟩
    | .record fields => do
      let strategy := (OrderedMap.ofList fields).findD "strategy" (.text "rpo")
      let _ ← (Strategy.ofSetting strategy).mapError .strategy
      throw .notAConfiguration
    | _ => .error .notAConfiguration

/-- The configuration in a short form, its options sorted by name. -/
def text (c : Configuration) : String :=
  Setting.brief c.id (Setting.fieldDisplays c.options.entries)

end Configuration

end ProgramAnalysis
