import ProgramAnalysis.Collections.StableSort
import ProgramAnalysis.Config.Strategy
import ProgramAnalysis.Number.Numeral
import ProgramAnalysis.Number.Shortest
import ProgramAnalysis.Text.Quoted

/-!
# Settings

The value of an option is free-form: a truth value, a number, a text, a list, a record, a strategy,
a whole configuration, or nothing. Settings are written in the usual literal form, in which a text
inside a list or a record is quoted.

Where a setting is used as a number or as a truth value, it is converted: a text is read, a
fraction is dropped, and a truth value counts as one or zero. Where it is used as a strategy, its
text names one.
-/

namespace ProgramAnalysis

/-- The value of an option. -/
inductive Setting where
  | null
  | bool (b : Bool)
  | int (n : Int)
  | real (x : Binary64)
  | text (s : String)
  | list (l : List Setting)
  | record (l : List (String × Setting))
  | strategy (s : Strategy)
  | configuration (id : String) (options : List (String × Setting))
deriving Repr

/-- Why a setting is no integer. -/
inductive NotAnInteger where
  | wrongType
  | unreadable
  | infinite
deriving DecidableEq, Repr

/-- A setting that names no strategy. -/
structure UnknownStrategy where
  setting : Setting

namespace Setting

/-- Numbers are positional from a ten-thousandth up to below `10 ^ 16`; other exponents have at
least two digits. -/
def realLayout : Shortest.Layout := ⟨-4, 15, 2⟩

mutual

/-- The literal form, with texts quoted. -/
def literal : Setting → String
  | null => "None"
  | bool true => "True"
  | bool false => "False"
  | int n => toString n
  | real x => realLayout.text x
  | text s => Text.quoted s
  | list l => "[" ++ ", ".intercalate (literals l) ++ "]"
  | record l => "\x7b" ++ ", ".intercalate (fieldLiterals l) ++ "\x7d"
  | strategy s => "<" ++ s.qualified ++ ": " ++ Text.quoted s.text ++ ">"
  | configuration id l =>
    "AnalysisConfig(id=" ++ Text.quoted id ++ ", options=\x7b" ++
      ", ".intercalate (fieldLiterals l) ++ "\x7d)"

/-- The literal forms of the members of a list. -/
def literals : List Setting → List String
  | [] => []
  | s :: l => s.literal :: literals l

/-- The literal forms of the fields of a record. -/
def fieldLiterals : List (String × Setting) → List String
  | [] => []
  | (key, s) :: l => (Text.quoted key ++ ": " ++ s.literal) :: fieldLiterals l

end

/-- The name of an analysis in front of the texts of its options, sorted by name. -/
def brief (id : String) (options : List (String × String)) : String :=
  let sorted := stableSort (fun a b ↦ decide (a.1 ≤ b.1)) options
  if sorted.isEmpty then id
  else id ++ "[" ++ ", ".intercalate (sorted.map fun e ↦ e.1 ++ "=" ++ e.2) ++ "]"

mutual

/-- The setting as text: a text stands for itself, a strategy for its name, a configuration for its
short form, and all else for its literal form. -/
def display : Setting → String
  | text s => s
  | strategy s => s.qualified
  | configuration id l => brief id (fieldDisplays l)
  | s => s.literal

/-- The fields of a record with the texts of their settings. -/
def fieldDisplays : List (String × Setting) → List (String × String)
  | [] => []
  | (key, s) :: l => (key, s.display) :: fieldDisplays l

end

/-- The texts that mean "yes". -/
def affirmations : List String := ["1", "true", "yes", "on"]

/-- The setting as a truth value. A text is true if it means "yes", whatever its case and the blanks
around it; other settings are true unless they are zero, empty or nothing. -/
def toBool : Setting → Bool
  | null => false
  | bool b => b
  | int n => n != 0
  | real x => !x.isZero
  | text s => (String.ofList (Text.trim Text.isBlank s.toList)).toLower ∈ affirmations
  | list l => !l.isEmpty
  | record l => !l.isEmpty
  | strategy _ | configuration _ _ => true

/-- The setting as an integer. -/
def toInt : Setting → Except NotAnInteger Int
  | bool b => .ok (if b then 1 else 0)
  | int n => .ok n
  | real x =>
    match x.truncate? with
    | some n => .ok n
    | none => .error (if x = .nan then .unreadable else .infinite)
  | text s =>
    match Numeral.integer? s with
    | some n => .ok n
    | none => .error .unreadable
  | null | list _ | record _ | strategy _ | configuration _ _ => .error .wrongType

end Setting

/-- The strategy that a setting is, or that its text names, whatever its case. -/
def Strategy.ofSetting : Setting → Except UnknownStrategy Strategy
  | .strategy t => .ok t
  | s =>
    match all.find? fun t ↦ t.text == s.display.toLower with
    | some t => .ok t
    | none => .error ⟨s⟩

/-- The wording of an error. -/
def UnknownStrategy.message (e : UnknownStrategy) : String :=
  "unknown worklist strategy " ++ e.setting.literal ++ "; expected one of " ++
    (Setting.list (Strategy.all.map fun t ↦ .text t.text)).literal

end ProgramAnalysis
