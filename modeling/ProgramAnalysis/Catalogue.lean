import ProgramAnalysis.Collections.StableSort

/-!
# The catalogue of public names

Every public name belongs to one section of the catalogue, and the names of the sections are public
as well.
-/

namespace ProgramAnalysis.Catalogue

/-- The version of the catalogue. -/
def version : String := "0.1.0"

/-- The sections, each with its public names. -/
def sections : List (String × List String) := [
  ("errors", [
    "TacflowError", "AnalysisError", "MalformedCFGError", "ConvergenceError", "HierarchyError"]),
  ("config", [
    "AnalysisConfig"]),
  ("ir", [
    "PrimitiveType", "ClassType", "ArrayType", "can_hold_int", "Var", "IntLiteral",
    "ArithmeticOp", "BitwiseOp", "ConditionOp", "ShiftOp", "ArithmeticExp", "BitwiseExp",
    "ConditionExp", "ShiftExp", "NegExp", "CastExp", "NewExp", "FieldRef", "FieldAccess",
    "ArrayAccess", "CallKind", "InvokeExp", "Stmt", "DefinitionStmt", "AssignStmt", "Invoke",
    "If", "SwitchStmt", "Goto", "Return", "Nop", "IR"]),
  ("ctrlflow_graph", [
    "EdgeKind", "CFGEdge", "CFG", "cfg_summary"]),
  ("class_hierarchy", [
    "Subsignature", "JMethod", "JClass", "MethodRef", "ClassHierarchy"]),
  ("program", [
    "Program"]),
  ("abstract_domains", [
    "Value", "meet_value", "MapFact", "CPFact", "SetFact"]),
  ("dataflow_engine", [
    "Direction", "WorklistStrategy", "DataflowAnalysis", "DataflowResult", "WorklistSolver",
    "solve"]),
  ("dataflow_analyses", [
    "ConstantPropagation", "LiveVariableAnalysis", "evaluate"]),
  ("ctrlflow_analyses", [
    "DeadCodeDetection", "DeadCodeResult", "has_no_side_effect", "detect_dead_code"]),
  ("callgraph", [
    "call_kind_of", "CallGraphEdge", "CallGraph", "CHABuilder", "build_callgraph",
    "callgraph_summary", "unreachable_methods"])]

/-- The names of a list in alphabetical order. -/
private def sorted (l : List String) : List String := stableSort (fun a b ↦ decide (a ≤ b)) l

/-- The names of the sections. -/
def sectionNames : List String := sorted (sections.map Prod.fst)

/-- All public names. -/
def publicNames : List String := sorted (sections.flatMap fun s ↦ s.1 :: s.2)

end ProgramAnalysis.Catalogue
