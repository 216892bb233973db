import ProgramAnalysis.Code.Operator
import ProgramAnalysis.Code.Reference

/-!
# Expressions

Expressions are trees. Operands of binary expressions, what is negated, array lengths and indexes,
and arguments of calls may be arbitrary expressions; what is cast, dereferenced or called upon is
always a variable.

`Expr.uses` lists the variables that an evaluation reads, in the order of the operands, and
`Expr.text` is the expression as it is written in programs. What is negated is meant to be a
variable and counts as read only if it is one: nothing is looked for inside of it.

Allocations and calls hold lists of expressions, so every function on expressions comes with a
companion on lists of them, and both recurse on the structure.
-/

namespace ProgramAnalysis

/-- The expressions of the intermediate language. -/
inductive Expr where
  | var (v : Var)
  | int (value : Int)
  | binary (op : Operator) (left right : Expr)
  | neg (operand : Expr)
  | cast (type : Ty) (operand : Var)
  | alloc (type : Ty) (lengths : List Expr)
  | field (ref : FieldRef) (base : Option Var)
  | elem (base : Var) (index : Expr)
  | call (kind : CallKind) (target : MethodRef) (receiver : Option Var) (args : List Expr)
deriving Repr

/-- A variable is an expression. -/
instance : Coe Var Expr := ⟨.var⟩

/-- A call, apart from the statement or expression in which it stands. -/
structure Call where
  kind : CallKind
  target : MethodRef
  receiver : Option Var := none
  args : List Expr := []

namespace Expr

/-- The expression as a variable, if it is one. -/
def asVar? : Expr → Option Var
  | var v => some v
  | _ => none

/-- Whether the expression is itself a call. -/
def isCall : Expr → Bool
  | call .. => true
  | _ => false

mutual

/-- The variables that an evaluation reads, in the order of the operands. -/
def uses : Expr → List Var
  | var v => [v]
  | int _ => []
  | binary _ left right => left.uses ++ right.uses
  | neg operand => operand.asVar?.toList
  | cast _ v => [v]
  | alloc _ lengths => usesOfList lengths
  | field _ base => base.toList
  | elem base index => base :: index.uses
  | call _ _ receiver args => receiver.toList ++ usesOfList args

/-- The variables that the expressions of a list read, one expression after the other. -/
def usesOfList : List Expr → List Var
  | [] => []
  | e :: l => e.uses ++ usesOfList l

end

mutual

/-- The expression as it is written in programs. -/
def text : Expr → String
  | var v => v.name
  | int value => toString value
  | binary op left right => left.text ++ " " ++ op.symbol ++ " " ++ right.text
  | neg operand => "-" ++ operand.text
  | cast type v => "(" ++ type.text ++ ") " ++ v.name
  | alloc type lengths =>
    "new " ++ type.text ++ String.join ((textOfList lengths).map fun n ↦ "[" ++ n ++ "]")
  | field ref base => ((base.map fun v ↦ v.name ++ ".").getD "") ++ ref.text
  | elem base index => base.name ++ "[" ++ index.text ++ "]"
  | call kind target receiver args =>
    "invoke" ++ kind.text ++ " " ++ ((receiver.map fun v ↦ v.name ++ ".").getD "") ++ target.text ++
      "(" ++ ", ".intercalate (textOfList args) ++ ")"

/-- The texts of the expressions of a list. -/
def textOfList : List Expr → List String
  | [] => []
  | e :: l => e.text :: textOfList l

end

/-! ## Equality -/

mutual

/-- Compares two expressions. -/
def same : Expr → Expr → Bool
  | var v, var w => v = w
  | int m, int n => m = n
  | binary op a b, binary op' a' b' => op = op' && (same a a' && same b b')
  | neg a, neg a' => same a a'
  | cast t v, cast u w => t = u && v = w
  | alloc t l, alloc u l' => t = u && sameList l l'
  | field f v, field g w => f = g && v = w
  | elem v e, elem w e' => v = w && same e e'
  | call k m v l, call k' m' v' l' => (k = k' && (m = m' && v = v')) && sameList l l'
  | _, _ => false

/-- Compares two lists of expressions. -/
def sameList : List Expr → List Expr → Bool
  | [], [] => true
  | e :: l, e' :: l' => same e e' && sameList l l'
  | _, _ => false

end

mutual

theorem same_eq_true_iff : ∀ e e' : Expr, same e e' = true ↔ e = e'
  | var v, e' => by cases e' <;> simp [same]
  | int n, e' => by cases e' <;> simp [same]
  | binary op a b, e' => by
    cases e' <;> simp [same]
    rw [same_eq_true_iff a, same_eq_true_iff b]; simp
  | neg a, e' => by
    cases e' <;> simp [same]
    exact same_eq_true_iff a _
  | cast t v, e' => by cases e' <;> simp [same]
  | alloc t l, e' => by
    cases e' <;> simp [same]
    rw [sameList_eq_true_iff l]; simp
  | field f v, e' => by cases e' <;> simp [same]
  | elem v e, e' => by
    cases e' <;> simp [same]
    rw [same_eq_true_iff e]; simp
  | call k m v l, e' => by
    cases e' <;> simp [same]
    rw [sameList_eq_true_iff l]; simp [and_assoc]

theorem sameList_eq_true_iff : ∀ l l' : List Expr, sameList l l' = true ↔ l = l'
  | [], l' => by cases l' <;> simp [sameList]
  | e :: l, l' => by
    cases l' <;> simp [sameList]
    rw [same_eq_true_iff e, sameList_eq_true_iff l]

end

instance : DecidableEq Expr := fun e e' ↦ decidable_of_iff _ (same_eq_true_iff e e')

/-- Whether the expression reads a static field; `none` for expressions that read no field. -/
def readsStaticField? : Expr → Option Bool
  | field _ base => some base.isNone
  | _ => none

end Expr

deriving instance DecidableEq, Repr for Call

/-- The call as an expression. -/
def Call.toExpr (c : Call) : Expr := .call c.kind c.target c.receiver c.args

theorem Call.isCall_toExpr (c : Call) : c.toExpr.isCall = true := rfl

/-! ## Putting binary expressions together -/

/-- Why no binary expression can be formed. -/
inductive BinaryError where
  | noFamily
  | refused (family : Family) (sign : OperatorSign)
deriving DecidableEq, Repr

/-- The wording of an error. -/
def BinaryError.message : BinaryError → String
  | noFamily =>
    "BinaryExp is abstract; use ArithmeticExp, BitwiseExp, ConditionExp or ShiftExp"
  | refused family sign => family.title ++ "Exp does not accept operator " ++ sign.shown

/-- The binary expression of a family, which has to be given and to contain the operator. -/
def Expr.ofFamily (family : Option Family) (sign : OperatorSign) (left right : Expr) :
    Except BinaryError Expr :=
  match family with
  | none => .error .noFamily
  | some f =>
    match sign with
    | .known op => if op.family = f then .ok (.binary op left right) else .error (.refused f sign)
    | .unknown _ => .error (.refused f sign)

end ProgramAnalysis
