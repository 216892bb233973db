import ProgramAnalysis.Code.Stmt

/-!
# Method bodies

A body is a list of statements together with the parameters and the receiver of its method. Every
statement of a body has an index, which is its identity: the position of the statement in the list.

One statement may stand in the list several times. It is then still one statement, and its index is
the position of its last occurrence. `Slot.ofOccurrences` assigns the indexes, given for each
occurrence a key that says which occurrences are of one statement.
-/

namespace ProgramAnalysis

/-- An occurrence of a statement, with the index of the statement. -/
structure Slot where
  index : Nat
  stmt : Stmt
deriving DecidableEq, Repr

namespace Slot

/-- The last position at which a key occurs in a list that begins at position `p`, or `found` if it
does not occur. -/
def lastPosition (key : Nat) : (found p : Nat) → List (Nat × Stmt) → Nat
  | found, _, [] => found
  | found, p, (k, _) :: l => lastPosition key (if k = key then p else found) (p + 1) l

/-- The slots of the occurrences of a list that begins at position `p`. -/
def fromPosition : (p : Nat) → List (Nat × Stmt) → List Slot
  | _, [] => []
  | p, (key, stmt) :: l => ⟨lastPosition key p (p + 1) l, stmt⟩ :: fromPosition (p + 1) l

/-- The slots of a list of keyed statements, where equal keys stand for the same statement. -/
def ofOccurrences (l : List (Nat × Stmt)) : List Slot := fromPosition 0 l

/-- The statement behind its index. -/
def line (s : Slot) : String := s.stmt.line s.index

end Slot

/-- A method body. A method whose body is replaced gets a body of the next revision. -/
structure Body where
  owner : Option MethodRef := none
  revision : Nat := 0
  params : List Var := []
  receiver : Option Var := none
  slots : List Slot
deriving DecidableEq, Repr

/-- A call where it stands: in which body, at which index. A call that stands in no body has no
caller, and is told from other such calls by its revision. -/
structure CallSite where
  caller : Option MethodRef
  revision : Nat
  index : Int
  call : Call
  result : Option Var
deriving DecidableEq, Repr

/-- The call as a statement behind its index. -/
def CallSite.line (s : CallSite) : String := (Stmt.invoke s.call s.result).line s.index

/-- The caller as it is written in programs. -/
def CallSite.callerText (s : CallSite) : String := (s.caller.map MethodRef.text).getD "?"

/-- A statement is asked for by an index that the body does not have. -/
structure NoStatement where
  index : Int
  body : Body

namespace Body

/-- The number of occurrences of statements. -/
def length (b : Body) : Nat := b.slots.length

/-- The body in a short form. -/
def shown (b : Body) : String :=
  "IR(" ++ (b.owner.map MethodRef.text).getD "?" ++ ", " ++ toString b.length ++ " stmts)"

/-- The occurrence at a position. -/
def slotAt (b : Body) (i : Int) : Except NoStatement Slot :=
  match if i < 0 then none else b.slots[i.toNat]? with
  | some s => .ok s
  | none => .error ⟨i, b⟩

/-- The call site at a slot, if a call stands there. -/
def callSite? (b : Body) (s : Slot) : Option CallSite :=
  match s.stmt with
  | .invoke call result => some ⟨b.owner, b.revision, s.index, call, result⟩
  | _ => none

/-- The call sites of the body, in the order of their occurrences. -/
def callSites (b : Body) : List CallSite := b.slots.filterMap b.callSite?

/-- No statement occurs twice. -/
def Distinct (b : Body) : Prop := (b.slots.map Slot.index).Nodup

instance (b : Body) : Decidable b.Distinct :=
  inferInstanceAs (Decidable (b.slots.map Slot.index).Nodup)

end Body

/-- The wording of an error. -/
def NoStatement.message (e : NoStatement) : String :=
  "no statement with index " ++ toString e.index ++ " in " ++ e.body.shown

end ProgramAnalysis
