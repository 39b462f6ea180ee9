import GraphPattern.Statement.Basic

/-!
The walk over a statement and the statements nested in it: depth first, parents before
children, children in the order of the properties. It keeps a stack of the statements still
to be visited. A visit replaces a statement by its children, whose total size is one less,
so the stack runs empty.
-/

namespace GraphPattern

/-! ### Size

The size of a statement is the number of statements in it, itself included. -/

mutual

def Statement.size : Statement → Nat
  | ⟨_, ps⟩ => Property.sizeList ps + 1

def Property.size : Property → Nat
  | .relation players => RolePlayer.sizeList players
  | .isa t => t.size
  | .type _ => 0

def RolePlayer.size : RolePlayer → Nat
  | .plain player => player.size
  | .tagged role player => player.size + role.size

def Property.sizeList : List Property → Nat
  | [] => 0
  | p :: ps => p.size + Property.sizeList ps

def RolePlayer.sizeList : List RolePlayer → Nat
  | [] => 0
  | a :: as => a.size + RolePlayer.sizeList as

end

namespace Statement

/-- The number of statements in the statements of a list. -/
def totalSize : List Statement → Nat
  | [] => 0
  | s :: ss => s.size + totalSize ss

@[simp] theorem totalSize_nil : totalSize [] = 0 := rfl

@[simp] theorem totalSize_cons (s : Statement) (ss : List Statement) :
    totalSize (s :: ss) = s.size + totalSize ss := rfl

@[simp] theorem totalSize_append (ss ts : List Statement) :
    totalSize (ss ++ ts) = totalSize ss + totalSize ts := by
  induction ss with
  | nil => simp
  | cons s ss ih => simp [ih, Nat.add_assoc]

end Statement

open Statement

theorem RolePlayer.totalSize_statements (a : RolePlayer) : totalSize a.statements = a.size := by
  cases a <;> simp [RolePlayer.statements, RolePlayer.size]

theorem RolePlayer.totalSize_flatMap_statements (as : List RolePlayer) :
    totalSize (as.flatMap RolePlayer.statements) = RolePlayer.sizeList as := by
  induction as with
  | nil => rfl
  | cons a as ih =>
      rw [List.flatMap_cons, totalSize_append, a.totalSize_statements, ih, RolePlayer.sizeList]

theorem Property.totalSize_statements (p : Property) : totalSize p.statements = p.size := by
  cases p with
  | relation players => exact RolePlayer.totalSize_flatMap_statements players
  | isa t => simp [Property.statements, Property.size]
  | type label => rfl

theorem Property.totalSize_flatMap_statements (ps : List Property) :
    totalSize (ps.flatMap Property.statements) = Property.sizeList ps := by
  induction ps with
  | nil => rfl
  | cons p ps ih =>
      rw [List.flatMap_cons, totalSize_append, p.totalSize_statements, ih, Property.sizeList]

namespace Statement

/-- A statement has one statement more than its children together. -/
theorem size_eq (s : Statement) : s.size = totalSize s.children + 1 := by
  obtain ⟨v, ps⟩ := s
  simp only [size, children, Property.totalSize_flatMap_statements]

/-! ### The walk -/

/-- Walks the statements of a stack, from its top. -/
def walk : List Statement → List Statement
  | [] => []
  | s :: stack => s :: walk (s.children ++ stack)
termination_by stack => totalSize stack
decreasing_by
  have h := s.size_eq
  simp only [totalSize_append, totalSize_cons]
  omega

@[simp] theorem walk_nil : walk [] = [] := by
  rw [walk]

theorem walk_cons (s : Statement) (stack : List Statement) :
    walk (s :: stack) = s :: walk (s.children ++ stack) := by
  rw [walk]

/-- The statement and all statements nested in it, in the order of the walk. -/
def innerStatements (s : Statement) : List Statement := walk [s]

/-- The visible variables of the inner statements, in the order of their first occurrence.
-/
def visibleVariables (s : Statement) : List Variable :=
  ((s.innerStatements.map subject).filter Variable.isVisible).eraseDups

end Statement

end GraphPattern
