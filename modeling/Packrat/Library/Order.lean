import Packrat.Notation.Declaration

/-!
# Dependency order

Declarations that need one another are built in an order in which each comes after those it needs.
The order is found by visiting declarations in name order, each after what it depends on; meeting a
declaration again on the way down is a cycle.
-/

namespace Packrat.Library

/-- The chain of a cycle: the names visited from `name` on, then `name` again. -/
def cycleOf (stack : List String) (name : String) : List String :=
  stack.dropWhile (fun n => n ≠ name) ++ [name]

/-- Visits a declaration: `stack` holds the names being visited, outermost first, and `order` those
already put in order. Names that are not declared are left alone. At most `fuel` names are visited
inside one another, and `stack` never holds a name twice, so the number of declarations is
enough. -/
def visit (decls : List Declaration) :
    (fuel : Nat) → (stack order : List String) → String → Except Cause (List String)
  | fuel, stack, order, name =>
    if name ∈ order then .ok order
    else if name ∈ stack then .error (.cyclicParent (cycleOf stack name))
    else
      match fuel, Roster.get? Declaration.name name decls with
      | fuel + 1, some d => do
        let order ← d.dependencies.foldlM (visit decls fuel (stack ++ [name])) order
        return order ++ [name]
      | _, _ => .ok order

/-- **Dependency order** of a roster of declarations. -/
def dependencyOrder (decls : List Declaration) : Except Cause (List String) :=
  decls.foldlM (fun order d => visit decls decls.length [] order d.name) []

end Packrat.Library
