import Packrat.Grammar.Basic
import Packrat.Error

/-!
# Drafts

A draft collects the parts of a grammar. `Draft.build` turns it into a grammar if its parts fit:
no ancestor has its name, no rule is defined twice, and every application names a rule that can be
reached, with as many arguments as it takes.
-/

namespace Packrat

/-- The parts of a grammar in the order in which they were added. -/
structure Draft where
  name : String
  parent : Option Grammar := none
  imports : List Grammar := []
  rules : List Rule := []
  /-- The stamp that the grammar gets. -/
  stamp : Nat := 0

namespace Draft

/-- The grammar of a draft, unchecked: rules and imports are put in name order. -/
def freeze (d : Draft) : Grammar :=
  { name := d.name, parent := d.parent, imports := Roster.ofList Grammar.name d.imports,
    rules := Roster.ofList Rule.name d.rules, stamp := d.stamp }

/-- No ancestor may have the name of the grammar. -/
def checkAncestry (d : Draft) : Except Cause Unit :=
  match d.parent with
  | some p => if d.name ∈ p.ancestry then .error (.cyclicParent (d.name :: p.ancestry)) else .ok ()
  | none => .ok ()

/-- No two rules may have one name; `seen` holds the names before. -/
def checkDistinct (grammar : String) : (seen : List String) → List Rule → Except Cause Unit
  | _, [] => .ok ()
  | seen, r :: rs =>
    if r.name ∈ seen then .error (.duplicateRule r.name grammar)
    else checkDistinct grammar (r.name :: seen) rs

end Draft

namespace Grammar

/-- A name must mean something to `g`, and take `count` arguments; `home` is what an error calls
the grammar. -/
def checkCall (g : Grammar) (home rule : String) (count : Nat) : Except Cause Unit :=
  match g.target? rule with
  | none => .error (.unknownRule rule home)
  | some t =>
    if t.arity.accepts count then .ok () else .error (.arityMismatch t.name t.arity.text count)

/-- An application in a rule of `g` must be one that can be carried out. -/
def checkApplication (g : Grammar) : Expr → Except Cause Unit
  | .apply rule args => g.checkCall g.name rule args.length
  | .super rule args =>
    match g.parent with
    | none => .error (.unknownRule rule ("parent of " ++ g.name))
    | some p => p.checkCall p.name rule args.length
  | .foreign name rule args =>
    match g.import? name with
    | none => .error (.unknownGrammar name)
    | some h => h.checkCall h.name rule args.length
  | _ => .ok ()

/-- All applications in the rules of `g` must be ones that can be carried out. -/
def checkRules (g : Grammar) : Except Cause Unit :=
  (g.rules.flatMap fun r => r.body.subexprs).forM g.checkApplication

end Grammar

/-- **Building.** The grammar of a draft whose parts fit. -/
def Draft.build (d : Draft) : Except Cause Grammar := do
  d.checkAncestry
  checkDistinct d.name [] d.rules
  d.freeze.checkRules
  return d.freeze

end Packrat
