import Packrat.Error
import Packrat.Grammar.Basic

/-!
# Declarations

Reading a grammar description gives a tree with one tag for each construct of the notation. Here
such a tree becomes a `Declaration`: a grammar whose parent and imports are still names. A tree of
any other shape is an error, since a library can be given another grammar to read with.

* `Action.ofTree`, `Expr.ofTree`, `Rule.ofTree`, `Declaration.ofTree`
-/

namespace Packrat

/-- A grammar whose parent and imports are names. -/
structure Declaration where
  name : String
  parent : Option String := none
  imports : List String := []
  rules : List Rule := []
deriving DecidableEq, Inhabited

/-- The grammars that must be there first: the parent, then the imports. -/
def Declaration.dependencies (d : Declaration) : List String := d.parent.toList ++ d.imports

namespace Tree

/-- The error about a value of a wrong shape. -/
def malformed {α : Type} (message : String) (v : Value) : Except Cause α :=
  .error (.malformedGrammar (message ++ v.display))

/-- A string; `what` says what it stands for. -/
def name (what : String) : Value → Except Cause String
  | .string s => .ok s
  | v => malformed ("expected " ++ what ++ " as a string, found ") v

/-- A string of one character. -/
def bound (v : Value) : Except Cause Char :=
  match v.char? with
  | some c => .ok c
  | none => malformed "range bounds must be single characters, found " v

/-- A list of strings. -/
def names (what each : String) : Value → Except Cause (List String)
  | .list items => items.mapM (name each)
  | v => malformed ("expected a list of " ++ what ++ ", found ") v

end Tree

namespace Action

mutual

/-- The action of a tree. -/
def ofTree : Value → Except Cause Action
  | .node "HLit" [v] => .ok (literal v)
  | .node "HVar" [v] => return var (← Tree.name "a variable" v)
  | .node "HList" [items] => return list (← ofList items)
  | .node "HNode" [tag, args] => do
    let tag ← Tree.name "a tag" tag
    return node tag (← ofList args)
  | .node "HCall" [func, args] => do
    let func ← Tree.name "a function" func
    return call func (← ofList args)
  | v@(.node _ _) => Tree.malformed "unexpected action node " v
  | v => Tree.malformed "expected an action node, found " v

/-- The actions of a list of trees. -/
def ofList : Value → Except Cause (List Action)
  | .list items => ofTrees items
  | v => Tree.malformed "expected a list of actions, found " v

/-- The actions of trees, from left to right. -/
def ofTrees : List Value → Except Cause (List Action)
  | [] => .ok []
  | v :: vs => do
    let a ← ofTree v
    return a :: (← ofTrees vs)

end

end Action

namespace Expr

/-- A choice or sequence of one part is that part. -/
def unwrapped (wrap : List Expr → Expr) : List Expr → Expr
  | [e] => e
  | es => wrap es

mutual

/-- **The expression of a tree.** -/
def ofTree : Value → Except Cause Expr
  | .node "Or" [items] => return unwrapped choice (← ofList items)
  | .node "And" [items] => return unwrapped sequence (← ofList items)
  | .node "Not" [body] => return not (← ofTree body)
  | .node "Look" [body] => return look (← ofTree body)
  | .node "Bind" [name, body] => do
    let name ← Tree.name "a binding name" name
    return bind name (← ofTree body)
  | .node "Many" [body] => return many (← ofTree body)
  | .node "Many1" [body] => return many1 (← ofTree body)
  | .node "Opt" [body] => return opt (← ofTree body)
  | .node "List" [body] => return nested (← ofTree body)
  | .node "Capture" [body] => return capture (← ofTree body)
  | .node "Pred" [a] => return guard (← Action.ofTree a)
  | .node "Act" [a] => return action (← Action.ofTree a)
  | .node "Range" [low, high] => do
    let low ← Tree.bound low
    return range low (← Tree.bound high)
  | .node "Lit" [text] => return literal (← Tree.name "a literal" text)
  | .node "Tok" [text] => return token (← Tree.name "a token" text)
  | .node "Sym" [text] => return terminal (.string (← Tree.name "a symbol" text))
  | .node "Num" [.number n] => .ok (terminal (.number n))
  | .node "Any" [] => .ok any
  | .node "Super" [rule, args] => do
    let rule ← Tree.name "a rule name" rule
    return super rule (← Action.ofList args)
  | .node "Foreign" [grammar, rule, args] => do
    let grammar ← Tree.name "a grammar name" grammar
    let rule ← Tree.name "a rule name" rule
    return foreign grammar rule (← Action.ofList args)
  | .node "App" [rule, args] => do
    let rule ← Tree.name "a rule name" rule
    return apply rule (← Action.ofList args)
  | v@(.node _ _) => Tree.malformed "unexpected expression node " v
  | v => Tree.malformed "expected an expression node, found " v

/-- The expressions of a list of trees. -/
def ofList : Value → Except Cause (List Expr)
  | .list items => ofTrees items
  | v => Tree.malformed "expected a list of expressions, found " v

/-- The expressions of trees, from left to right. -/
def ofTrees : List Value → Except Cause (List Expr)
  | [] => .ok []
  | v :: vs => do
    let e ← ofTree v
    return e :: (← ofTrees vs)

end

end Expr

/-- The rule of a tree. -/
def Rule.ofTree : Value → Except Cause Rule
  | .node "Rule" [name, params, body] => do
    let params ← Tree.names "parameters" "a parameter" params
    let name ← Tree.name "a rule name" name
    return { name, params, body := ← Expr.ofTree body }
  | v@(.node _ _) => Tree.malformed "unexpected rule node " v
  | v => Tree.malformed "expected a Rule node, found " v

namespace Declaration

/-- The rules of a list of trees. -/
def rulesOfTree : Value → Except Cause (List Rule)
  | .list items => items.mapM Rule.ofTree
  | v => Tree.malformed "expected a list of rules, found " v

/-- The name of the parent, or `nil`. -/
def parentOfTree : Value → Except Cause (Option String)
  | .nil => .ok none
  | v => return some (← Tree.name "a parent name" v)

/-- **The declaration of a tree.** -/
def ofTree : Value → Except Cause Declaration
  | .node tag [name, parent, imports, rules] => do
    if tag ≠ "Grammar" then
      .error (.malformedGrammar ("expected a Grammar node, found @" ++ tag))
    let parent ← parentOfTree parent
    let imports ← Tree.names "imports" "an import" imports
    let rules ← rulesOfTree rules
    return { name := ← Tree.name "a grammar name" name, parent, imports, rules }
  | v@(.node _ _) => Tree.malformed "unexpected grammar node " v
  | v => Tree.malformed "expected a Grammar node, found " v

end Declaration

end Packrat
