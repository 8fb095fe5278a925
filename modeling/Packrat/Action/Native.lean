import Packrat.Error
import Packrat.Action.Template
import Packrat.Text.Blank

/-!
# Functions of actions

The functions that actions can call. A function sees the values of its arguments and nothing else,
and fails with a cause of the action category: a wrong number of arguments is found before a wrong
type, and types are checked from left to right.
-/

namespace Packrat

/-- A function that actions can call. -/
abbrev Native := List Value → Except Cause Value

namespace Native

/-- The failure of a function that got a wrong number of arguments. -/
def wrongCount (name expected : String) (args : List Value) : Except Cause Value :=
  .error (.actionArity name expected args.length)

/-- The failure of a function that got a value of a wrong type. -/
def wrongType {α : Type} (expected : String) (v : Value) : Except Cause α :=
  .error (.typeMismatch expected v.typeName)

def asString : Value → Except Cause String
  | .string s => .ok s
  | v => wrongType "String" v

def asList : Value → Except Cause (List Value)
  | .list items => .ok items
  | v => wrongType "List" v

def asNode : Value → Except Cause (String × List Value)
  | .node tag children => .ok (tag, children)
  | v => wrongType "Node" v

/-- A width: a whole number from 0 to 1024. -/
def asWidth : Value → Except Cause Nat
  | .number n =>
    match n.toInt? with
    | some i =>
      if 0 ≤ i ∧ i ≤ 1024 then .ok i.toNat
      else .error (.typeMismatch "integer between 0 and 1024" "Number")
    | none => .error (.typeMismatch "integer between 0 and 1024" "Number")
  | v => wrongType "non-negative integer" v

/-- The shown forms of values with a separator between them. -/
def joined (separator : String) (items : List Value) : Value :=
  .string (separator.intercalate (Value.displayAll items))

/-! ### Strings -/

/-- The shown forms of all arguments, run together. -/
def concat : Native := fun args => .ok (joined "" args)

/-- The shown form of a value. -/
def str : Native
  | [v] => .ok (.string v.display)
  | args => wrongCount "str" "1" args

/-- The shown forms of the items of a list, with an optional separator. -/
def join : Native
  | [v] => return joined "" (← asList v)
  | [v, sep] => do
    let items ← asList v
    return joined (← asString sep) items
  | args => wrongCount "join" "1..=2" args

/-- A string made fit for a double-quoted literal. -/
def escape : Native
  | [v] => return .string (Text.escape (← asString v))
  | args => wrongCount "escape" "1" args

/-- What a string stands for after a backslash. -/
def unescape : Native
  | [v] => return .string (Text.unescape (← asString v))
  | args => wrongCount "unescape" "1" args

/-- The number that a text stands for; a number stands for itself. -/
def toNumber : Native
  | [.number n] => .ok (.number n)
  | [.string s] =>
    match Number.parse? (Text.trimBlank s.toList) with
    | some n => .ok (.number n)
    | none => .error (.typeMismatch "numeric text" ("'" ++ s ++ "'"))
  | [v] => wrongType "String" v
  | args => wrongCount "to_number" "1" args

/-! ### Lists -/

/-- The list of the arguments. -/
def list : Native := fun args => .ok (.list args)

/-- A list with one more item in front. -/
def cons : Native
  | [v, tail] => return .list (v :: (← asList tail))
  | args => wrongCount "cons" "2" args

/-- A list with one more item at the end. -/
def append : Native
  | [items, v] => return .list ((← asList items) ++ [v])
  | args => wrongCount "append" "2" args

/-- Two lists, one after the other. -/
def extend : Native
  | [as, bs] => do
    let items ← asList as
    return .list (items ++ (← asList bs))
  | args => wrongCount "extend" "2" args

/-- The first item of a list; `nil` if there is none. -/
def first : Native
  | [v] => return (← asList v).headD .nil
  | args => wrongCount "first" "1" args

/-- How many characters, items or children a value has. -/
def len : Native
  | [.string s] => .ok (.number (.ofNat s.length))
  | [.list items] => .ok (.number (.ofNat items.length))
  | [.node _ children] => .ok (.number (.ofNat children.length))
  | [v] => wrongType "String, List or Node" v
  | args => wrongCount "len" "1" args

/-- Whether a value has no characters, items or children; `nil` has none. -/
def isEmpty : Native
  | [.nil] => .ok (.bool true)
  | [.string s] => .ok (.bool s.isEmpty)
  | [.list items] => .ok (.bool items.isEmpty)
  | [.node _ children] => .ok (.bool children.isEmpty)
  | [v] => wrongType "String, List or Node" v
  | args => wrongCount "is_empty" "1" args

/-! ### Nodes -/

/-- The node with the given tag and children. -/
def node : Native
  | tag :: children => return .node (← asString tag) children
  | args => wrongCount "node" "at least 1" args

def tag : Native
  | [v] => return .string (← asNode v).1
  | args => wrongCount "tag" "1" args

def children : Native
  | [v] => return .list (← asNode v).2
  | args => wrongCount "children" "1" args

/-! ### Guards -/

def eq : Native
  | [a, b] => .ok (.bool (a.equals b))
  | args => wrongCount "eq" "2" args

def not : Native
  | [v] => .ok (.bool !v.isTruthy)
  | args => wrongCount "not" "1" args

/-! ### Generated text -/

/-- The shown form of a value with its lines moved to the right, by two places or the given
number. -/
def indent : Native
  | [v] => .ok (indented v 2)
  | [v, width] => return indented v (← asWidth width)
  | args => wrongCount "indent" "1..=2" args
where
  indented (v : Value) (width : Nat) : Value :=
    .string (String.ofList (Template.indent (List.replicate width ' ') true v.display.toList))

/-- The shown forms of the items of a list, one to a line. -/
def lines : Native
  | [v] => return joined "\n" (← asList v)
  | args => wrongCount "lines" "1" args

/-- A template with its places filled by the other arguments; arguments left over are ignored. -/
def template : Native
  | form :: values => do
    match Template.fill (← asString form).toList values with
    | some cs => return .string (String.ofList cs)
    | none => wrongCount "template" "one argument per \x7b\x7d" values
  | args => wrongCount "template" "at least 1" args

end Native

end Packrat
