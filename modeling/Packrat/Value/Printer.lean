import Packrat.Value.Basic
import Packrat.Number.Printer
import Packrat.Text.Escape

/-!
# Written values

* `Value.display`: the form in which actions join values into text.
* `Value.describe`: the short form in failure reports.
* `Value.render`: the text that a transformed tree comes to; lists are run together.
* `Value.json`: the JSON form, two spaces to a level.
-/

namespace Packrat.Value

mutual

/-- **Shown form.** Strings stand for themselves, lists are bracketed, and a node is written
`@tag(children)`. -/
def display : Value → String
  | nil => "nil"
  | bool b => if b then "true" else "false"
  | number n => n.display
  | string s => s
  | list items => "[" ++ ", ".intercalate (displayAll items) ++ "]"
  | node tag children => "@" ++ tag ++ "(" ++ ", ".intercalate (displayAll children) ++ ")"

/-- The shown forms of the items of a list. -/
def displayAll : List Value → List String
  | [] => []
  | v :: vs => display v :: displayAll vs

end

/-- The short form in failure reports: a string in quotes, a node by its tag. -/
def describe : Value → String
  | string s => Text.quoted s
  | node tag _ => "@" ++ tag
  | v => v.display

mutual

/-- The text of a transformed tree: strings and the items of lists are run together. -/
def render : Value → String
  | string s => s
  | list items => "".intercalate (renderAll items)
  | v => v.display

/-- The texts of the items of a list. -/
def renderAll : List Value → List String
  | [] => []
  | v :: vs => render v :: renderAll vs

end

/-- A character inside a JSON string. -/
def jsonChar (c : Char) : List Char :=
  if c = '"' then ['\\', '"']
  else if c = '\\' then ['\\', '\\']
  else if c = '\x08' then ['\\', 'b']
  else if c = '\x0c' then ['\\', 'f']
  else if c = '\n' then ['\\', 'n']
  else if c = '\r' then ['\\', 'r']
  else if c = '\t' then ['\\', 't']
  else if c.toNat < 0x20 then
    "\\u00".toList ++ [Nat.digitChar (c.toNat / 16), Nat.digitChar (c.toNat % 16)]
  else [c]

/-- A JSON string. -/
def jsonString (s : String) : String :=
  "\"" ++ String.ofList (s.toList.flatMap jsonChar) ++ "\""

/-- The start of a line at the given level. -/
def jsonIndent (level : Nat) : String := String.ofList (List.replicate (2 * level) ' ')

/-- A JSON object with its members on lines of their own. -/
def jsonObject (level : Nat) (members : List (String × String)) : String :=
  let line (m : String × String) := jsonIndent (level + 1) ++ jsonString m.1 ++ ": " ++ m.2
  "\x7b\n" ++ ",\n".intercalate (members.map line) ++ "\n" ++ jsonIndent level ++ "\x7d"

/-- A JSON array with its items on lines of their own; an empty one has no lines. -/
def jsonArray (level : Nat) (items : List String) : String :=
  if items.isEmpty then "[]"
  else
    let line (item : String) := jsonIndent (level + 1) ++ item
    "[\n" ++ ",\n".intercalate (items.map line) ++ "\n" ++ jsonIndent level ++ "]"

mutual

/-- **JSON form.** Every value but `nil` is an object whose one member is named for its type;
`level` is the depth of the line on which it starts. -/
def json (level : Nat) : Value → String
  | nil => jsonString "Nil"
  | bool b => jsonObject level [("Bool", if b then "true" else "false")]
  | number n => jsonObject level [("Number", n.json)]
  | string s => jsonObject level [("String", jsonString s)]
  | list items => jsonObject level [("List", jsonArray (level + 1) (jsonAll (level + 2) items))]
  | node tag children =>
    jsonObject level [("Node", jsonObject (level + 1)
      [("tag", jsonString tag),
        ("children", jsonArray (level + 2) (jsonAll (level + 3) children))])]

/-- The JSON forms of the items of a list. -/
def jsonAll (level : Nat) : List Value → List String
  | [] => []
  | v :: vs => json level v :: jsonAll level vs

end

end Packrat.Value
