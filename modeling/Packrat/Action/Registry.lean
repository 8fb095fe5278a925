import Packrat.Action.Basic
import Packrat.Action.Native
import Packrat.Roster

/-!
# Registries

The functions that actions can call, by name, and the value of an action.

* `Registry.standard`: the standard functions.
* `Action.eval`: the value of an action under a registry and a scope.
-/

namespace Packrat

/-- Functions by name, in name order. -/
structure Registry where
  entries : List (String × Native) := []

namespace Registry

def get? (r : Registry) (name : String) : Option Native :=
  (Roster.get? Prod.fst name r.entries).map Prod.snd

def has (r : Registry) (name : String) : Bool := Roster.has Prod.fst name r.entries

/-- Adds a function, in place of the one of the same name. -/
def insert (r : Registry) (name : String) (f : Native) : Registry :=
  ⟨Roster.insert Prod.fst (name, f) r.entries⟩

def erase (r : Registry) (name : String) : Registry := ⟨Roster.erase Prod.fst name r.entries⟩

def names (r : Registry) : List String := r.entries.map Prod.fst

def size (r : Registry) : Nat := r.entries.length

/-- The standard functions. -/
def standard : Registry :=
  ⟨Roster.ofList Prod.fst
    [("concat", Native.concat), ("str", Native.str), ("join", Native.join),
      ("escape", Native.escape), ("unescape", Native.unescape), ("to_number", Native.toNumber),
      ("list", Native.list), ("cons", Native.cons), ("append", Native.append),
      ("extend", Native.extend), ("first", Native.first), ("len", Native.len),
      ("is_empty", Native.isEmpty), ("node", Native.node), ("tag", Native.tag),
      ("children", Native.children), ("eq", Native.eq), ("not", Native.not),
      ("indent", Native.indent), ("lines", Native.lines), ("template", Native.template)]⟩

end Registry

/-- The values that names are bound to, the latest first. -/
abbrev Scope := List (String × Value)

namespace Scope

def get? (s : Scope) (name : String) : Option Value := s.lookup name

/-- Binds a name, which loses the value it had. -/
def insert (s : Scope) (name : String) (v : Value) : Scope :=
  (name, v) :: s.filter fun entry => entry.1 ≠ name

/-- The scope of a rule that starts: its parameters bound to the arguments. -/
def ofParams (params : List String) (args : List Value) : Scope :=
  (params.zip args).foldl (fun s entry => s.insert entry.1 entry.2) []

end Scope

namespace Action

mutual

/-- **The value of an action.** A function is looked up before its arguments are computed. -/
def eval (registry : Registry) (scope : Scope) : Action → Except Cause Value
  | literal v => .ok v
  | var name =>
    match scope.get? name with
    | some v => .ok v
    | none => .error (.undefinedVariable name)
  | list items => return .list (← evalAll registry scope items)
  | node tag args => return .node tag (← evalAll registry scope args)
  | call func args =>
    match registry.get? func with
    | none => .error (.unknownAction func)
    | some f => do f (← evalAll registry scope args)

/-- The values of the actions of a list, from left to right. -/
def evalAll (registry : Registry) (scope : Scope) : List Action → Except Cause (List Value)
  | [] => .ok []
  | a :: as => do
    let v ← eval registry scope a
    let vs ← evalAll registry scope as
    return v :: vs

end

end Action

end Packrat
