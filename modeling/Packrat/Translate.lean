import Packrat.Engine

/-!
# Transforming trees

A tree is turned into text by running a rule over it. The tree is the only item of the input, and
the text is that of the value the rule yields.

* `Engine.translate`: the text of a tree.
-/

namespace Packrat

/-- The error of a tree that no rule matched: it names the innermost node around the place, or the
root, and the way there. -/
def untranslated (root : Value) (f : Failure) : Error :=
  let rootName :=
    match root with
    | .node tag _ => tag
    | v => v.typeName
  let place := if f.tags.isEmpty then "the root" else " > ".intercalate f.tags
  { cause := .transform (f.tags.getLast?.getD rootName) f.tags f
    help := some ("no alternative matched inside " ++ place) }

/-- **The text of a tree**, as the rule `entry` writes it. -/
def Engine.translate (e : Engine) (root : Value) (g : Grammar) (entry : String) :
    Except Error String :=
  match e.run g entry (.ofList [root]) [] true with
  | .error h => .error (e.causeOfHalt h)
  | .ok (.success v _) => .ok v.render
  | .ok (.failure f) => .error (untranslated root f)

end Packrat
