import Packrat.Input

/-!
# Frames

A frame is one input being matched: the root, or the contents of an element that a nested match
entered. It knows the way from the root to itself, so a position in it is a path of positions.

* `Frame.enter?`: the frame of an element's contents.
-/

namespace Packrat

/-- One input being matched, and the way to it. -/
structure Frame where
  input : Input
  /-- The positions of the elements entered, outermost first. -/
  path : List Nat := []
  /-- The tags of the nodes entered, outermost first. -/
  tags : List String := []
deriving DecidableEq

namespace Frame

/-- The path to a position of the frame. -/
def location (f : Frame) (pos : Nat) : List Nat := f.path ++ [pos]

/-- The frame of the contents of the element at `pos`: of a list, of a node, or of a string that is
an item. -/
def enter? (f : Frame) (pos : Nat) : Option Frame :=
  let inside (input : Input) (tags : List String) : Frame :=
    { input, path := f.location pos, tags := f.tags ++ tags }
  match f.input.element? pos with
  | some (.list items) => some (inside (.ofList items) [])
  | some (.node tag children) => some (inside (.ofList (.string tag :: children)) [tag])
  | some (.string s) => if f.input.isText then none else some (inside (.ofString s) [])
  | _ => none

end Frame

end Packrat
