import Packrat.Error
import Packrat.Matcher.Account
import Packrat.Matcher.Memo

/-!
# Running matches

What a match carries along in one frame, and the steps that look at a single element.

A step yields a value or `none`, an ordinary failure that another alternative may make good, and
always the state it leaves behind. `Halt` is for what ends the whole run.
-/

namespace Packrat

/-- What ends a whole run. -/
inductive Halt
  | fatal (cause : Cause)
  /-- A loop used up the rounds that its input allows for. -/
  | exhausted
deriving DecidableEq

/-- What a match carries along in one frame; `φ` is the type of accounts. -/
structure State (φ : Type) where
  pos : Nat
  memo : Memo φ
  /-- What was missed so far. -/
  account : φ

/-- The answer of a step: a value or an ordinary failure, and the state left behind. -/
abbrev Answer (φ : Type) := Option Value × State φ

/-- What applying a rule does with the state. -/
abbrev Attempt (φ : Type) := State φ → Except Halt (Answer φ)

variable {φ : Type} [Account φ]

namespace State

/-- The start of a frame, with what was missed before it. -/
def start (account : φ) : State φ := { pos := 0, memo := .empty, account }

/-- Moves to a position. -/
def moveTo (st : State φ) (pos : Nat) : State φ := { st with pos }

/-- Adds to what was missed. -/
def missed (st : State φ) (more : φ) : State φ :=
  { st with account := Account.append st.account more }

/-- Notes that `label` was expected at a position. -/
def expect (st : State φ) (frame : Frame) (pos : Nat) (label : String) : State φ :=
  st.missed (Account.miss frame pos label)

/-- A success that ends at `stop`. -/
def accept (st : State φ) (stop : Nat) (v : Value) : Answer φ :=
  (some v, st.moveTo stop)

/-- A failure here. -/
def reject (st : State φ) (frame : Frame) (label : String) : Answer φ :=
  (none, st.expect frame st.pos label)

end State

namespace Frame

/-- Any one element. -/
def any (frame : Frame) (st : State φ) : Answer φ :=
  match frame.input.element? st.pos with
  | some v => st.accept (st.pos + 1) v
  | none => st.reject frame "anything"

/-- Whether the element at a position is the given value; a character of a text is a string. -/
def hasExactly (frame : Frame) (pos : Nat) (v : Value) : Bool :=
  match frame.input with
  | .text chars => v.char?.any fun c => chars[pos]? == some c
  | .items values => values[pos]?.any fun w => w.equals v

/-- One element equal to a value. -/
def exactly (frame : Frame) (v : Value) (st : State φ) : Answer φ :=
  if frame.hasExactly st.pos v then st.accept (st.pos + 1) v else st.reject frame v.describe

/-- Where a literal ends: after a run of characters of a text, after one item that is this
string. -/
def literalEnd? (frame : Frame) (pos : Nat) (text : String) : Option Nat :=
  match frame.input with
  | .text chars => Input.runEnd? chars pos text.toList
  | .items values => if values[pos]?.bind Value.string? = some text then some (pos + 1) else none

/-- A literal. -/
def literal (frame : Frame) (text : String) (st : State φ) : Answer φ :=
  match frame.literalEnd? st.pos text with
  | some stop => st.accept stop (.string text)
  | none => st.reject frame (Text.quoted text)

/-- One character that passes a test. -/
def charIf (frame : Frame) (test : Char → Bool) (label : String) (st : State φ) :
    Answer φ :=
  match frame.input.char? st.pos with
  | some c => if test c then st.accept (st.pos + 1) (.string c.toString) else st.reject frame label
  | none => st.reject frame label

/-- One item that passes a test; a text has no items. -/
def itemIf (frame : Frame) (test : Value → Bool) (label : String) (st : State φ) :
    Answer φ :=
  match frame.input with
  | .text _ => st.reject frame label
  | .items values =>
    match values[st.pos]? with
    | some v => if test v then st.accept (st.pos + 1) v else st.reject frame label
    | none => st.reject frame label

end Frame

end Packrat
