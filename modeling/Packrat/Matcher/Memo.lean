import Packrat.Grammar.Basic
import Packrat.Value.Digest
import Packrat.Value.Signature
import Std.Data.TreeMap

/-!
# Memo tables

What is known about rule applications in one frame, by application and position. An application is
`active` while it runs; one that is met again while active is left-recursive. The table logs
applications in the order in which they began, so that everything begun after one of them can be
forgotten: that is how an application that grows from a seed discards what was computed on the seed
before.
-/

namespace Packrat

/-- A rule application, apart from its position. -/
structure Call where
  rule : String
  /-- The signatures of the arguments: a table does not tell NaNs apart. -/
  args : List Value
  /-- The grammar in which names are looked up. -/
  dispatch : Grammar
  /-- The grammar that defines the rule. -/
  owner : Grammar
  /-- A word by which most applications can be told apart. -/
  digest : UInt64 := Value.digest rule args
deriving DecidableEq

/-- The application of a rule to arguments. -/
def Rule.call (rule : Rule) (dispatch owner : Grammar) (args : List Value) : Call :=
  { rule := rule.name, args := Value.signatures args, dispatch, owner }

/-- What is known about a rule application at a position; `φ` is the type of accounts. -/
inductive Entry (φ : Type)
  /-- It is running; `leftRecursive` says whether it was met again meanwhile. -/
  | active (leftRecursive : Bool)
  /-- It ended at `stop` with a value or without one, and gave the given account. -/
  | done (value : Option Value) (stop : Nat) (account : φ)

/-- A rule application at a position. -/
abbrev Spot := Nat × Call

/-- The number under which the table keeps an application: its position, then the upper part of its
digest. Few applications share one. -/
def Spot.slot (spot : Spot) : Nat := spot.1 * 0x1000000 + (spot.2.digest >>> 40).toNat

/-- The applications that share a slot. -/
abbrev Bucket (φ : Type) := List (Spot × Entry φ)

namespace Bucket

variable {φ : Type}

/-- Sets the entry of an application. -/
def set (spot : Spot) (entry : Entry φ) : Bucket φ → Bucket φ
  | [] => [(spot, entry)]
  | (s, e) :: rest =>
    if s = spot then (spot, entry) :: rest else (s, e) :: set spot entry rest

/-- Removes the entry of an application. -/
def erase (spot : Spot) (bucket : Bucket φ) : Bucket φ := bucket.filter fun item => item.1 ≠ spot

end Bucket

/-- The table of a frame. -/
structure Memo (φ : Type) where
  /-- Entries by slot. -/
  buckets : Std.TreeMap Nat (Bucket φ) := {}
  /-- Every application that began and was not forgotten, the oldest first. -/
  log : Array Spot := #[]

namespace Memo

variable {φ : Type}

def empty : Memo φ := {}

/-- The entries of a slot. -/
def bucket (m : Memo φ) (slot : Nat) : Bucket φ := m.buckets.getD slot []

/-- What is known about an application. -/
def get? (m : Memo φ) (spot : Spot) : Option (Entry φ) := (m.bucket spot.slot).lookup spot

def set (m : Memo φ) (spot : Spot) (entry : Entry φ) : Memo φ :=
  let slot := spot.slot
  { m with buckets := m.buckets.insert slot ((m.bucket slot).set spot entry) }

def erase (m : Memo φ) (spot : Spot) : Memo φ :=
  let slot := spot.slot
  { m with buckets := m.buckets.insert slot ((m.bucket slot).erase spot) }

/-- The place that the next application gets in the log. -/
def mark (m : Memo φ) : Nat := m.log.size

/-- Notes that an application begins. -/
def begin (m : Memo φ) (spot : Spot) : Memo φ :=
  { m with log := m.log.push spot }.set spot (.active false)

/-- Whether an application is running and was met again. -/
def isLeftRecursive (m : Memo φ) (spot : Spot) : Bool :=
  match m.get? spot with
  | some (.active leftRecursive) => leftRecursive
  | _ => false

/-- Forgets every application that began after the one at `mark` in the log. -/
def forgetAfter (m : Memo φ) (mark : Nat) : Memo φ :=
  let later := m.log.extract (mark + 1) m.log.size
  later.foldl (fun m spot => m.erase spot) { m with log := m.log.take (mark + 1) }

end Memo

end Packrat
