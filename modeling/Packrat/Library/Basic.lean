import Packrat.Engine
import Packrat.Grammar.Draft
import Packrat.Library.Order
import Packrat.Notation.Rules

/-!
# Libraries

A library holds grammars by name and reads descriptions of further ones. Loading several
descriptions at once builds them in dependency order; what was built before an error stays.

* `Library.parse`: reads a description.
* `Library.load`, `Library.loadAll`, `Library.loadDecls`: read and build.
* `Library.define`: builds a grammar from its parts.
* `Library.insert`: adds a grammar that is already built.
-/

namespace Packrat

/-- Grammars in name order, and what descriptions are read with. -/
structure Library where
  /-- The grammar that descriptions are read with. -/
  reader : Grammar := Notation.grammar
  /-- How descriptions are matched. -/
  engine : Engine := {}
  grammars : List Grammar := []

namespace Library

def get? (lib : Library) (name : String) : Option Grammar :=
  Roster.get? Grammar.name name lib.grammars

def has (lib : Library) (name : String) : Bool := Roster.has Grammar.name name lib.grammars

def names (lib : Library) : List String := lib.grammars.map Grammar.name

/-- Puts a grammar in its place. -/
def add (lib : Library) (g : Grammar) : Library :=
  { lib with grammars := Roster.insert Grammar.name g lib.grammars }

/-- Adds a grammar, unless there is one of its name. -/
def insert (lib : Library) (g : Grammar) : Except Cause Library :=
  if lib.has g.name then .error (.duplicateGrammar g.name) else .ok (lib.add g)

/-- The error of a description that could not be read; it points at where reading failed. -/
def unreadable (origin source : String) : Cause → Error
  | .parse failure =>
    { Error.ofSource (.grammarLoad failure) origin source failure.position with
      help := some "the grammar description does not follow the notation here" }
  | cause => cause

/-- **Reads a description**, which errors call `origin`. -/
def parse (lib : Library) (origin source : String) : Except Error Declaration := do
  let tree ← (lib.engine.matchAll lib.reader Notation.entry (.ofString source)).mapError
    (unreadable origin source)
  (Declaration.ofTree tree).mapError fun cause => { cause }

/-- A grammar that must be there. -/
def require (lib : Library) (name : String) : Except Cause Grammar :=
  match lib.get? name with
  | some g => .ok g
  | none => .error (.unknownGrammar name)

/-- A stamp that no grammar in reach of the library has: parents and imports are there before, so
their stamps are smaller than that of the grammar that has them. -/
def freshStamp (lib : Library) : Nat :=
  lib.grammars.foldl (fun stamp g => max stamp g.stamp) lib.reader.stamp + 1

/-- Builds a draft with a stamp of its own. -/
def buildDraft (lib : Library) (d : Draft) : Except Cause Grammar :=
  Draft.build { d with stamp := lib.freshStamp }

/-- Builds a draft and adds the grammar. -/
def define (lib : Library) (d : Draft) : Except Cause (Library × Grammar) := do
  let g ← lib.buildDraft d
  return (← lib.insert g, g)

/-- Builds a declaration with the parent and imports that the library has. -/
def build (lib : Library) (d : Declaration) : Except Cause Grammar := do
  let parent ← d.parent.mapM lib.require
  let imports ← d.imports.mapM lib.require
  lib.buildDraft { name := d.name, parent, imports, rules := d.rules }

/-- The roster of declarations whose names are new and distinct. -/
def pending (lib : Library) (decls : List Declaration) : Except Cause (List Declaration) :=
  decls.foldlM (fun roster d =>
    if lib.has d.name || Roster.has Declaration.name d.name roster then
      .error (.duplicateGrammar d.name)
    else .ok (Roster.insert Declaration.name d roster)) []

/-- Builds and adds declarations in the given order of names until one cannot be built. -/
def buildInOrder (decls : List Declaration) :
    (order : List String) → (built : List Grammar) → Library →
      Library × Except Error (List Grammar)
  | [], built, lib => (lib, .ok built.reverse)
  | name :: rest, built, lib =>
    match Roster.get? Declaration.name name decls with
    | none => buildInOrder decls rest built lib
    | some d =>
      match lib.build d with
      | .ok g => buildInOrder decls rest (g :: built) (lib.add g)
      | .error cause => (lib, .error cause)

/-- **Builds declarations in dependency order** and adds them. An error before the first is built
leaves the library as it was; a later one leaves what was built before it. -/
def loadDecls (lib : Library) (decls : List Declaration) : Library × Except Error (List Grammar) :=
  match (do
    let roster ← lib.pending decls
    return (roster, ← dependencyOrder roster)) with
  | .ok (roster, order) => buildInOrder roster order [] lib
  | .error cause => (lib, .error cause)

/-- Reads and builds one description; its parent and imports must be there. -/
def load (lib : Library) (origin source : String) : Library × Except Error Grammar :=
  match lib.parse origin source with
  | .error e => (lib, .error e)
  | .ok d =>
    match lib.loadDecls [d] with
    | (lib, .ok (g :: _)) => (lib, .ok g)
    | (lib, .ok []) => (lib, .error (Cause.malformedGrammar "no grammar in source"))
    | (lib, .error e) => (lib, .error e)

/-- Reads sources that errors number from `first` on. -/
def parseAll (lib : Library) : (first : Nat) → List String → Except Error (List Declaration)
  | _, [] => .ok []
  | first, source :: rest => do
    let d ← lib.parse ("<grammar " ++ toString first ++ ">") source
    return d :: (← lib.parseAll (first + 1) rest)

/-- Reads and builds descriptions that may need one another. -/
def loadAll (lib : Library) (sources : List String) : Library × Except Error (List Grammar) :=
  match lib.parseAll 1 sources with
  | .error e => (lib, .error e)
  | .ok decls => lib.loadDecls decls

end Library

end Packrat
