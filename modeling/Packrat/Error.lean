import Packrat.Failure
import Packrat.Text.Span

/-!
# Errors

`Cause` lists everything that can go wrong; its wording, category and code are functions of it. An
`Error` is a cause with the place in a source text that it is about, if it is about one, and a hint.
-/

namespace Packrat

/-- The five kinds of errors. -/
inductive Category
  | load
  | parse
  | transform
  | action
  | runtime
deriving DecidableEq

def Category.name : Category → String
  | load => "load"
  | parse => "parse"
  | transform => "transform"
  | action => "action"
  | runtime => "runtime"

/-- What went wrong. -/
inductive Cause
  /-- A grammar description does not follow the notation. -/
  | grammarLoad (failure : Failure)
  | unknownRule (rule grammar : String)
  | unknownGrammar (name : String)
  /-- Grammars that inherit from or import one another in a circle. -/
  | cyclicParent (chain : List String)
  | duplicateRule (rule grammar : String)
  | duplicateGrammar (name : String)
  | arityMismatch (rule expected : String) (actual : Nat)
  /-- A tree that is not the tree of a grammar description. -/
  | malformedGrammar (message : String)
  /-- A rule did not match the whole input. -/
  | parse (failure : Failure)
  /-- No rule matched while a tree was transformed; `path` holds the tags around the place. -/
  | transform (tag : String) (path : List String) (failure : Failure)
  | undefinedVariable (name : String)
  | unknownAction (name : String)
  | actionArity (action expected : String) (actual : Nat)
  | typeMismatch (expected actual : String)
  /-- Rule applications were nested deeper than allowed. -/
  | recursionLimit (limit : Nat)
  /-- A file could not be read or written. -/
  | io (path message : String)
deriving DecidableEq, Inhabited

namespace Cause

/-- The cause in words. -/
def message : Cause → String
  | grammarLoad failure => "malformed grammar: " ++ failure.message
  | unknownRule rule grammar =>
    "rule '" ++ rule ++ "' is not defined in grammar '" ++ grammar ++ "'"
  | unknownGrammar name => "grammar '" ++ name ++ "' is not defined"
  | cyclicParent chain => "cyclic grammar inheritance: " ++ " < ".intercalate chain
  | duplicateRule rule grammar =>
    "rule '" ++ rule ++ "' is defined twice in grammar '" ++ grammar ++ "'"
  | duplicateGrammar name => "grammar '" ++ name ++ "' is defined twice"
  | arityMismatch rule expected actual =>
    "rule '" ++ rule ++ "' expects " ++ expected ++ " argument(s), got " ++ toString actual
  | malformedGrammar message => "malformed grammar: " ++ message
  | parse failure => "parse error: " ++ failure.message
  | transform tag _ _ => "no matching transformation rule for node tag " ++ tag
  | undefinedVariable name => "undefined variable '" ++ name ++ "' in action"
  | unknownAction name => "unknown action function '" ++ name ++ "'"
  | actionArity action expected actual =>
    "action '" ++ action ++ "' expects " ++ expected ++ " argument(s), got " ++ toString actual
  | typeMismatch expected actual => "type error: expected " ++ expected ++ ", got " ++ actual
  | recursionLimit limit =>
    "recursion limit of " ++ toString limit ++ " rule applications exceeded"
  | io path message => "cannot access '" ++ path ++ "': " ++ message

/-- The kind of error that a cause is. -/
def category : Cause → Category
  | grammarLoad _ | unknownRule _ _ | unknownGrammar _ | cyclicParent _ | duplicateRule _ _
  | duplicateGrammar _ | arityMismatch _ _ _ | malformedGrammar _ => .load
  | parse _ => .parse
  | transform _ _ _ => .transform
  | undefinedVariable _ | unknownAction _ | actionArity _ _ _ | typeMismatch _ _ => .action
  | recursionLimit _ | io _ _ => .runtime

/-- The last part of the error code. -/
def codeName : Cause → String
  | grammarLoad _ => "grammar_load"
  | unknownRule _ _ => "unknown_rule"
  | unknownGrammar _ => "unknown_grammar"
  | cyclicParent _ => "cyclic_parent"
  | duplicateRule _ _ => "duplicate_rule"
  | duplicateGrammar _ => "duplicate_grammar"
  | arityMismatch _ _ _ => "arity_mismatch"
  | malformedGrammar _ => "malformed_grammar"
  | parse _ => "parse"
  | transform _ _ _ => "transform"
  | undefinedVariable _ => "undefined_variable"
  | unknownAction _ => "unknown_action"
  | actionArity _ _ _ => "action_arity"
  | typeMismatch _ _ => "type_mismatch"
  | recursionLimit _ => "recursion_limit"
  | io _ _ => "io"

/-- The failed match behind a cause, if there is one. -/
def failure? : Cause → Option Failure
  | grammarLoad failure | parse failure | transform _ _ failure => some failure
  | _ => none

/-- The label put on the place in the source. -/
def label : Cause → String
  | grammarLoad failure | parse failure => "expected " ++ failure.summary
  | transform tag _ _ => "no rule for " ++ tag
  | unknownRule _ _ => "undefined rule"
  | unknownGrammar _ => "undefined grammar"
  | cyclicParent _ => "inheritance cycle"
  | duplicateRule _ _ | duplicateGrammar _ => "duplicate definition"
  | arityMismatch _ _ _ | actionArity _ _ _ => "arity mismatch"
  | malformedGrammar _ => "malformed"
  | undefinedVariable _ => "undefined variable"
  | unknownAction _ => "unknown action"
  | typeMismatch _ _ => "type mismatch"
  | recursionLimit _ => "recursion limit exceeded"
  | io _ _ => "io"

end Cause

/-- A place in a named source text. -/
structure Excerpt where
  name : String
  content : String
  span : Text.Span
deriving DecidableEq

/-- An error: its cause, the source it is about, and a hint. -/
structure Error where
  cause : Cause
  excerpt : Option Excerpt := none
  help : Option String := none
deriving DecidableEq, Inhabited

namespace Error

/-- The full error code. -/
def code (e : Error) : String :=
  "metagram::" ++ e.cause.category.name ++ "::" ++ e.cause.codeName

def message (e : Error) : String := e.cause.message

/-- The labelled span, if the error is about a source. -/
def label? (e : Error) : Option (String × Text.Span) :=
  e.excerpt.map fun excerpt => (e.cause.label, excerpt.span)

/-- A cause as an error about the character at `pos` of a named source. -/
def ofSource (cause : Cause) (name content : String) (pos : Nat) : Error :=
  { cause, excerpt := some { name, content, span := Text.charSpan content pos } }

instance : Coe Cause Error := ⟨fun cause => { cause }⟩

end Error

end Packrat
