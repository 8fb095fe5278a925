import Packrat.Grammar.Draft

/-!
# The notation as a grammar

The grammar that reads grammar descriptions, put together from expressions. Its actions build the
trees that `Declaration.ofTree` reads.

* `Notation.draft`: the rules, in the order in which the notation describes them.
* `Notation.grammar`: the grammar, which the rules are fit to build (`toOption_build_draft`).
-/

namespace Packrat.Notation

open Packrat.Expr (any literal sequence choice many many1 opt not app apply token bind action capture)

/-- The value bound to a name. -/
def val (name : String) : Action := .var name

/-- A call of a function. -/
def fn (func : String) (args : List Action) : Action := .call func args

/-- A node of the tree that a description is read into. -/
def tree (tag : String) (args : List Action) : Action := .node tag args

/-- Items in sequence, then the value of an action. -/
def yields (items : List Expr) (a : Action) : Expr := sequence (items ++ [action a])

/-- A word that no longer word begins with. -/
def keyword (word : String) : Expr := apply "keyword" [.literal (.string word)]

/-- The empty list of arguments. -/
def noArgs : Expr := action (.list [])

/-- A rule without parameters. -/
def rule (name : String) (body : Expr) : Rule := { name, body }

/-- Comments, names, strings and numbers. -/
def lexicalRules : List Rule := [
  rule "comment" (sequence [literal "//", many (sequence [not (literal "\n"), any])]),
  rule "spaces" (many (choice [app "space", app "comment"])),
  rule "nameFirst" (choice [app "letter", literal "_"]),
  rule "nameRest" (choice [app "letter", app "digit", literal "_"]),
  rule "word" (capture (sequence [app "nameFirst", many (app "nameRest")])),
  rule "name" (sequence [app "spaces", app "word"]),
  { name := "keyword", params := ["k"],
    body := sequence [apply "token" [val "k"], not (app "nameRest")] },
  rule "escape" (yields [literal "\\", bind "c" any] (fn "unescape" [val "c"])),
  rule "sqChar" (choice [app "escape", sequence [not (literal "'"), any]]),
  rule "dqChar" (choice [app "escape", sequence [not (literal "\""), any]]),
  rule "sqString"
    (yields [literal "'", bind "cs" (many (app "sqChar")), literal "'"] (fn "join" [val "cs"])),
  rule "dqString"
    (yields [literal "\"", bind "cs" (many (app "dqChar")), literal "\""] (fn "join" [val "cs"])),
  rule "quoted" (choice [app "sqString", app "dqString"]),
  rule "numLit"
    (yields
      [app "spaces",
        bind "n" (capture (sequence
          [opt (literal "-"), many1 (app "digit"),
            opt (sequence [literal ".", many1 (app "digit")])]))]
      (fn "to_number" [val "n"]))]

/-- Action expressions. -/
def actionRules : List Rule := [
  rule "hostArgs" (choice
    [yields [bind "first" (app "host"), bind "rest" (many (sequence [token ",", app "host"]))]
      (fn "cons" [val "first", val "rest"]),
      noArgs]),
  rule "host" (choice
    [app "hostCall", app "hostNode", app "hostList", app "hostString", app "hostNumber",
      app "hostConst", app "hostVar"]),
  rule "hostCall"
    (yields [bind "f" (app "name"), literal "(", bind "as" (app "hostArgs"), token ")"]
      (tree "HCall" [val "f", val "as"])),
  rule "hostNode"
    (yields
      [token "@", bind "t" (app "word"),
        bind "args" (choice
          [yields [literal "(", bind "as" (app "hostArgs"), token ")"] (val "as"), noArgs])]
      (tree "HNode" [val "t", val "args"])),
  rule "hostList"
    (yields [token "[", bind "as" (app "hostArgs"), token "]"] (tree "HList" [val "as"])),
  rule "hostString" (yields [app "spaces", bind "s" (app "quoted")] (tree "HLit" [val "s"])),
  rule "hostNumber" (yields [bind "n" (app "numLit")] (tree "HLit" [val "n"])),
  rule "hostConst" (choice
    [yields [keyword "true"] (tree "HLit" [.literal (.bool true)]),
      yields [keyword "false"] (tree "HLit" [.literal (.bool false)]),
      yields [keyword "nil"] (tree "HLit" [.literal .nil])]),
  rule "hostVar" (yields [bind "n" (app "name")] (tree "HVar" [val "n"]))]

/-- The bodies of rules. -/
def bodyRules : List Rule := [
  rule "choice"
    (yields
      [opt (token "|"), bind "first" (app "sequence"),
        bind "rest" (many (sequence [token "|", app "sequence"]))]
      (tree "Or" [fn "cons" [val "first", val "rest"]])),
  rule "sequence"
    (yields
      [bind "ts" (many (app "term")),
        bind "items" (choice
          [yields [token "->", bind "h" (app "host")]
            (fn "append" [val "ts", tree "Act" [val "h"]]),
            action (val "ts")])]
      (tree "And" [val "items"])),
  rule "term" (choice
    [yields [token "~", bind "t" (app "term")] (tree "Not" [val "t"]),
      yields [token "&", bind "t" (app "term")] (tree "Look" [val "t"]),
      yields [bind "e" (app "suffixed"), literal ":", bind "n" (app "word")]
        (tree "Bind" [val "n", val "e"]),
      app "suffixed",
      yields [token ":", bind "n" (app "word")] (tree "Bind" [val "n", tree "Any" []])]),
  rule "suffixed" (sequence
    [bind "p" (app "primary"),
      choice
        [yields [literal "*"] (tree "Many" [val "p"]),
          yields [literal "+"] (tree "Many1" [val "p"]),
          yields [literal "?", not (literal "(")] (tree "Opt" [val "p"]),
          action (val "p")]]),
  rule "primary" (choice
    [yields [token "(", bind "c" (app "choice"), token ")"] (val "c"),
      yields [token "[", bind "c" (app "choice"), token "]"] (tree "List" [val "c"]),
      yields [token "<", bind "c" (app "choice"), token ">"] (tree "Capture" [val "c"]),
      yields [token "?(", bind "h" (app "host"), token ")"] (tree "Pred" [val "h"]),
      yields [token "!(", bind "h" (app "host"), token ")"] (tree "Act" [val "h"]),
      yields
        [app "spaces", bind "a" (app "sqString"), token "..", app "spaces",
          bind "b" (app "sqString")]
        (tree "Range" [val "a", val "b"]),
      yields [app "spaces", bind "s" (app "sqString")] (tree "Lit" [val "s"]),
      yields [app "spaces", bind "s" (app "dqString")] (tree "Tok" [val "s"]),
      yields [token "`", bind "s" (app "word")] (tree "Sym" [val "s"]),
      yields [bind "n" (app "numLit")] (tree "Num" [val "n"]),
      yields [app "spaces", literal "_", not (app "nameRest")] (tree "Any" []),
      yields [token "^", bind "r" (app "word"), bind "as" (app "callArgs")]
        (tree "Super" [val "r", val "as"]),
      yields
        [bind "g" (app "name"), literal ".", bind "r" (app "word"), bind "as" (app "callArgs")]
        (tree "Foreign" [val "g", val "r", val "as"]),
      yields [bind "r" (app "name"), bind "as" (app "callArgs")]
        (tree "App" [val "r", val "as"])]),
  rule "callArgs" (choice
    [yields [literal "(", bind "as" (app "hostArgs"), token ")"] (val "as"), noArgs])]

/-- Rules and grammars as a whole. -/
def declarationRules : List Rule := [
  rule "rule"
    (yields
      [bind "n" (app "name"), bind "ps" (many (app "name")), token "=", bind "b" (app "choice"),
        token ";"]
      (tree "Rule" [val "n", val "ps", val "b"])),
  rule "import" (yields [keyword "use", bind "g" (app "name"), token ";"] (val "g")),
  rule "parent" (choice
    [yields [token "<", bind "p" (app "name")] (val "p"), action (.literal .nil)]),
  rule "grammar"
    (yields
      [keyword "grammar", bind "n" (app "name"), bind "p" (app "parent"), token "\x7b",
        bind "is" (many (app "import")), bind "rs" (many (app "rule")), token "\x7d"]
      (tree "Grammar" [val "n", val "p", val "is", val "rs"])),
  rule "file" (yields [bind "g" (app "grammar"), app "spaces", app "end"] (val "g"))]

/-- The parts of the grammar. -/
def draft : Draft :=
  { name := "Meta", rules := lexicalRules ++ actionRules ++ bodyRules ++ declarationRules }

/-- **The grammar that reads grammar descriptions.** -/
def grammar : Grammar := draft.freeze

/-- The draft passes every check, so the grammar is the one it builds. -/
theorem toOption_build_draft : draft.build.toOption = some grammar := by decide +kernel

/-- The rule that reads a description. -/
def entry : String := "file"

end Packrat.Notation
