/-!
# The notation, described in itself

The text of a grammar description that describes grammar descriptions.
-/

namespace Packrat.Notation

/-- The lines of the description. -/
def sourceLines : List String := [
    "// The grammar-description notation, described in itself.",
    "grammar Meta \x7b",
    "    comment   = '//' (~'\\n' _)* ;",
    "    spaces    = (space | comment)* ;",
    "    nameFirst = letter | '_' ;",
    "    nameRest  = letter | digit | '_' ;",
    "    word      = <nameFirst nameRest*> ;",
    "    name      = spaces word ;",
    "    keyword k = token(k) ~nameRest ;",
    "",
    "    escape    = '\\\\' _:c -> unescape(c) ;",
    "    sqChar    = escape | ~'\\'' _ ;",
    "    dqChar    = escape | ~'\"' _ ;",
    "    sqString  = '\\'' sqChar*:cs '\\'' -> join(cs) ;",
    "    dqString  = '\"' dqChar*:cs '\"' -> join(cs) ;",
    "    quoted    = sqString | dqString ;",
    "    numLit    = spaces <'-'? digit+ ('.' digit+)?>:n -> to_number(n) ;",
    "",
    "    // Action expressions",
    "    hostArgs   = host:first (\",\" host)*:rest -> cons(first, rest)",
    "               | -> [] ;",
    "    host       = hostCall | hostNode | hostList | hostString | hostNumber | hostConst | hostVar ;",
    "    hostCall   = name:f '(' hostArgs:as \")\" -> @HCall(f, as) ;",
    "    hostNode   = \"@\" word:t ('(' hostArgs:as \")\" -> as | -> []):args -> @HNode(t, args) ;",
    "    hostList   = \"[\" hostArgs:as \"]\" -> @HList(as) ;",
    "    hostString = spaces quoted:s -> @HLit(s) ;",
    "    hostNumber = numLit:n -> @HLit(n) ;",
    "    hostConst  = keyword('true') -> @HLit(true)",
    "               | keyword('false') -> @HLit(false)",
    "               | keyword('nil') -> @HLit(nil) ;",
    "    hostVar    = name:n -> @HVar(n) ;",
    "",
    "    // Rule bodies",
    "    choice   = \"|\"? sequence:first (\"|\" sequence)*:rest -> @Or(cons(first, rest)) ;",
    "    sequence = term*:ts (\"->\" host:h -> append(ts, @Act(h)) | -> ts):items -> @And(items) ;",
    "    term     = \"~\" term:t -> @Not(t)",
    "             | \"&\" term:t -> @Look(t)",
    "             | suffixed:e ':' word:n -> @Bind(n, e)",
    "             | suffixed",
    "             | \":\" word:n -> @Bind(n, @Any()) ;",
    "    suffixed = primary:p ( '*' -> @Many(p)",
    "                         | '+' -> @Many1(p)",
    "                         | '?' ~'(' -> @Opt(p)",
    "                         | -> p ) ;",
    "    primary  = \"(\" choice:c \")\" -> c",
    "             | \"[\" choice:c \"]\" -> @List(c)",
    "             | \"<\" choice:c \">\" -> @Capture(c)",
    "             | \"?(\" host:h \")\" -> @Pred(h)",
    "             | \"!(\" host:h \")\" -> @Act(h)",
    "             | spaces sqString:a \"..\" spaces sqString:b -> @Range(a, b)",
    "             | spaces sqString:s -> @Lit(s)",
    "             | spaces dqString:s -> @Tok(s)",
    "             | \"`\" word:s -> @Sym(s)",
    "             | numLit:n -> @Num(n)",
    "             | spaces '_' ~nameRest -> @Any()",
    "             | \"^\" word:r callArgs:as -> @Super(r, as)",
    "             | name:g '.' word:r callArgs:as -> @Foreign(g, r, as)",
    "             | name:r callArgs:as -> @App(r, as) ;",
    "    callArgs = '(' hostArgs:as \")\" -> as",
    "             | -> [] ;",
    "",
    "    // Declarations",
    "    rule    = name:n name*:ps \"=\" choice:b \";\" -> @Rule(n, ps, b) ;",
    "    import  = keyword('use') name:g \";\" -> g ;",
    "    parent  = \"<\" name:p -> p",
    "            | -> nil ;",
    "    grammar = keyword('grammar') name:n parent:p \"\x7b\" import*:is rule*:rs \"\x7d\" -> @Grammar(n, p, is, rs) ;",
    "    file    = grammar:g spaces end -> g ;",
    "\x7d"]

/-- The description of the notation. -/
def source : String := String.join (sourceLines.map fun line => line ++ "\n")

end Packrat.Notation
