/-!
The reference grammar as text. `<-` defines a rule, `/` is ordered choice, brackets are optional
parts, `!` is negative lookahead, and `whsp` and `whsp1` are optional and mandatory whitespace.
-/

namespace DhallSyntax.Reference

/-- Lines with a line break before each of them and one at the end. -/
def block (lines : List String) : String :=
  String.join (lines.map ("\n" ++ ·)) ++ "\n"

/-- Whitespace and comments. -/
def whitespaceRules : String :=
  block
    ["end-of-line      <- \"\\n\" / \"\\r\\n\"",
     "line-comment     <- \"--\" not-end-of-line* end-of-line",
     "block-comment    <- \"\x7b-\" block-comment-continue",
     "block-comment-continue",
     "                 <- \"-\x7d\" / block-comment block-comment-continue",
     "                  / block-comment-char block-comment-continue",
     "whitespace-chunk <- \" \" / \"\\t\" / end-of-line / line-comment / block-comment",
     "whsp             <- whitespace-chunk*",
     "whsp1            <- whitespace-chunk+"]

/-- Labels and identifiers. -/
def labelRules : String :=
  block
    ["simple-label      <- keyword simple-label-next-char+",
     "                   / !keyword (ALPHA / \"_\") simple-label-next-char*",
     "simple-label-next-char <- ALPHANUM / \"-\" / \"/\" / \"_\"",
     "quoted-label      <- \"`\" (printable-ascii except \"`\")* \"`\"",
     "label             <- quoted-label / simple-label",
     "nonreserved-label <- reserved-identifier simple-label-next-char+",
     "                   / !reserved-identifier label",
     "identifier        <- variable / builtin",
     "variable          <- nonreserved-label [whsp \"@\" whsp natural-literal]"]

/-- Numbers and text. -/
def literalRules : String :=
  block
    ["double-literal  <- [\"+\" / \"-\"] DIGIT+ (\".\" DIGIT+ [exponent] / exponent)",
     "                 / \"-Infinity\" / \"Infinity\" / \"NaN\"",
     "exponent        <- \"e\" [\"+\" / \"-\"] DIGIT+",
     "natural-literal <- DIGIT+",
     "integer-literal <- (\"+\" / \"-\") natural-literal",
     "",
     "text-literal    <- double-quote-literal / single-quote-literal",
     "double-quote-literal <- '\"' double-quote-chunk* '\"'",
     "double-quote-chunk   <- interpolation / \"\\\\\" double-quote-escaped",
     "                      / double-quote-char",
     "double-quote-escaped <- '\"' / \"$\" / \"\\\\\" / \"/\" / \"b\" / \"f\" / \"n\" / \"r\"",
     "                      / \"t\" / \"u\" unicode-escape",
     "unicode-escape  <- HEXDIG\x7b4\x7d / \"\x7b\" HEXDIG+ \"\x7d\"",
     "",
     "single-quote-literal  <- \"''\" end-of-line single-quote-continue",
     "single-quote-continue <- interpolation single-quote-continue",
     "                       / \"'''\" single-quote-continue",
     "                       / \"''$\x7b\" single-quote-continue",
     "                       / \"''\"",
     "                       / single-quote-char single-quote-continue",
     "interpolation   <- \"$\x7b\" whsp expression whsp \"\x7d\""]

/-- Imports. -/
def importRules : String :=
  block
    ["import          <- import-hashed [whsp \"as\" whsp1 (\"Text\" / \"Location\")]",
     "import-hashed   <- import-type [whsp1 hash]",
     "hash            <- \"sha256:\" HEXDIG\x7b64\x7d",
     "import-type     <- \"missing\" / local / http / env",
     "",
     "local           <- \"..\" path / \".\" path / \"~\" path / path",
     "path            <- path-component+",
     "path-component  <- \"/\" (unquoted-path-component / '\"' quoted-path-component '\"')",
     "",
     "http            <- http-raw [whsp \"using\" whsp1",
     "                             (import-hashed / \"(\" whsp import-hashed whsp \")\")]",
     "http-raw        <- (\"https\" / \"http\") \"://\" authority url-path [\"?\" query]",
     "authority       <- [userinfo \"@\"] host [\":\" port]",
     "host            <- IP-literal / IPv4address / domain",
     "url-path        <- (path-component / \"/\" segment)*",
     "",
     "env             <- \"env:\" (bash-environment-variable",
     "                          / '\"' posix-environment-variable '\"')"]

/-- Expressions. -/
def expressionRules : String :=
  block
    ["complete-expression <- whsp expression whsp",
     "",
     "expression <- lambda whsp \"(\" whsp nonreserved-label whsp \":\" whsp1 expression",
     "                     whsp \")\" whsp arrow whsp expression",
     "            / \"if\" whsp1 expression whsp \"then\" whsp1 expression",
     "                   whsp \"else\" whsp1 expression",
     "            / let-binding+ \"in\" whsp1 expression",
     "            / forall whsp \"(\" whsp nonreserved-label whsp \":\" whsp1 expression",
     "                     whsp \")\" whsp arrow whsp expression",
     "            / operator-expression whsp arrow whsp expression",
     "            / \"merge\" whsp1 import-expression whsp1 import-expression",
     "                      whsp \":\" whsp1 application-expression",
     "            / \"[\" whsp \"]\" whsp \":\" whsp1 \"List\" whsp1 import-expression",
     "            / \"toMap\" whsp1 import-expression whsp \":\" whsp1 application-expression",
     "            / operator-expression [whsp \":\" whsp1 expression]",
     "",
     "let-binding <- \"let\" whsp1 nonreserved-label whsp",
     "               [\":\" whsp1 expression whsp] \"=\" whsp expression whsp",
     "",
     "operator-expression <- import-alt-expression",
     "import-alt-expression    <- or-expression            (whsp \"?\" whsp1 or-expression)*",
     "or-expression            <- plus-expression          (whsp \"||\" whsp plus-expression)*",
     "plus-expression          <- text-append-expression   (whsp \"+\" whsp1 text-append-expression)*",
     "text-append-expression   <- list-append-expression   (whsp \"++\" whsp list-append-expression)*",
     "list-append-expression   <- and-expression           (whsp \"#\" whsp and-expression)*",
     "and-expression           <- combine-expression       (whsp \"&&\" whsp combine-expression)*",
     "combine-expression       <- prefer-expression        (whsp combine whsp prefer-expression)*",
     "prefer-expression        <- combine-types-expression (whsp prefer whsp combine-types-expression)*",
     "combine-types-expression <- times-expression         (whsp combine-types whsp times-expression)*",
     "times-expression         <- equal-expression         (whsp \"*\" whsp equal-expression)*",
     "equal-expression         <- not-equal-expression     (whsp \"==\" whsp not-equal-expression)*",
     "not-equal-expression     <- application-expression   (whsp \"!=\" whsp application-expression)*",
     "",
     "application-expression <- first-application-expression (whsp1 import-expression)*",
     "first-application-expression",
     "            <- \"merge\" whsp1 import-expression whsp1 import-expression",
     "             / \"Some\" whsp1 import-expression",
     "             / \"toMap\" whsp1 import-expression",
     "             / import-expression",
     "import-expression   <- import / selector-expression",
     "selector-expression <- primitive-expression (whsp \".\" whsp selector)*",
     "selector            <- any-label / labels / \"(\" whsp expression whsp \")\"",
     "labels              <- \"\x7b\" whsp [any-label whsp (\",\" whsp any-label whsp)*] \"\x7d\"",
     "",
     "primitive-expression",
     "            <- double-literal / natural-literal / integer-literal / text-literal",
     "             / \"\x7b\" whsp [\",\" whsp] record-type-or-literal whsp \"\x7d\"",
     "             / \"<\" whsp [\"|\" whsp] union-type whsp \">\"",
     "             / non-empty-list-literal",
     "             / identifier",
     "             / \"(\" complete-expression \")\"",
     "",
     "record-type-or-literal <- \"=\" [whsp \",\"]",
     "                        / any-label whsp (\":\" whsp1 expression / \"=\" whsp expression)",
     "                          (whsp \",\" whsp any-label whsp (\":\" / \"=\") ...)*",
     "                        / \"\"",
     "union-type  <- [any-label [whsp \":\" whsp1 expression]",
     "                (whsp \"|\" whsp any-label [whsp \":\" whsp1 expression])*]",
     "non-empty-list-literal <- \"[\" whsp [\",\" whsp] expression whsp",
     "                          (\",\" whsp expression whsp)* \"]\""]

/-- The whole grammar. -/
def fullGrammar : String :=
  "\n".intercalate
    ["# Dhall Grammar (PEG notation, ordered choice)",
     "# ============================================",
     "",
     "# Whitespace", whitespaceRules,
     "# Labels", labelRules,
     "# Literals", literalRules,
     "# Imports", importRules,
     "# Expressions", expressionRules]

/-- The texts with the names they are asked for by. -/
def texts : List (String × String) :=
  [("GRAMMAR_WHITESPACE", whitespaceRules), ("GRAMMAR_LABELS", labelRules),
   ("GRAMMAR_LITERALS", literalRules), ("GRAMMAR_IMPORTS", importRules),
   ("GRAMMAR_EXPRESSION", expressionRules), ("FULL_GRAMMAR", fullGrammar)]

end DhallSyntax.Reference
