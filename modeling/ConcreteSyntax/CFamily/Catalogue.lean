import ConcreteSyntax.Scan.Table

/-!
# Kinds of the C family

The catalogues of C, C++, Objective-C and Objective-C++.  C++ and Objective-C each
add to the catalogue of C, and Objective-C++ adds what Objective-C adds to the
catalogue of C++.
-/

namespace ConcreteSyntax.CFamily

/-- Space, tab, vertical tab and form feed. -/
def isBlank (c : Char) : Bool := c == ' ' || c == '\t' || c == '\x0b' || c == '\x0c'

/-- A run of blanks. -/
def whitespace (cx : Context) : Option Nat :=
  let blanks := cx.rest.takeWhile isBlank
  if blanks.isEmpty then none else some blanks.length

/-- A run of blanks that begins a line. -/
def indenting (cx : Context) : Option Nat :=
  if cx.atLineStart then whitespace cx else none

/-- The empty match in front of a line feed, which itself stays outside. -/
def lineEnd (cx : Context) : Option Nat :=
  if cx.rest.head? = some '\n' then some 0 else none

/-- A digit at a word boundary, with the identifier characters and points after it. -/
def number (cx : Context) : Option Nat :=
  if cx.atWordBoundary && cx.rest.head?.any Char.isDigit then
    some (cx.rest.takeWhile fun c => Text.isIdentifier c || c == '.').length
  else none

/-- Characters that run together into one operator. -/
def isOperator (c : Char) : Bool := ['+', '-', '/', '%', '<', '>'].contains c

/-- Whether a comment or an arrow begins here. -/
def endsOperator : List Char → Bool
  | '/' :: '/' :: _ => true
  | '/' :: '*' :: _ => true
  | '-' :: '>' :: _ => true
  | _ => false

/-- The number of characters with which an operator goes on. -/
def operatorTail : List Char → Nat
  | [] => 0
  | c :: rest =>
      if isOperator c && !endsOperator (c :: rest) then operatorTail rest + 1 else 0

/-- A run of operator characters, up to a comment or an arrow inside it. -/
def operator (cx : Context) : Option Nat :=
  match cx.rest with
  | [] => none
  | c :: rest => if isOperator c then some (operatorTail rest + 1) else none

/-- A pound sign, blanks and the name of a directive, with only blanks before them on
their line. -/
def directive (name : String) (cx : Context) : Option Nat :=
  match cx.blank, cx.rest with
  | true, '#' :: rest =>
      match name.toList.isPrefixOf? (rest.dropWhile Text.isBlank) with
      | some after =>
          if after.head?.any Text.isIdentifier then none
          else some (cx.rest.length - after.length)
      | none => none
  | _, _ => none

/-- What the interior of a directive is scanned for. -/
def directiveInterior : KindSet := .ofList [
  .whitespace, .newline, .cComment, .cppComment, .stringSingleQuote, .stringDoubleQuote,
  .parenthesis, .exclamationMark, .ampersand, .verticalBar, .comma]

/-- A directive runs to the end of its line; a backslash continues it on the next. -/
def directiveSpec (kind : Kind) (name : String) : Spec :=
  (Spec.custom kind (directive name)).closedBy (.custom lineEnd)
    |>.escapedBy '\\' |>.holding directiveInterior |>.patching [.pound]

/-- A quoted literal, in which a backslash protects the next character. -/
def quotedSpec (kind : Kind) (opening closing : String) : Spec :=
  (Spec.pair kind opening closing).escapedBy '\\'

/-- Specs of leaves with a fixed text. -/
def literalSpecs (entries : List (Kind × String)) : List Spec :=
  entries.map fun (kind, text) => .literal kind text

/-- Specs of whole words. -/
def keywordSpecs (entries : List (Kind × String)) : List Spec :=
  entries.map fun (kind, word) => .keyword kind word

/-- Blanks, line breaks, numbers, operators and brackets. -/
def basicSpecs : List Spec := [
  .custom .whitespace whitespace,
  (Spec.custom .indenting indenting).patching [.whitespace],
  .literal .newline "\n",
  .custom .number number,
  .custom .operator operator,
  .pair .braces "\x7b" "\x7d",
  .pair .parenthesis "(" ")",
  .pair .brackets "[" "]"]

/-- Punctuation of C. -/
def punctuationSpecs : List Spec := literalSpecs [
  (.colon, ":"), (.semicolon, ";"), (.questionMark, "?"), (.exclamationMark, "!"),
  (.verticalBar, "|"), (.tilde, "~"), (.caret, "^"), (.ampersand, "&"),
  (.asterisk, "*"), (.comma, ","), (.equal, "="), (.pound, "#"), (.dot, ".")]

/-- Arrows, comments and quoted literals of C. -/
def literalAndCommentSpecs : List Spec := [
  (Spec.literal .arrow "->").patching [.operator],
  (Spec.pair .cComment "/*" "*/").patching [.operator],
  ((Spec.literal .cppComment "//").closedBy (.custom lineEnd)).patching [.operator],
  quotedSpec .stringSingleQuote "'" "'",
  quotedSpec .stringDoubleQuote "\"" "\""]

/-- Directives of C. -/
def directiveSpecs : List Spec := [
  directiveSpec .preprocessorIf "if",
  directiveSpec .preprocessorIfDefined "ifdef",
  directiveSpec .preprocessorIfNotDefined "ifndef",
  directiveSpec .preprocessorElif "elif",
  directiveSpec .preprocessorElse "else",
  directiveSpec .preprocessorEndif "endif",
  directiveSpec .preprocessorDefine "define",
  directiveSpec .preprocessorUndefine "undef",
  directiveSpec .preprocessorInclude "include",
  directiveSpec .preprocessorPragma "pragma",
  directiveSpec .preprocessorWarning "warning",
  directiveSpec .preprocessorError "error"]

/-- Words of C. -/
def wordSpecs : List Spec := keywordSpecs [
  (.ifKw, "if"), (.elseKw, "else"), (.switchKw, "switch"), (.caseKw, "case"),
  (.defaultKw, "default"), (.forKw, "for"), (.doKw, "do"), (.whileKw, "while"),
  (.breakKw, "break"), (.continueKw, "continue"), (.gotoKw, "goto"),
  (.returnKw, "return"), (.typedefKw, "typedef"), (.enumKw, "enum"),
  (.structKw, "struct"), (.unionKw, "union"), (.sizeofKw, "sizeof"),
  (.typeofKw, "typeof"), (.nullKw, "NULL"), (.voidKw, "void"), (.autoKw, "auto"),
  (.staticKw, "static"), (.registerKw, "register"), (.volatileKw, "volatile"),
  (.constKw, "const"), (.externKw, "extern"), (.inlineKw, "inline"),
  (.signedKw, "signed"), (.unsignedKw, "unsigned"), (.charKw, "char"),
  (.shortKw, "short"), (.intKw, "int"), (.longKw, "long"), (.floatKw, "float"),
  (.doubleKw, "double")]

/-- The catalogue of C. -/
def cSpecs : List Spec :=
  basicSpecs ++ punctuationSpecs ++ literalAndCommentSpecs ++ directiveSpecs ++ wordSpecs

/-- What C++ adds. -/
def cppAdditions : List Spec :=
  (Spec.literal .doubleColon "::").patching [.colon] :: keywordSpecs [
    (.namespaceKw, "namespace"), (.classKw, "class"), (.publicKw, "public"),
    (.protectedKw, "protected"), (.privateKw, "private"), (.usingKw, "using"),
    (.virtualKw, "virtual"), (.tryKw, "try"), (.catchKw, "catch"), (.throwKw, "throw"),
    (.newKw, "new"), (.deleteKw, "delete"), (.templateKw, "template"),
    (.typenameKw, "typename"), (.operatorKw, "operator"), (.thisKw, "this"),
    (.trueKw, "true"), (.falseKw, "false"), (.boolKw, "bool"),
    (.explicitKw, "explicit"), (.friendKw, "friend"), (.mutableKw, "mutable")]

/-- What Objective-C adds. -/
def objcAdditions : List Spec :=
  directiveSpec .preprocessorImport "import" :: quotedSpec .objcString "@\"" "\"" ::
  keywordSpecs [
    (.atInterfaceKw, "@interface"), (.atImplementationKw, "@implementation"),
    (.atProtocolKw, "@protocol"), (.atEndKw, "@end"), (.atClassKw, "@class"),
    (.atPublicKw, "@public"), (.atProtectedKw, "@protected"),
    (.atPrivateKw, "@private"), (.atRequiredKw, "@required"),
    (.atOptionalKw, "@optional"), (.atPropertyKw, "@property"),
    (.atSynthesizeKw, "@synthesize"), (.atTryKw, "@try"), (.atCatchKw, "@catch"),
    (.atFinallyKw, "@finally"), (.atThrowKw, "@throw"),
    (.atSynchronizedKw, "@synchronized"), (.atSelectorKw, "@selector"),
    (.atEncodeKw, "@encode"), (.nilKw, "nil"), (.selfKw, "self"), (.superKw, "super")]

/-- The catalogue of C++. -/
def cppSpecs : List Spec := Spec.compose cSpecs cppAdditions

/-- The catalogue of Objective-C. -/
def objcSpecs : List Spec := Spec.compose cSpecs objcAdditions

/-- The catalogue of Objective-C++. -/
def objcppSpecs : List Spec := Spec.compose cppSpecs objcAdditions

end ConcreteSyntax.CFamily
