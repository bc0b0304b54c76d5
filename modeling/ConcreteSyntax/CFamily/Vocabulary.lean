import ConcreteSyntax.Analysis.Action

/-!
# Vocabulary of the C family

The sets of kinds and the shapes of runs that the rules of the C family share.
-/

namespace ConcreteSyntax.CFamily

/-- Siblings after which a declaration or a statement can start. -/
def boundary : KindSet :=
  .ofList [.semicolon, .braces, .delimiter, .colon, .atEndKw] ∪ .directives ∪ .synthesized

/-- Siblings that a plain statement never runs across. -/
def statementStop : KindSet :=
  .ofList [.delimiter, .caseKw, .defaultKw, .preprocessorConditional] ∪ .directives

/-- Words of types and of storage. -/
def typeWords : KindSet := .ofList [
  .voidKw, .autoKw, .staticKw, .registerKw, .volatileKw, .constKw, .externKw, .inlineKw,
  .signedKw, .unsignedKw, .charKw, .shortKw, .intKw, .longKw, .floatKw, .doubleKw,
  .structKw, .unionKw, .enumKw, .virtualKw, .explicitKw, .friendKw, .mutableKw, .boolKw,
  .typenameKw]

/-- What the return type and the name of a function are made of. -/
def declarationWords : KindSet :=
  .ofList [.text, .asterisk, .ampersand, .tilde, .doubleColon] ∪ typeWords

/-- What the type of a `new` expression is made of. -/
def allocated : KindSet := .ofList [.text, .doubleColon, .asterisk] ∪ typeWords

/-- Labels that end the statements of the label before them. -/
def groupEnd : KindSet :=
  .ofList [.caseKw, .defaultKw, .publicKw, .protectedKw, .privateKw, .delimiter]

/-- What may stand between the parameters of a function and its body or semicolon:
qualifiers, attributes and initialisers. -/
def functionTrailer : KindSet :=
  .ofList [.constKw, .text, .parenthesis, .colon, .comma, .throwKw]

/-- What may stand between the keyword of a record and its body: a name and bases. -/
def recordHeader : KindSet := .ofList [
  .text, .colon, .comma, .doubleColon, .publicKw, .protectedKw, .privateKw, .virtualKw]

/-- What may stand between the body of a record and its semicolon. -/
def declarators : KindSet := .ofList [
  .text, .asterisk, .ampersand, .comma, .brackets, .parenthesis, .braces, .equal, .number,
  .operator, .dot, .constKw, .volatileKw, .stringDoubleQuote, .stringSingleQuote]

/-- What a call can begin with. -/
def callees : KindSet := .ofList [.text, .thisKw, .selfKw, .superKw]

/-- What joins the parts of a member chain. -/
def memberAccess : KindSet := .ofList [.dot, .arrow, .doubleColon]

/-- Nodes whose parameter lists look like calls. -/
def withoutCalls : KindSet := .ofList [
  .functionDefinition, .functionPrototype, .cppNew, .objcMethodDeclaration,
  .objcMethodImplementation]

/-- Siblings after which a bracket is a subscript. -/
def subscripted : KindSet := .ofList [
  .text, .brackets, .parenthesis, .functionCall, .objcMethodCall, .selfKw, .superKw]

/-- Directives that begin a conditional. -/
def conditionalOpeners : KindSet :=
  .ofList [.preprocessorIf, .preprocessorIfDefined, .preprocessorIfNotDefined]

/-- Nodes that hold the methods of a class. -/
def methodContainers : KindSet :=
  .ofList [.objcInterface, .objcImplementation, .objcProtocol]

/-- Siblings that a label never runs across on the way to its colon. -/
def labelStop : KindSet := .ofList [.semicolon, .braces, .delimiter]

/-- Siblings that a class never runs across on the way to its `@end`. -/
def classStop : KindSet :=
  .ofList [.atInterfaceKw, .atImplementationKw, .atProtocolKw, .delimiter]

/-- Siblings that a property never runs across on the way to its semicolon. -/
def propertyStop : KindSet := .ofList [.atEndKw, .delimiter]

/-- Siblings at which the signature of a method ends. -/
def signatureEnd : KindSet := .ofList [.semicolon, .braces, .atEndKw, .delimiter]

/-- Whether a declaration or a statement can start after a sibling. -/
def isBoundary (previous : Option Kind) : Bool := previous.all boundary.contains

/-- A word through the next sibling of kind `stop`, with none of `barred` between. -/
def wordThrough (stop : Kind) (barred : KindSet) (kind : Kind) : Rule := do
  let marker ← Action.start
  Action.advance
  let complete ← Action.eatThrough stop fun other => !barred.contains other
  Action.finish marker (if complete then some kind else none)

/-- A word with an argument in parentheses. -/
def wordWithArgument (kind : Kind) : Rule := do
  let marker ← Action.start
  Action.advance
  let complete ← Action.eat .parenthesis
  Action.finish marker (if complete then some kind else none)

end ConcreteSyntax.CFamily
