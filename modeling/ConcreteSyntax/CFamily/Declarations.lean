import ConcreteSyntax.Analysis.Pass
import ConcreteSyntax.CFamily.Vocabulary

/-!
# Declarations of the C family

The rules for conditional directives, for types, for functions, and for the
classes and methods of Objective-C.
-/

namespace ConcreteSyntax.CFamily

open Action

/-! ## Conditional directives -/

/-- The place after the `#endif` that closes `depth` conditionals.  An `#endif` where
none is open breaks. -/
def throughEndif? (depth : Nat) (look : Lookahead) : Except Fault (Option Lookahead) :=
  match _h : look.current? with
  | none => .ok none
  | some kind =>
      if conditionalOpeners.contains kind then throughEndif? (depth + 1) look.advance
      else if kind = .preprocessorEndif then
        match depth with
        | 0 => .error .underflow
        | 1 => .ok (some look.advance)
        | depth + 2 => throughEndif? (depth + 1) look.advance
      else if depth = 0 then .ok (some look.advance)
      else throughEndif? depth look.advance
termination_by look.ahead.length
decreasing_by all_goals exact Lookahead.length_ahead_advance_lt (by simp [_h])

/-- Moves past the `#endif` that closes the conditional that begins here. -/
def throughEndif : Action Bool := do
  match throughEndif? 0 (← place) with
  | .ok found => tryTo found
  | .error fault => throw fault

/-- `#if`, `#ifdef` or `#ifndef` through the `#endif` at the same depth. -/
def conditional : Rule := do
  if ← isAtAny conditionalOpeners then
    let marker ← start
    let closed ← throughEndif
    finish marker (if closed then some .preprocessorConditional else none)
  else return none

/-! ## Types -/

/-- `typedef` through its semicolon. -/
def typedef : Rule := wordThrough .semicolon statementStop .typedefDeclaration

/-- A record with a body: `struct name : bases { ... } declarators;`.  A class needs a
name, and inside a typedef the declarators belong to the typedef. -/
def record (kind : Kind) : Rule := do
  let marker ← start
  advance
  let named ← isAt .text
  skipWhile recordHeader.contains
  let body ← eat .braces
  if !body || (kind == .cppClass && !named) then
    abandon marker
    return none
  else
    if (← place).parent != .typedefDeclaration then
      let _ ← eatThrough .semicolon declarators.contains
    return some (← complete marker kind)

/-- A namespace with its body. -/
def nameSpace : Rule := do
  let marker ← start
  advance
  skipWhile fun kind => kind = .text || kind = .doubleColon
  let complete ← eat .braces
  finish marker (if complete then some .cppNamespace else none)

/-- The rule for what a word of a type begins. -/
def typeAt : Option Kind → Rule
  | some .typedefKw => typedef
  | some .structKw => record .typeStruct
  | some .unionKw => record .typeUnion
  | some .enumKw => record .typeEnum
  | some .classKw => record .cppClass
  | some .sizeofKw => wordWithArgument .sizeof
  | some .typeofKw => wordWithArgument .typeof
  | some .namespaceKw => nameSpace
  | _ => return none

/-- Type definitions, records, namespaces, `sizeof` and `typeof`. -/
def types : Rule := do typeAt (← place).current?

/-! ## Functions -/

/-- Passes over the words of a declaration, counting them and telling whether the last
of them is a name. -/
def skipWords (words : Nat) (named : Bool) (look : Lookahead) : Nat × Bool × Lookahead :=
  if _h : look.current?.any declarationWords.contains then
    skipWords (words + 1) (look.isAt .text) look.advance
  else (words, named, look)
termination_by look.ahead.length
decreasing_by exact Lookahead.length_ahead_advance_lt (Lookahead.isSome_current?_of_any _h)

/-- The end of a function whose parameters were passed over, and its kind.  A prototype
has at least two words before its parameters. -/
def functionEnd? (words : Nat) (look : Lookahead) : Option (Kind × Lookahead) :=
  match _h : look.current? with
  | some .braces => some (.functionDefinition, look.advance)
  | some kind =>
      if kind = .semicolon ∧ 2 ≤ words then some (.functionPrototype, look.advance)
      else if kind = .equal
          ∧ (look.nth? 1).any fun next => [Kind.number, .defaultKw, .deleteKw].contains next then
        functionEnd? words look.advance.advance
      else if functionTrailer.contains kind then functionEnd? words look.advance
      else none
  | none => none
termination_by look.ahead.length
decreasing_by
  · have : look.advance.ahead.length < look.ahead.length :=
      Lookahead.length_ahead_advance_lt (by simp [_h])
    have := Lookahead.length_ahead_advance_le look.advance
    omega
  · exact Lookahead.length_ahead_advance_lt (by simp [_h])

/-- Moves past the end of a function, and gives its kind. -/
def functionEnd (words : Nat) : Action (Option Kind) := do
  match functionEnd? words (← place) with
  | some (kind, after) => moveTo after; return some kind
  | none => return none

/-- Whether a function can begin here: outside parentheses and brackets, where a
declaration can start. -/
def mayDeclare (look : Lookahead) : Bool :=
  look.isAtAny declarationWords && isBoundary look.previous?
    && look.parent != .parenthesis && look.parent != .brackets

/-- `words name(parameters) { ... }` or `words name(parameters);`. -/
def function : Rule := do
  if mayDeclare (← place) then
    let marker ← start
    let (words, named, name) := skipWords 0 false (← place)
    moveTo name
    let parameters ← eat .parenthesis
    if named && parameters then
      finish marker (← functionEnd words)
    else
      abandon marker
      return none
  else return none

/-! ## Classes and methods of Objective-C -/

/-- A class, a category or a protocol through its `@end`. -/
def classBlock (kind : Kind) : Rule := wordThrough .atEndKw classStop kind

/-- A word of a class through its semicolon. -/
def classLine (kind : Kind) : Rule := wordThrough .semicolon propertyStop kind

/-- Whether a method has not ended at a kind of sibling yet. -/
def isMethodPart (kind : Kind) : Bool := !signatureEnd.contains kind

/-- Moves past the end of a method, and gives its kind: a body implements it, and a
semicolon alone declares it. -/
def methodEnd : Action (Option Kind) := do
  match (← place).current? with
  | some .semicolon =>
      advance
      let body ← eat .braces
      return some (if body then .objcMethodImplementation else .objcMethodDeclaration)
  | some .braces =>
      advance
      return some .objcMethodImplementation
  | _ => return none

/-- A method, through its body or semicolon. -/
def methodRun : Rule := do
  let marker ← start
  advance
  skipWhile isMethodPart
  finish marker (← methodEnd)

/-- Whether a plus or a minus begins a method here: inside a class. -/
def mayBeMethod (look : Lookahead) : Bool :=
  methodContainers.contains look.parent
    && (look.text? == some ['-'] || look.text? == some ['+'])

/-- A method. -/
def method : Rule := do
  if mayBeMethod (← place) then methodRun else return none

/-- Whether a word follows the first sibling ahead. -/
def beforeName (look : Lookahead) : Bool := look.nth? 1 == some .text

/-- A protocol, unless the word is part of an expression. -/
def protocol : Rule := do
  if beforeName (← place) then classBlock .objcProtocol else return none

/-- The rule for what a word of a class begins. -/
def classAt : Option Kind → Rule
  | some .atInterfaceKw => classBlock .objcInterface
  | some .atImplementationKw => classBlock .objcImplementation
  | some .atProtocolKw => protocol
  | some .atPropertyKw => classLine .objcProperty
  | some .atSynthesizeKw => classLine .objcSynthesize
  | some .operator => method
  | _ => return none

/-- Classes, protocols, properties and methods. -/
def classes : Rule := do classAt (← place).current?

end ConcreteSyntax.CFamily
