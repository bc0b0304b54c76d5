import ConcreteSyntax.CFamily.Calls
import ConcreteSyntax.Markup.Tag

/-!
# Attributes of nodes

What the text of a node tells about it: the attributes of a tag or an element,
and the name, the path or the selector of a construct of the C family.
-/

namespace ConcreteSyntax.Node

/-- The tag that a node is, or the opening tag of an element. -/
def tag? (node : Node) : Option Markup.Tag := do
  let leaf ←
    if node.kind = .tag then some node
    else if node.kind.isElement then node.children.head?.filter (·.kind = .tag)
    else none
  return Markup.Tag.parse (← leaf.text?)

/-- The texts of several nodes, joined. -/
def joined (nodes : List Node) : List Char := nodes.flatMap content

/-- The texts of several nodes, joined, if there are any. -/
def joined? (nodes : List Node) : Option (List Char) :=
  if nodes.isEmpty then none else some (joined nodes)

/-- The significant children before the first parentheses. -/
def signature (node : Node) : List Node :=
  node.significantChildren.takeWhile (·.kind != .parenthesis)

/-- The text of the last word among the significant children. -/
def lastWord? (node : Node) : Option (List Char) :=
  ((node.significantChildren.filter (·.kind = .text)).getLast?).map content

/-- The path of an include directive, without its brackets or quotes. -/
def includePath? (node : Node) : Option (List Char) :=
  let text := Text.trim (joined (node.children.drop 1))
  let path := ((between? '<' '>' text).or (between? '"' '"' text)).getD text
  if path.isEmpty then none else some path
where
  /-- What stands between two characters at the ends of a text. -/
  between? (opening closing : Char) (text : List Char) : Option (List Char) := do
    let rest ← [opening].isPrefixOf? text
    [closing].isSuffixOf? rest

/-- The name that a directive defines. -/
def definedName? (node : Node) : Option (List Char) :=
  (node.significantChildren.find? (·.kind = .text)).map content

/-- What a qualified name is made of. -/
def isNamePart (node : Node) : Bool :=
  node.kind = .text || node.kind = .doubleColon || node.kind = .tilde

/-- The qualified name right before the parameters of a function. -/
def functionName? (node : Node) : Option (List Char) :=
  joined? (node.signature.reverse.takeWhile isNamePart).reverse

/-- What is called: all that stands before the arguments. -/
def callee? (node : Node) : Option (List Char) := joined? node.signature

/-- The name that a type definition introduces: its last word, or the last word in its
first parentheses. -/
def typeName? (node : Node) : Option (List Char) :=
  node.lastWord?.or ((node.children.find? (·.kind = .parenthesis)).bind lastWord?)

/-- The name after the word that introduces a declaration, which may be qualified. -/
def declaredName? (node : Node) : Option (List Char) :=
  let name := collect [] node.significantChildren
  if name.isEmpty then none else some name
where
  /-- Gathers a name up to the first part that does not belong to it. -/
  collect (name : List Char) : List Node → List Char
    | [] => name
    | part :: rest =>
        if part.kind = .text || part.kind = .doubleColon then
          collect (name ++ part.content) rest
        else if !name.isEmpty then name
        else if [Kind.braces, .colon, .parenthesis, .semicolon].contains part.kind then name
        else collect name rest

/-- The keyword parts of a selector, each a word with a colon after it. -/
def keywordParts : List Node → List Char
  | first :: second :: rest =>
      (if first.kind = .text && second.kind = .colon then first.content ++ [':'] else [])
        ++ keywordParts (second :: rest)
  | _ => []

/-- A selector: its keyword parts, or its first word when it has none. -/
def selector? (parts : List Node) : Option (List Char) :=
  let keywords := keywordParts parts
  if keywords.isEmpty then (parts.find? (·.kind = .text)).map content else some keywords

/-- The selector of a message in brackets. -/
def messageSelector? (node : Node) : Option (List Char) := do
  let brackets ← node.children.find? (·.kind = .brackets)
  selector? (CFamily.afterReceiver (CFamily.messageParts brackets))

/-- The attribute that a construct of the C family has by its kind. -/
def derived? (node : Node) : Option Attribute :=
  match node.kind with
  | .preprocessorInclude | .preprocessorImport => node.includePath?.map (.named "path")
  | .preprocessorDefine | .preprocessorUndefine => node.definedName?.map (.named "name")
  | .functionDefinition | .functionPrototype => node.functionName?.map (.named "name")
  | .functionCall => node.callee?.map (.named "name")
  | .typedefDeclaration => node.typeName?.map (.named "name")
  | .typeStruct | .typeUnion | .typeEnum | .cppClass | .cppNamespace | .objcInterface
  | .objcImplementation | .objcProtocol => node.declaredName?.map (.named "name")
  | .objcMethodCall => node.messageSelector?.map (.named "selector")
  | .objcMethodDeclaration | .objcMethodImplementation =>
      (selector? node.significantChildren).map (.named "selector")
  | _ => none

/-- The attributes of a node, of those with one name the first. -/
def attributes (node : Node) : List Attribute :=
  match node.tag? with
  | some tag => Attribute.keepFirst tag.attributes
  | none => node.derived?.toList

end ConcreteSyntax.Node
