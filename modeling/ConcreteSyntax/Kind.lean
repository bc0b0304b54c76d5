/-!
# Kinds of nodes

Every node of a concrete syntax tree has one `Kind`.  A kind has two spellings:
its `code`, which dumps and requests use, and its `name`, which views and
messages use.  `Kind.all` lists the kinds in declaration order, and a kind's
`index` is its place there.
-/

namespace ConcreteSyntax

/-- What a node of a concrete syntax tree is. -/
inductive Kind where
  -- The root of a document, words, trivia and numbers.
  | root | text | whitespace | indenting | newline | delimiter | number | operator
  -- Paired delimiters.
  | braces | parenthesis | brackets
  -- Punctuation.
  | colon | doubleColon | semicolon | questionMark | exclamationMark | verticalBar
  | tilde | caret | ampersand | asterisk | comma | equal | pound | dot | arrow
  -- Comments and quoted literals.
  | cComment | cppComment | stringSingleQuote | stringDoubleQuote
  -- Preprocessor directives.
  | preprocessorIf | preprocessorIfDefined | preprocessorIfNotDefined | preprocessorElif
  | preprocessorElse | preprocessorEndif | preprocessorDefine | preprocessorUndefine
  | preprocessorInclude | preprocessorImport | preprocessorPragma | preprocessorWarning
  | preprocessorError
  -- Words of C.
  | ifKw | elseKw | switchKw | caseKw | defaultKw | forKw | doKw | whileKw | breakKw
  | continueKw | gotoKw | returnKw | typedefKw | enumKw | structKw | unionKw | sizeofKw
  | typeofKw | nullKw | voidKw | autoKw | staticKw | registerKw | volatileKw | constKw
  | externKw | inlineKw | signedKw | unsignedKw | charKw | shortKw | intKw | longKw
  | floatKw | doubleKw
  -- Words that C++ adds.
  | namespaceKw | classKw | publicKw | protectedKw | privateKw | usingKw | virtualKw
  | tryKw | catchKw | throwKw | newKw | deleteKw | templateKw | typenameKw | operatorKw
  | thisKw | trueKw | falseKw | boolKw | explicitKw | friendKw | mutableKw
  -- Words and literals that Objective-C adds.
  | atInterfaceKw | atImplementationKw | atProtocolKw | atEndKw | atClassKw | atPublicKw
  | atProtectedKw | atPrivateKw | atRequiredKw | atOptionalKw | atPropertyKw
  | atSynthesizeKw | atTryKw | atCatchKw | atFinallyKw | atThrowKw | atSynchronizedKw
  | atSelectorKw | atEncodeKw | nilKw | selfKw | superKw | objcString
  -- Constructs of C found by analysis.
  | preprocessorConditional | conditionIf | conditionElseIf | conditionElse | flowSwitch
  | flowCase | flowDefault | flowFor | flowWhile | flowDoWhile | flowGoto | flowLabel
  | flowReturn | typedefDeclaration | typeEnum | typeStruct | typeUnion | sizeof | typeof
  | functionPrototype | functionDefinition | functionCall
  -- Constructs of C++ found by analysis.
  | cppNamespace | cppClass | cppPublic | cppProtected | cppPrivate | cppTry | cppCatch
  | cppThrow | cppNew | cppDelete
  -- Constructs of Objective-C found by analysis.
  | objcInterface | objcImplementation | objcProtocol | objcProperty | objcSynthesize
  | objcTry | objcCatch | objcFinally | objcThrow | objcSynchronized | objcSelector
  | objcEncode | objcMethodDeclaration | objcMethodImplementation | objcMethodCall
  -- Leaves of markup, and the general element.
  | tag | markupComment | cdata | doctype | entity | processingInstruction
  | xmlDeclaration | element
  -- Elements of feeds.
  | rssChannel | rssItem | rssCategory | rssTitle | rssLink | rssDescription
  | rssLanguage | rssAuthor | rssEnclosure | rssGuid | rssPublicationDate | atomFeed
  | atomEntry | atomSubtitle | atomId | atomSummary | atomName | atomEmail | atomUpdated
  -- Elements of property lists.
  | plist | plistDictionary | plistArray | plistKey | plistString | plistInteger
  | plistReal | plistTrue | plistFalse | plistDate | plistData
deriving DecidableEq, Inhabited

namespace Kind

/-- All kinds in declaration order. -/
def all : List Kind := [
  .root, .text, .whitespace, .indenting, .newline, .delimiter, .number, .operator,
  .braces, .parenthesis, .brackets,
  .colon, .doubleColon, .semicolon, .questionMark, .exclamationMark, .verticalBar,
  .tilde, .caret, .ampersand, .asterisk, .comma, .equal, .pound, .dot, .arrow,
  .cComment, .cppComment, .stringSingleQuote, .stringDoubleQuote,
  .preprocessorIf, .preprocessorIfDefined, .preprocessorIfNotDefined, .preprocessorElif,
  .preprocessorElse, .preprocessorEndif, .preprocessorDefine, .preprocessorUndefine,
  .preprocessorInclude, .preprocessorImport, .preprocessorPragma, .preprocessorWarning,
  .preprocessorError,
  .ifKw, .elseKw, .switchKw, .caseKw, .defaultKw, .forKw, .doKw, .whileKw, .breakKw,
  .continueKw, .gotoKw, .returnKw, .typedefKw, .enumKw, .structKw, .unionKw, .sizeofKw,
  .typeofKw, .nullKw, .voidKw, .autoKw, .staticKw, .registerKw, .volatileKw, .constKw,
  .externKw, .inlineKw, .signedKw, .unsignedKw, .charKw, .shortKw, .intKw, .longKw,
  .floatKw, .doubleKw,
  .namespaceKw, .classKw, .publicKw, .protectedKw, .privateKw, .usingKw, .virtualKw,
  .tryKw, .catchKw, .throwKw, .newKw, .deleteKw, .templateKw, .typenameKw, .operatorKw,
  .thisKw, .trueKw, .falseKw, .boolKw, .explicitKw, .friendKw, .mutableKw,
  .atInterfaceKw, .atImplementationKw, .atProtocolKw, .atEndKw, .atClassKw, .atPublicKw,
  .atProtectedKw, .atPrivateKw, .atRequiredKw, .atOptionalKw, .atPropertyKw,
  .atSynthesizeKw, .atTryKw, .atCatchKw, .atFinallyKw, .atThrowKw, .atSynchronizedKw,
  .atSelectorKw, .atEncodeKw, .nilKw, .selfKw, .superKw, .objcString,
  .preprocessorConditional, .conditionIf, .conditionElseIf, .conditionElse, .flowSwitch,
  .flowCase, .flowDefault, .flowFor, .flowWhile, .flowDoWhile, .flowGoto, .flowLabel,
  .flowReturn, .typedefDeclaration, .typeEnum, .typeStruct, .typeUnion, .sizeof, .typeof,
  .functionPrototype, .functionDefinition, .functionCall,
  .cppNamespace, .cppClass, .cppPublic, .cppProtected, .cppPrivate, .cppTry, .cppCatch,
  .cppThrow, .cppNew, .cppDelete,
  .objcInterface, .objcImplementation, .objcProtocol, .objcProperty, .objcSynthesize,
  .objcTry, .objcCatch, .objcFinally, .objcThrow, .objcSynchronized, .objcSelector,
  .objcEncode, .objcMethodDeclaration, .objcMethodImplementation, .objcMethodCall,
  .tag, .markupComment, .cdata, .doctype, .entity, .processingInstruction,
  .xmlDeclaration, .element,
  .rssChannel, .rssItem, .rssCategory, .rssTitle, .rssLink, .rssDescription,
  .rssLanguage, .rssAuthor, .rssEnclosure, .rssGuid, .rssPublicationDate, .atomFeed,
  .atomEntry, .atomSubtitle, .atomId, .atomSummary, .atomName, .atomEmail, .atomUpdated,
  .plist, .plistDictionary, .plistArray, .plistKey, .plistString, .plistInteger,
  .plistReal, .plistTrue, .plistFalse, .plistDate, .plistData]

/-- The number of kinds. -/
def count : Nat := 208

theorem length_all : all.length = count := by decide +kernel

/-- The place of a kind in `all`. -/
def index (kind : Kind) : Nat := kind.ctorIdx

theorem index_lt_count (kind : Kind) : kind.index < count := by
  cases kind <;> decide

theorem all_getElem?_index (kind : Kind) : all[kind.index]? = some kind := by
  cases kind <;> rfl

theorem index_getElem_all : ∀ i : Fin all.length, (all[i]).index = i.val := by
  decide +kernel

theorem mem_all (kind : Kind) : kind ∈ all :=
  List.mem_of_getElem? (all_getElem?_index kind)

theorem index_injective {a b : Kind} (h : a.index = b.index) : a = b := by
  have ha := all_getElem?_index a
  rw [h, all_getElem?_index b] at ha
  exact (Option.some.inj ha).symm

/-- The upper-case spelling of a kind, as dumps show it. -/
def code : Kind → String
  | .root => "ROOT"
  | .text => "TEXT"
  | .whitespace => "WHITESPACE"
  | .indenting => "INDENTING"
  | .newline => "NEWLINE"
  | .delimiter => "DELIMITER"
  | .number => "NUMBER"
  | .operator => "OPERATOR"
  | .braces => "BRACES"
  | .parenthesis => "PARENTHESIS"
  | .brackets => "BRACKETS"
  | .colon => "COLON"
  | .doubleColon => "DOUBLE_COLON"
  | .semicolon => "SEMICOLON"
  | .questionMark => "QUESTION_MARK"
  | .exclamationMark => "EXCLAMATION_MARK"
  | .verticalBar => "VERTICAL_BAR"
  | .tilde => "TILDE"
  | .caret => "CARET"
  | .ampersand => "AMPERSAND"
  | .asterisk => "ASTERISK"
  | .comma => "COMMA"
  | .equal => "EQUAL"
  | .pound => "POUND"
  | .dot => "DOT"
  | .arrow => "ARROW"
  | .cComment => "C_COMMENT"
  | .cppComment => "CPP_COMMENT"
  | .stringSingleQuote => "STRING_SINGLE_QUOTE"
  | .stringDoubleQuote => "STRING_DOUBLE_QUOTE"
  | .preprocessorIf => "PREPROCESSOR_IF"
  | .preprocessorIfDefined => "PREPROCESSOR_IFDEF"
  | .preprocessorIfNotDefined => "PREPROCESSOR_IFNDEF"
  | .preprocessorElif => "PREPROCESSOR_ELIF"
  | .preprocessorElse => "PREPROCESSOR_ELSE"
  | .preprocessorEndif => "PREPROCESSOR_ENDIF"
  | .preprocessorDefine => "PREPROCESSOR_DEFINE"
  | .preprocessorUndefine => "PREPROCESSOR_UNDEF"
  | .preprocessorInclude => "PREPROCESSOR_INCLUDE"
  | .preprocessorImport => "PREPROCESSOR_IMPORT"
  | .preprocessorPragma => "PREPROCESSOR_PRAGMA"
  | .preprocessorWarning => "PREPROCESSOR_WARNING"
  | .preprocessorError => "PREPROCESSOR_ERROR"
  | .ifKw => "IF_KW"
  | .elseKw => "ELSE_KW"
  | .switchKw => "SWITCH_KW"
  | .caseKw => "CASE_KW"
  | .defaultKw => "DEFAULT_KW"
  | .forKw => "FOR_KW"
  | .doKw => "DO_KW"
  | .whileKw => "WHILE_KW"
  | .breakKw => "BREAK_KW"
  | .continueKw => "CONTINUE_KW"
  | .gotoKw => "GOTO_KW"
  | .returnKw => "RETURN_KW"
  | .typedefKw => "TYPEDEF_KW"
  | .enumKw => "ENUM_KW"
  | .structKw => "STRUCT_KW"
  | .unionKw => "UNION_KW"
  | .sizeofKw => "SIZEOF_KW"
  | .typeofKw => "TYPEOF_KW"
  | .nullKw => "NULL_KW"
  | .voidKw => "VOID_KW"
  | .autoKw => "AUTO_KW"
  | .staticKw => "STATIC_KW"
  | .registerKw => "REGISTER_KW"
  | .volatileKw => "VOLATILE_KW"
  | .constKw => "CONST_KW"
  | .externKw => "EXTERN_KW"
  | .inlineKw => "INLINE_KW"
  | .signedKw => "SIGNED_KW"
  | .unsignedKw => "UNSIGNED_KW"
  | .charKw => "CHAR_KW"
  | .shortKw => "SHORT_KW"
  | .intKw => "INT_KW"
  | .longKw => "LONG_KW"
  | .floatKw => "FLOAT_KW"
  | .doubleKw => "DOUBLE_KW"
  | .namespaceKw => "NAMESPACE_KW"
  | .classKw => "CLASS_KW"
  | .publicKw => "PUBLIC_KW"
  | .protectedKw => "PROTECTED_KW"
  | .privateKw => "PRIVATE_KW"
  | .usingKw => "USING_KW"
  | .virtualKw => "VIRTUAL_KW"
  | .tryKw => "TRY_KW"
  | .catchKw => "CATCH_KW"
  | .throwKw => "THROW_KW"
  | .newKw => "NEW_KW"
  | .deleteKw => "DELETE_KW"
  | .templateKw => "TEMPLATE_KW"
  | .typenameKw => "TYPENAME_KW"
  | .operatorKw => "OPERATOR_KW"
  | .thisKw => "THIS_KW"
  | .trueKw => "TRUE_KW"
  | .falseKw => "FALSE_KW"
  | .boolKw => "BOOL_KW"
  | .explicitKw => "EXPLICIT_KW"
  | .friendKw => "FRIEND_KW"
  | .mutableKw => "MUTABLE_KW"
  | .atInterfaceKw => "AT_INTERFACE_KW"
  | .atImplementationKw => "AT_IMPLEMENTATION_KW"
  | .atProtocolKw => "AT_PROTOCOL_KW"
  | .atEndKw => "AT_END_KW"
  | .atClassKw => "AT_CLASS_KW"
  | .atPublicKw => "AT_PUBLIC_KW"
  | .atProtectedKw => "AT_PROTECTED_KW"
  | .atPrivateKw => "AT_PRIVATE_KW"
  | .atRequiredKw => "AT_REQUIRED_KW"
  | .atOptionalKw => "AT_OPTIONAL_KW"
  | .atPropertyKw => "AT_PROPERTY_KW"
  | .atSynthesizeKw => "AT_SYNTHESIZE_KW"
  | .atTryKw => "AT_TRY_KW"
  | .atCatchKw => "AT_CATCH_KW"
  | .atFinallyKw => "AT_FINALLY_KW"
  | .atThrowKw => "AT_THROW_KW"
  | .atSynchronizedKw => "AT_SYNCHRONIZED_KW"
  | .atSelectorKw => "AT_SELECTOR_KW"
  | .atEncodeKw => "AT_ENCODE_KW"
  | .nilKw => "NIL_KW"
  | .selfKw => "SELF_KW"
  | .superKw => "SUPER_KW"
  | .objcString => "OBJC_STRING"
  | .preprocessorConditional => "PREPROCESSOR_CONDITIONAL"
  | .conditionIf => "CONDITION_IF"
  | .conditionElseIf => "CONDITION_ELSE_IF"
  | .conditionElse => "CONDITION_ELSE"
  | .flowSwitch => "FLOW_SWITCH"
  | .flowCase => "FLOW_CASE"
  | .flowDefault => "FLOW_DEFAULT"
  | .flowFor => "FLOW_FOR"
  | .flowWhile => "FLOW_WHILE"
  | .flowDoWhile => "FLOW_DO_WHILE"
  | .flowGoto => "FLOW_GOTO"
  | .flowLabel => "FLOW_LABEL"
  | .flowReturn => "FLOW_RETURN"
  | .typedefDeclaration => "TYPEDEF"
  | .typeEnum => "TYPE_ENUM"
  | .typeStruct => "TYPE_STRUCT"
  | .typeUnion => "TYPE_UNION"
  | .sizeof => "SIZEOF"
  | .typeof => "TYPEOF"
  | .functionPrototype => "FUNCTION_PROTOTYPE"
  | .functionDefinition => "FUNCTION_DEFINITION"
  | .functionCall => "FUNCTION_CALL"
  | .cppNamespace => "CPP_NAMESPACE"
  | .cppClass => "CPP_CLASS"
  | .cppPublic => "CPP_PUBLIC"
  | .cppProtected => "CPP_PROTECTED"
  | .cppPrivate => "CPP_PRIVATE"
  | .cppTry => "CPP_TRY"
  | .cppCatch => "CPP_CATCH"
  | .cppThrow => "CPP_THROW"
  | .cppNew => "CPP_NEW"
  | .cppDelete => "CPP_DELETE"
  | .objcInterface => "OBJC_INTERFACE"
  | .objcImplementation => "OBJC_IMPLEMENTATION"
  | .objcProtocol => "OBJC_PROTOCOL"
  | .objcProperty => "OBJC_PROPERTY"
  | .objcSynthesize => "OBJC_SYNTHESIZE"
  | .objcTry => "OBJC_TRY"
  | .objcCatch => "OBJC_CATCH"
  | .objcFinally => "OBJC_FINALLY"
  | .objcThrow => "OBJC_THROW"
  | .objcSynchronized => "OBJC_SYNCHRONIZED"
  | .objcSelector => "OBJC_SELECTOR"
  | .objcEncode => "OBJC_ENCODE"
  | .objcMethodDeclaration => "OBJC_METHOD_DECLARATION"
  | .objcMethodImplementation => "OBJC_METHOD_IMPLEMENTATION"
  | .objcMethodCall => "OBJC_METHOD_CALL"
  | .tag => "TAG"
  | .markupComment => "MARKUP_COMMENT"
  | .cdata => "CDATA"
  | .doctype => "DOCTYPE"
  | .entity => "ENTITY"
  | .processingInstruction => "PROCESSING_INSTRUCTION"
  | .xmlDeclaration => "XML_DECLARATION"
  | .element => "ELEMENT"
  | .rssChannel => "RSS_CHANNEL"
  | .rssItem => "RSS_ITEM"
  | .rssCategory => "RSS_CATEGORY"
  | .rssTitle => "RSS_TITLE"
  | .rssLink => "RSS_LINK"
  | .rssDescription => "RSS_DESCRIPTION"
  | .rssLanguage => "RSS_LANGUAGE"
  | .rssAuthor => "RSS_AUTHOR"
  | .rssEnclosure => "RSS_ENCLOSURE"
  | .rssGuid => "RSS_GUID"
  | .rssPublicationDate => "RSS_PUBLICATION_DATE"
  | .atomFeed => "ATOM_FEED"
  | .atomEntry => "ATOM_ENTRY"
  | .atomSubtitle => "ATOM_SUBTITLE"
  | .atomId => "ATOM_ID"
  | .atomSummary => "ATOM_SUMMARY"
  | .atomName => "ATOM_NAME"
  | .atomEmail => "ATOM_EMAIL"
  | .atomUpdated => "ATOM_UPDATED"
  | .plist => "PLIST"
  | .plistDictionary => "PLIST_DICTIONARY"
  | .plistArray => "PLIST_ARRAY"
  | .plistKey => "PLIST_KEY"
  | .plistString => "PLIST_STRING"
  | .plistInteger => "PLIST_INTEGER"
  | .plistReal => "PLIST_REAL"
  | .plistTrue => "PLIST_TRUE"
  | .plistFalse => "PLIST_FALSE"
  | .plistDate => "PLIST_DATE"
  | .plistData => "PLIST_DATA"

/-- The display name of a kind, as views and messages show it. -/
def name : Kind → String
  | .root => "Root"
  | .text => "Text"
  | .whitespace => "Whitespace"
  | .indenting => "Indenting"
  | .newline => "Newline"
  | .delimiter => "Match"
  | .number => "Number"
  | .operator => "Operator"
  | .braces => "Braces"
  | .parenthesis => "Parenthesis"
  | .brackets => "Brackets"
  | .colon => "Colon"
  | .doubleColon => "DoubleColon"
  | .semicolon => "Semicolon"
  | .questionMark => "QuestionMark"
  | .exclamationMark => "ExclamationMark"
  | .verticalBar => "VerticalBar"
  | .tilde => "Tilde"
  | .caret => "Caret"
  | .ampersand => "Ampersand"
  | .asterisk => "Asterisk"
  | .comma => "Comma"
  | .equal => "Equal"
  | .pound => "Pound"
  | .dot => "Dot"
  | .arrow => "Arrow"
  | .cComment => "CComment"
  | .cppComment => "CPPComment"
  | .stringSingleQuote => "StringSingleQuote"
  | .stringDoubleQuote => "StringDoubleQuote"
  | .preprocessorIf => "PreprocessorIf"
  | .preprocessorIfDefined => "PreprocessorIfdef"
  | .preprocessorIfNotDefined => "PreprocessorIfndef"
  | .preprocessorElif => "PreprocessorElseIf"
  | .preprocessorElse => "PreprocessorElse"
  | .preprocessorEndif => "PreprocessorEndif"
  | .preprocessorDefine => "PreprocessorDefine"
  | .preprocessorUndefine => "PreprocessorUndefine"
  | .preprocessorInclude => "PreprocessorInclude"
  | .preprocessorImport => "PreprocessorImport"
  | .preprocessorPragma => "PreprocessorPragma"
  | .preprocessorWarning => "PreprocessorWarning"
  | .preprocessorError => "PreprocessorError"
  | .ifKw => "If"
  | .elseKw => "Else"
  | .switchKw => "Switch"
  | .caseKw => "Case"
  | .defaultKw => "Default"
  | .forKw => "For"
  | .doKw => "Do"
  | .whileKw => "While"
  | .breakKw => "Break"
  | .continueKw => "Continue"
  | .gotoKw => "Goto"
  | .returnKw => "Return"
  | .typedefKw => "Typedef"
  | .enumKw => "Enum"
  | .structKw => "Struct"
  | .unionKw => "Union"
  | .sizeofKw => "SizeOf"
  | .typeofKw => "TypeOf"
  | .nullKw => "Null"
  | .voidKw => "Void"
  | .autoKw => "Auto"
  | .staticKw => "Static"
  | .registerKw => "Register"
  | .volatileKw => "Volatile"
  | .constKw => "Const"
  | .externKw => "Extern"
  | .inlineKw => "Inline"
  | .signedKw => "Signed"
  | .unsignedKw => "Unsigned"
  | .charKw => "Char"
  | .shortKw => "Short"
  | .intKw => "Int"
  | .longKw => "Long"
  | .floatKw => "Float"
  | .doubleKw => "Double"
  | .namespaceKw => "Namespace"
  | .classKw => "Class"
  | .publicKw => "Public"
  | .protectedKw => "Protected"
  | .privateKw => "Private"
  | .usingKw => "Using"
  | .virtualKw => "Virtual"
  | .tryKw => "Try"
  | .catchKw => "Catch"
  | .throwKw => "Throw"
  | .newKw => "New"
  | .deleteKw => "Delete"
  | .templateKw => "Template"
  | .typenameKw => "Typename"
  | .operatorKw => "OperatorKeyword"
  | .thisKw => "This"
  | .trueKw => "True"
  | .falseKw => "False"
  | .boolKw => "Bool"
  | .explicitKw => "Explicit"
  | .friendKw => "Friend"
  | .mutableKw => "Mutable"
  | .atInterfaceKw => "AtInterface"
  | .atImplementationKw => "AtImplementation"
  | .atProtocolKw => "AtProtocol"
  | .atEndKw => "AtEnd"
  | .atClassKw => "AtClass"
  | .atPublicKw => "AtPublic"
  | .atProtectedKw => "AtProtected"
  | .atPrivateKw => "AtPrivate"
  | .atRequiredKw => "AtRequired"
  | .atOptionalKw => "AtOptional"
  | .atPropertyKw => "AtProperty"
  | .atSynthesizeKw => "AtSynthesize"
  | .atTryKw => "AtTry"
  | .atCatchKw => "AtCatch"
  | .atFinallyKw => "AtFinally"
  | .atThrowKw => "AtThrow"
  | .atSynchronizedKw => "AtSynchronized"
  | .atSelectorKw => "AtSelector"
  | .atEncodeKw => "AtEncode"
  | .nilKw => "Nil"
  | .selfKw => "Self"
  | .superKw => "Super"
  | .objcString => "ObjCString"
  | .preprocessorConditional => "PreprocessorConditional"
  | .conditionIf => "ConditionIf"
  | .conditionElseIf => "ConditionElseIf"
  | .conditionElse => "ConditionElse"
  | .flowSwitch => "FlowSwitch"
  | .flowCase => "FlowCase"
  | .flowDefault => "FlowDefault"
  | .flowFor => "FlowFor"
  | .flowWhile => "FlowWhile"
  | .flowDoWhile => "FlowDoWhile"
  | .flowGoto => "FlowGoto"
  | .flowLabel => "FlowLabel"
  | .flowReturn => "FlowReturn"
  | .typedefDeclaration => "TypedefDeclaration"
  | .typeEnum => "TypeEnum"
  | .typeStruct => "TypeStruct"
  | .typeUnion => "TypeUnion"
  | .sizeof => "SizeOfExpression"
  | .typeof => "TypeOfExpression"
  | .functionPrototype => "FunctionPrototype"
  | .functionDefinition => "FunctionDefinition"
  | .functionCall => "FunctionCall"
  | .cppNamespace => "CPPNamespace"
  | .cppClass => "CPPClass"
  | .cppPublic => "CPPPublic"
  | .cppProtected => "CPPProtected"
  | .cppPrivate => "CPPPrivate"
  | .cppTry => "CPPTry"
  | .cppCatch => "CPPCatch"
  | .cppThrow => "CPPThrow"
  | .cppNew => "CPPNew"
  | .cppDelete => "CPPDelete"
  | .objcInterface => "ObjCInterface"
  | .objcImplementation => "ObjCImplementation"
  | .objcProtocol => "ObjCProtocol"
  | .objcProperty => "ObjCProperty"
  | .objcSynthesize => "ObjCSynthesize"
  | .objcTry => "ObjCTry"
  | .objcCatch => "ObjCCatch"
  | .objcFinally => "ObjCFinally"
  | .objcThrow => "ObjCThrow"
  | .objcSynchronized => "ObjCSynchronized"
  | .objcSelector => "ObjCSelector"
  | .objcEncode => "ObjCEncode"
  | .objcMethodDeclaration => "ObjCMethodDeclaration"
  | .objcMethodImplementation => "ObjCMethodImplementation"
  | .objcMethodCall => "ObjCMethodCall"
  | .tag => "Tag"
  | .markupComment => "MarkupComment"
  | .cdata => "CDATA"
  | .doctype => "DOCTYPE"
  | .entity => "Entity"
  | .processingInstruction => "ProcessingInstruction"
  | .xmlDeclaration => "XMLDeclaration"
  | .element => "Element"
  | .rssChannel => "RSSChannel"
  | .rssItem => "RSSItem"
  | .rssCategory => "RSSCategory"
  | .rssTitle => "RSSTitle"
  | .rssLink => "RSSLink"
  | .rssDescription => "RSSDescription"
  | .rssLanguage => "RSSLanguage"
  | .rssAuthor => "RSSAuthor"
  | .rssEnclosure => "RSSEnclosure"
  | .rssGuid => "RSSGUID"
  | .rssPublicationDate => "RSSPublicationDate"
  | .atomFeed => "AtomFeed"
  | .atomEntry => "AtomEntry"
  | .atomSubtitle => "AtomSubtitle"
  | .atomId => "AtomID"
  | .atomSummary => "AtomSummary"
  | .atomName => "AtomName"
  | .atomEmail => "AtomEmail"
  | .atomUpdated => "AtomUpdated"
  | .plist => "PropertyList"
  | .plistDictionary => "PropertyListDictionary"
  | .plistArray => "PropertyListArray"
  | .plistKey => "PropertyListKey"
  | .plistString => "PropertyListString"
  | .plistInteger => "PropertyListInteger"
  | .plistReal => "PropertyListReal"
  | .plistTrue => "PropertyListTrue"
  | .plistFalse => "PropertyListFalse"
  | .plistDate => "PropertyListDate"
  | .plistData => "PropertyListData"

/-- The kind spelled `code`. -/
def ofCode? (code : String) : Option Kind := all.find? (·.code == code)

/-- The kind with the display name `name`. -/
def ofName? (name : String) : Option Kind := all.find? (·.name == name)

end Kind

end ConcreteSyntax
