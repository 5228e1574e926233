import ComponentAtlas.Script.Grammar

/-!
# The language of scripts

The rules of modules with classes, decorators and tags between expressions. Words with a meaning
are words like any other where that meaning cannot apply. A tolerant reading skips what it cannot
read, statement by statement and member by member, and passes over annotations of types.
-/

namespace ComponentAtlas.Script

open Rule

namespace Language

/-- The words that start an expression of their own. -/
def expressionWords : List String :=
  ["function", "class", "new", "typeof", "void", "delete", "await", "yield", "this", "super",
    "true", "false", "null", "import"]

/-- The words that start a statement or a clause. -/
def statementWords : List String :=
  ["export", "debugger", "var", "const", "if", "switch", "for", "while", "do", "try", "with",
    "break", "continue", "return", "throw", "case", "default"] ++ expressionWords

/-- Goes on only where no semicolon is inserted, if one may be. -/
def noInsertion (open_ : Bool) : Rule :=
  if open_ then .absent (.inserted false) else .nothing

/-- A semicolon, written or inserted. -/
def semicolon (strict : Bool) : Rule :=
  .either (.inserted strict) (.sign ";")

/-- A word as a name. -/
def name : Rule := .node .name (.token .word)

/-- An expression. -/
def expression (open_ : Bool) : Rule := .ref (.expression open_)

/-- Expressions with commas between them. -/
def sequence (open_ : Bool) : Rule := .ref (.sequence open_)

/-- An expression or pattern. -/
def cover (open_ : Bool) : Rule := .ref (.cover open_)

/-- A statement. -/
def statement : Rule := .ref .statement

/-- An expression in parentheses. -/
def condition : Rule := between "(" ")" (sequence false)

/-! ## Expressions -/

/-- An expression or pattern behind three dots. -/
def spread : Rule := .node .spread (all [.sign "...", cover false])

/-- Items with commas between them, any of which may be missing. -/
def sparseItems (item : Rule) : Rule :=
  .both (option item) (.many (.both (.sign ",") (option item)))

/-- The arguments of a call. -/
def arguments : Rule :=
  between "(" ")" (sparseItems (any [.both (.sign "...") (expression false), expression false]))

/-- A comma behind the last of some parameters. -/
def lastComma : Rule := .node .comma (.sign ",")

/-- A list in parentheses: the parameters of an arrow, or an expression. -/
def parenthesized : Rule :=
  .node .parameters (between "(" ")" (option
    (.both (list "," (any [spread, cover false])) (option lastComma))))

/-- Anything in parentheses, in a tolerant reading. -/
def group : Rule :=
  between "(" ")" (.many (any [.ref .group,
    .both (.absent (any [.sign "(", .sign ")"])) (.token (.anything true))]))

/-- Parameters that a tolerant reading passes over. -/
def passedParameters : Rule := .tolerated (.node .parameters (.ref .group))

/-- The parameters of a function. -/
def parameters : Rule := .either (.check Node.isParameters parenthesized) passedParameters

/-- The body of an arrow. -/
def arrowBody (open_ : Bool) : Rule :=
  any [.ref (.block false), expression open_]

/-- The arrow and body behind parameters. -/
def arrowStep (open_ : Bool) : Rule :=
  .node .arrow (all [.sign "=>", arrowBody open_])

/-- The rest of a function behind its word. -/
def functionTail : Rule :=
  all [option (.sign "*"), option name, .ref .parameters, .ref (.block false)]

/-- A function with or without a name. -/
def function : Rule :=
  .node .expression (all [option (.both (.word "async") (noInsertion true)), .word "function",
    functionTail])

/-- An arrow that waits. -/
def asyncArrow (open_ : Bool) : Rule :=
  .node .expression (all [.word "async", noInsertion open_,
    .check (fun n => n.is .arrow)
      (.chain (any [name, parenthesized]) (arrowStep open_))])

/-- The name of a property in brackets. -/
def computedName : Rule := between "[" "]" (expression false)

/-- The name of a property. -/
def propertyName : Rule :=
  any [.token .word, .token .privateName, .token .string, .token .number, computedName]

/-- What shows that a word in front of it is the name of a member and says nothing about it. -/
def memberNameEnd : Rule :=
  any [.inserted true, .sign "=", .sign ";", .sign "\x7d", .sign "(", .sign ":", .sign ","]

/-- A word that says something about the member behind it. -/
def modifier (text : String) : Rule := .both (.word text) (.absent memberNameEnd)

/-- The words in front of the name of a method. -/
def methodModifiers : Rule :=
  all [option (any [.node .staticGetter (.token .staticGetter),
      .node .static (modifier "static")]),
    option (modifier "async"),
    option (any [.node .accessor (any [modifier "get", modifier "set"]), .sign "*"])]

/-- What a tolerant reading passes over up to one of some signs. -/
def passedUpTo (signs : List String) : Rule :=
  .tolerated (.many (.both (.absent (anySign signs)) (.token (.anything false))))

/-- The type that may stand behind parameters, in a tolerant reading. -/
def resultType : Rule := option (.both (.sign ":") (passedUpTo ["\x7b", "\x7d", ";"]))

/-- A closing brace. In a tolerant reading it may be missing at the end of the text. -/
def closingBrace : Rule :=
  .either (.sign "\x7d") (.tolerated (.absent (.absent .end_)))

/-- A method up to the end of its body. -/
def method (kind : NodeKind) : Rule :=
  .node kind (all [.many (.ref .decorator), methodModifiers, .node .memberName (.ref .propertyName),
    .ref .parameters, resultType, .ref (.block true)])

/-- An entry of an object. -/
def objectEntry : Rule :=
  any [spread,
    .node .pair (all [.ref .propertyName, .sign ":", cover false]),
    method .objectMethod,
    .node .shorthandDefault (all [.token .word, .sign "=", expression false]),
    .node .shorthand (.token .word)]

/-- An object or a pattern of one. -/
def object : Rule := .node .object (between "\x7b" "\x7d" (sparseItems objectEntry))

/-- An array or a pattern of one. -/
def array : Rule := .node .array (between "[" "]" (sparseItems (any [spread, cover false])))

/-- A template with its substitutions. -/
def template : Rule :=
  .node .template (all [.sign "`",
    .many (any [.token .templateText,
      all [.glued "$\x7b", sequence false, .sign "\x7d"]]),
    .glued "`"])

/-- An expression in braces inside of a tag. -/
def tagExpression : Rule :=
  between "\x7b" "\x7d" (option (any [spread, sequence false]))

/-- An attribute of a tag. -/
def tagAttribute : Rule :=
  any [tagExpression,
    .both (.token .tagName) (option (.both (.sign "=")
      (any [.token .tagValue, tagExpression, .ref .tag])))]

/-- What stands between the tags of an element, with the end of its end tag. -/
def tagContent : Rule :=
  all [.glued ">", .many (any [.token .tagText, tagExpression, .ref .tag]),
    .sign "<", .sign "/", option (.token .tagName), .glued ">"]

/-- An element among expressions. -/
def tag : Rule :=
  .node .expression (.both (.sign "<")
    (any [tagContent,
      all [.token .tagName, .many tagAttribute, .many (.token .tagText),
        any [.both (.glued "/") (.glued ">"), tagContent]]]))

/-- A decorator: a name with dots, and arguments. -/
def decorator : Rule :=
  .node .decorator (all [.sign "@", .token .word,
    .many (.both (.sign ".") (.token .word)), option (.ref .arguments)])

/-- What a class extends. A tolerant reading passes over other words in front of the body. -/
def heritage : Rule :=
  .both (option (.both (.word "extends") (expression false)))
    (option (passedUpTo ["\x7b", "\x7d", ";", "<", ">"]))

/-- The name of a class. -/
def className : Rule := .node .className (.nameBut ["extends"])

/-- A class as an expression. -/
def classExpression : Rule :=
  .node .classExpression (all [.many (.ref .decorator), .word "class", option className,
    .ref .classTail])

/-- A class in a declaration. -/
def classDeclaration (strict : Bool) : Rule :=
  .node .classDeclaration (all [.many (.ref .decorator), .word "class", className,
    .ref .classTail, option (.inserted strict)])

/-- An access to a new object, to the target of a construction, or to a module. -/
def newExpression (open_ : Bool) : Rule :=
  .node .expression (.both (.word "new")
    (any [.both (.sign ".") (.word "target"),
      .check (fun n => n.isExpression) (.ref (.reach open_))]))

/-- A private name as the left side of a test for membership. -/
def privateTest : Rule :=
  .both (.token .privateName) (.absent (.absent (.word "in")))

/-- An expression without operators. -/
def primary (open_ : Bool) : Rule :=
  any [
    .node .number (.token .number),
    .node .string (.token .string),
    .ref .template,
    object, array, parenthesized, passedParameters,
    function, asyncArrow open_,
    newExpression open_,
    .node .boolean (anyWord ["true", "false"]),
    .node .expression (anyWord ["this", "super", "null"]),
    .node .expression (.both (.word "import")
      (.absent (.absent (any [.sign "(", .sign "."])))),
    classExpression,
    .node .name (.nameBut expressionWords),
    .node .expression (.token .pattern),
    .node .expression privateTest,
    .ref .tag]

/-- A name behind a dot. -/
def memberName : Rule := any [.token .word, .token .privateName]

/-- A step from an expression to a part of it, or a call of it. -/
def reachStep (open_ : Bool) : Rule :=
  .both (noInsertion open_) (any [
    .node .memberAccess (all [any [.sign ".", .sign "?."], memberName]),
    .node .indexAccess (all [option (.sign "?."), .sign "[", sequence false, .sign "]"]),
    .node .expression (all [option (.sign "?."), .ref .arguments]),
    .node .expression (.ref .template)])

/-- An expression with steps and calls only. -/
def reach (open_ : Bool) : Rule := .chain (primary open_) (reachStep open_)

/-- The signs of assignments that read the target. -/
def updateSigns : List String :=
  ["+=", "-=", "*=", "/=", "%=", "^=", "&=", "|=", ">>=", ">>>=", "<<=", "**=", "&&=", "||=",
    "??="]

/-- The signs between two expressions. -/
def binarySigns : List String :=
  ["&&", "||", ">>", ">>>", "<<", "&", "^", "|", "+", "-", "*", "/", "%", "**", "<", "<=", "==",
    "===", "!=", "!==", ">=", ">", "??"]

/-- A step from an expression to a greater one. -/
def operatorStep (open_ : Bool) : Rule :=
  any [reachStep open_,
    .both (noInsertion open_) (any [
      .node .assignment (all [.sign "=", expression open_]),
      .node .update (all [anySign updateSigns, expression open_]),
      arrowStep open_,
      .node .expression (anySign ["++", "--"]),
      .node .expression (all [any [anySign binarySigns, anyWord ["in", "instanceof"]],
        expression open_]),
      .node .expression (all [.sign "?", expression false, .sign ":", expression open_])])]

/-- An operator in front of its operand. -/
def prefixed (open_ : Bool) : Rule :=
  .node .expression (.both
    (any [anySign ["!", "~", "-", "+", "++", "--"],
      anyWord ["typeof", "void", "delete", "await"]])
    (expression open_))

/-- A value handed out by a generator. -/
def yielding (open_ : Bool) : Rule :=
  .node .expression (.both (.word "yield")
    (any [all [.sign "*", expression open_],
      .both (noInsertion open_) (expression open_), .nothing]))

/-- An expression or pattern. -/
def coverRule (open_ : Bool) : Rule :=
  .chain (any [yielding open_, prefixed open_, primary open_]) (operatorStep open_)

/-- Expressions with commas between them. -/
def sequenceRule (open_ : Bool) : Rule :=
  .both (expression open_)
    (.many (all [noInsertion open_, .sign ",", expression open_]))

/-! ## Statements -/

/-- A pattern with brackets or braces. -/
def bracketPattern : Rule := .check Node.isPattern (any [object, array])

/-- What a variable declares. -/
def declared : Rule := any [.token .word, bracketPattern]

/-- Variables with their first values, up to the end of the statement. -/
def declarators : Rule :=
  .both declared (any [
    all [.sign "=", expression true,
      any [all [noInsertion true, .sign ",", .ref .declarators], semicolon false]],
    .both (.sign ",") (.ref .declarators),
    semicolon true])

/-- A declaration of variables. -/
def variableDeclaration : Rule := .both (anyWord ["var", "let", "const"]) (.ref .declarators)

/-- A function with a name. -/
def functionDeclaration : Rule :=
  all [option (.both (.word "async") (noInsertion true)), .word "function", option (.sign "*"),
    .token .word, .ref .parameters, .ref (.block false)]

/-- The name of an imported or exported value. -/
def moduleName : Rule := any [.token .word, .token .string]

/-- Names in braces with other names for them. -/
def moduleNames : Rule :=
  between "\x7b" "\x7d" (option
    (.both (list "," (.both moduleName (option (.both (.word "as") moduleName))))
      (option (.sign ","))))

/-- The module that names come from. -/
def fromModule : Rule := .both (.word "from") (.token .string)

/-- All values of a module under one name. -/
def wholeModule : Rule := all [.sign "*", .word "as", .token .word]

/-- An import of names. -/
def importNames : Rule :=
  .both (any [wholeModule, moduleNames,
      .both (.token .word) (option (.both (.sign ",") (any [wholeModule, moduleNames])))])
    fromModule

/-- An import. -/
def importStatement : Rule :=
  all [.word "import", any [importNames, .token .string], option (.both (.word "with") object),
    semicolon true]

/-- A value as a statement. Functions and classes with a name are declarations instead. -/
def valueStatement (value : Rule) : Rule :=
  all [
    .absent (any [
      all [option (.word "async"), .word "function", option (.sign "*"), .token .word],
      all [.many (.ref .decorator), .word "class", className]]),
    value, semicolon false]

/-- The value of a default export. -/
def defaultValue : Rule :=
  any [classDeclaration false, .node .statement functionDeclaration,
    .node .statement variableDeclaration,
    valueStatement (expression true)]

/-- An export. -/
def exportStatement : Rule :=
  any [
    .node .defaultExport (all [.many (.ref .decorator), .word "export", .word "default",
      defaultValue]),
    .node .statement (all [.word "export",
      any [
        all [.sign "*", option (.both (.word "as") moduleName), fromModule],
        .both moduleNames (option fromModule)],
      semicolon true]),
    .node .statement (all [.many (.ref .decorator), .word "export",
      any [functionDeclaration, classDeclaration true, variableDeclaration]])]

/-- What a loop runs over. -/
def loopSource : Rule := .both (anyWord ["in", "of"]) (sequence false)

/-- The head of a loop. -/
def loopHead : Rule :=
  any [
    all [anyWord ["var", "let", "const"], declared, option (.both (.sign "=") (expression false)),
      loopSource],
    .both (.check (fun n => n.isTarget) (.ref (.reach false))) loopSource,
    all [any [variableDeclaration, .both (sequence false) (.sign ";"), .sign ";"],
      option (sequence false), .sign ";", option (sequence false)]]

/-- A clause of a switch. -/
def switchClause : Rule :=
  .both (any [all [.word "case", sequence false, .sign ":"], .both (.word "default") (.sign ":")])
    (.many statement)

/-- A jump that may name a label. -/
def jump (text : String) : Rule :=
  all [.word text,
    any [.inserted true, .both (option (.token .word)) (semicolon true)]]

/-- The statements that start with a word of their own. -/
def wordStatement : Rule :=
  any [
    .both (.word "debugger") (semicolon true),
    variableDeclaration,
    functionDeclaration,
    all [.word "if", condition, statement, option (.both (.word "else") statement)],
    all [.word "switch", condition, between "\x7b" "\x7d" (.many switchClause)],
    all [.word "for", option (.word "await"), between "(" ")" loopHead, statement],
    all [.word "while", condition, statement],
    all [.word "do", statement, .word "while", condition, option (semicolon true)],
    all [.word "try", .ref (.block true),
      option (all [.word "catch", option (between "(" ")" declared), .ref (.block true)]),
      option (.both (.word "finally") (.ref (.block true)))],
    all [.word "with", condition, statement],
    jump "break", jump "continue",
    .both (.word "return")
      (any [.inserted true, .both (sequence true) (semicolon false), .sign ";"]),
    all [.word "throw", sequence true, semicolon false]]

/-- A statement. -/
def statementRule : Rule :=
  any [
    (.node .statement importStatement),
    exportStatement,
    classDeclaration false,
    .node .statement (any [wordStatement, .sign ";", .ref (.block true),
      all [.nameBut statementWords, .sign ":", statement],
      valueStatement (sequence true)])]

/-- What a tolerant reading skips at once: a block, or a lexeme. -/
def skipped (brace : Bool) : Rule :=
  .tolerated (.node .skipped (any [.ref (.block true), .token (.anything brace)]))

/-- Statements in braces. -/
def blockRule (strict : Bool) : Rule :=
  all [.sign "\x7b", .many (any [statement, skipped false]), closingBrace,
    option (.inserted strict)]

/-- A whole module. -/
def program : Rule :=
  .node .program (all [.many (any [.comment, statement, skipped true]), .end_])

/-! ## Classes -/

/-- The first value of a field. -/
def fieldValue : Rule := .both (.sign "=") (expression true)

/-- The words in front of the name of a field. -/
def fieldModifiers : Rule :=
  .both (.many (.ref .decorator)) (option (.node .static (modifier "static")))

/-- The name of a member. -/
def fieldName : Rule := .node .memberName (.ref .propertyName)

/-- What stands in front of the name of a member in a tolerant reading: behind decorators and
such it is passed over together with words that mean nothing; otherwise nothing may be. -/
def passedModifiers (opening : Bool) : Rule :=
  .either
    (.both (any [
        all [.ref .decorator, .many (.ref .decorator), option (.node .static (modifier "static"))],
        .node .static (modifier "static")])
      (option (.token (.passedName false))))
    (.absent (.token (.passedName !opening)))

/-- The end of a field with what is passed over in front of it. -/
def passedEnd (strict : Bool) : Rule :=
  .either (semicolon strict) (.both (any [.token .typeMark, .sign "="]) (.sign ";"))

/-- A member with types, in a tolerant reading. -/
def typedMember (opening : Bool) : Rule :=
  let front := passedModifiers opening
  let mark := option (.token .typeMark)
  .tolerated (any [
    .both (.node .method (all [front, methodModifiers, fieldName, mark, .ref .parameters,
      resultType, .ref (.block true)])) (option (.sign ";")),
    .both (.node .field (all [front, fieldName, mark, fieldValue])) (passedEnd false),
    .both (.node .field (.both front fieldName)) (passedEnd true)])

/-- A member as it should be. -/
def plainMember : Rule :=
  any [
    .node .staticBlock (all [.word "static", option (.inserted true), .ref (.block true)]),
    .both (method .method) (option (.sign ";")),
    .both (.node .field (all [fieldModifiers, fieldName, fieldValue])) (semicolon false),
    .both (.node .field (.both fieldModifiers fieldName)) (semicolon true)]

/-- A field that ends behind its name, in a tolerant reading. -/
def bareField : Rule := .tolerated (.node .field (.node .memberName (.token .bareName)))

/-- A member of a class. Only the first member of a class is an opening one. -/
def member (opening : Bool) : Rule :=
  if opening then .either plainMember (typedMember true)
  else any [plainMember, bareField, typedMember false]

/-- What a tolerant reading passes over in front of a member: words, or a decorator. -/
def passedFront (opening : Bool) : Rule :=
  .tolerated (.node .skipped (.either (.token (.passedName !opening)) (.ref .decorator)))

/-- What stands in front of the first member in a tolerant reading. -/
def openingWords : Rule :=
  .many (.tolerated (.either .comment (.both (.absent (member true)) (passedFront true))))

/-- The part of a class behind its name. -/
def classTail : Rule :=
  .both heritage
    (.node .classBody (all [.sign "\x7b", openingWords, option (.tolerated (member true)),
      .many (any [.comment, member false, .sign ";", passedFront false, skipped false]),
      closingBrace]))

/-- The rule of each symbol. -/
def rules : Symbol → Rule
  | .program => program
  | .statement => statementRule
  | .block strict => blockRule strict
  | .expression open_ => .check Node.isExpression (cover open_)
  | .cover open_ => coverRule open_
  | .sequence open_ => sequenceRule open_
  | .reach open_ => reach open_
  | .arguments => arguments
  | .parameters => parameters
  | .group => group
  | .template => template
  | .tag => tag
  | .propertyName => propertyName
  | .decorator => decorator
  | .declarators => declarators
  | .classTail => classTail

end Language

end ComponentAtlas.Script
