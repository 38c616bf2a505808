import DeltaLang.Grammar.Peg
import DeltaLang.Grammar.Rule

/-!
# The grammar

The concrete form of programs as a parsing expression grammar.  Words of the language have no
boundary of their own unless a rule asks for one, so `usesT;` reads as `uses T;`.
-/

namespace DeltaLang

namespace Concrete

open Peg

/-! ## Characters and names -/

def isDigit (c : Char) : Bool := '0' ≤ c && c ≤ '9'

def isLetter (c : Char) : Bool := 'a' ≤ c && c ≤ 'z' || 'A' ≤ c && c ≤ 'Z'

/-- A letter or an underscore, which may start a name. -/
def isNameStart (c : Char) : Bool := isLetter c || c == '_'

/-- A character within a name. -/
def isNameChar (c : Char) : Bool := isNameStart c || isDigit c

/-- The reserved words. -/
def keywords : List String :=
  ["module", "interface", "extends", "implements", "class", "trait", "delta", "uses", "adds",
    "modifies", "removes", "after", "before", "when", "product", "recover", "return", "skip",
    "if", "else", "while", "new", "local", "this", "null", "true", "false", "original"]

/-- Not within a name. -/
def boundary : Peg Rule := .not (.one isNameChar)

def leftBrace : Peg Rule := .lit ['{']

def rightBrace : Peg Rule := .lit ['}']

def nameList : Peg Rule := commaList (.rule .qualifiedName)

def identifierList : Peg Rule := commaList (.rule .identifier)

/-! ## Groups of rules that yield no node of their own -/

def decl : Peg Rule :=
  choice [.rule .interfaceDecl, .rule .classDecl, .rule .traitDecl, .rule .deltaDecl,
    .rule .productDecl]

def params : Peg Rule := commaList (.rule .param)

def classMember : Peg Rule :=
  choice [.rule .traitUse, .rule .recoverBlock, .rule .initBlock, .rule .methodImpl,
    .rule .fieldDecl]

/-- Signatures, each closed by a semicolon. -/
def signatures : Peg Rule := many (seq (.rule .methodSig) (word ";"))

def traitAtom : Peg Rule := choice [.rule .methodSet, .rule .traitRef]

def traitOp : Peg Rule := choice [.rule .traitAdds, .rule .traitModifies, .rule .traitRemoves]

def deltaClause : Peg Rule := choice [.rule .deltaAfter, .rule .deltaBefore, .rule .deltaWhen]

def appUnary : Peg Rule :=
  choice [.rule .appNot, .rule .appFeature, sequence [word "(", .rule .appCond, word ")"]]

def deltaOp : Peg Rule :=
  choice [.rule .deltaAdds, .rule .deltaRemoves, .rule .modifiesClass, .rule .modifiesInterface,
    .rule .modifiesTrait]

def classModifier : Peg Rule :=
  choice [.rule .traitUse, .rule .classAdds, .rule .classModifies, .rule .classRemoves]

def interfaceModifier : Peg Rule := choice [.rule .interfaceAdds, .rule .interfaceRemoves]

def stmt : Peg Rule :=
  choice [.rule .varDecl, .rule .assignStmt, .rule .exprStmt, .rule .returnStmt, .rule .skipStmt,
    .rule .ifStmt, .rule .whileStmt]

def expr : Peg Rule := .rule .orExpr

def args : Peg Rule := commaList expr

/-- A value given after an equals sign. -/
def initialValue : Peg Rule := seq (word "=") expr

def suffix : Peg Rule := choice [.rule .asyncCall, .rule .syncCall, .rule .getSuffix]

def primary : Peg Rule :=
  choice [.rule .newExpr, .rule .originalCall, .rule .thisField, .rule .thisExpr, .rule .boolLit,
    .rule .nullLit, .rule .varRef, .rule .intLit, .rule .stringLit,
    sequence [word "(", expr, word ")"]]

/-! ## Rules -/

/-- What each rule matches. -/
def body : Rule → Peg Rule
  | .endOfInput => .endOfText
  | .keyword => seq (choice (keywords.map word)) boundary
  | .identifier =>
    sequence [.not (.rule .keyword), .one isNameStart, .span isNameChar]
  | .qualifiedName => seq (.rule .identifier) (many (seq (word ".") (.rule .identifier)))
  | .unit => sequence [.empty, many (.rule .moduleDecl), .rule .endOfInput]
  | .moduleDecl => sequence [word "module", .rule .qualifiedName, word ";", many decl]
  | .bracketed => sequence [word "[", .rule .identifier, word "]"]
  | .typeUse =>
    sequence [many (.rule .bracketed), .rule .qualifiedName,
      opt (sequence [word "<", .rule .typeUse, many (seq (word ",") (.rule .typeUse)), word ">"])]
  | .param => seq (.rule .typeUse) (.rule .identifier)
  | .methodSig =>
    sequence [.rule .typeUse, .rule .identifier, word "(", opt params, word ")"]
  | .interfaceDecl =>
    sequence [word "interface", .rule .identifier, opt (.rule .extendsClause), leftBrace,
      signatures, rightBrace]
  | .extendsClause => seq (word "extends") nameList
  | .classDecl =>
    sequence [word "class", .rule .identifier, opt (.rule .classParams),
      opt (.rule .implementsClause), leftBrace, many classMember, rightBrace]
  | .classParams => sequence [word "(", opt params, word ")"]
  | .implementsClause => seq (word "implements") nameList
  | .initBlock => .rule .block
  | .recoverBlock => seq (word "recover") (.rule .block)
  | .methodImpl => seq (.rule .methodSig) (.rule .block)
  | .fieldDecl => sequence [.rule .typeUse, .rule .identifier, opt initialValue, word ";"]
  | .traitUse =>
    sequence [word "uses",
      choice [.rule .traitUseModifies, .rule .traitUseRemoves, .rule .traitExpr], word ";"]
  | .traitUseModifies => seq (word "modifies") (.rule .traitExpr)
  | .traitUseRemoves => seq (word "removes") (.rule .sigSet)
  | .sigSet => .alt (sequence [leftBrace, signatures, rightBrace]) (.rule .methodSig)
  | .traitDecl =>
    sequence [word "trait", .rule .identifier, word "=", .rule .traitExpr, opt (word ";")]
  | .traitExpr => seq traitAtom (many traitOp)
  | .methodSet => sequence [leftBrace, many (.rule .methodImpl), rightBrace]
  | .traitRef => .rule .qualifiedName
  | .traitAdds => seq (word "adds") traitAtom
  | .traitModifies => seq (word "modifies") traitAtom
  | .traitRemoves => seq (word "removes") (.rule .sigSet)
  | .deltaDecl =>
    sequence [word "delta", .rule .identifier, many deltaClause, leftBrace, opt (.rule .deltaUses),
      many deltaOp, rightBrace]
  | .deltaAfter => seq (word "after") identifierList
  | .deltaBefore => seq (word "before") identifierList
  | .deltaWhen => seq (word "when") (.rule .appCond)
  | .deltaUses => sequence [word "uses", .rule .qualifiedName, word ";"]
  | .appCond => seq (.rule .appAnd) (many (seq (word "||") (.rule .appAnd)))
  | .appAnd => seq appUnary (many (seq (word "&&") appUnary))
  | .appNot => seq (word "!") appUnary
  | .appFeature => .rule .identifier
  | .deltaAdds =>
    seq (word "adds") (choice [.rule .interfaceDecl, .rule .classDecl, .rule .traitDecl])
  | .deltaRemoves =>
    sequence [word "removes",
      choice [.rule .removesClass, .rule .removesInterface, .rule .removesTrait], word ";"]
  | .removesClass => seq (word "class") (.rule .qualifiedName)
  | .removesInterface => seq (word "interface") (.rule .qualifiedName)
  | .removesTrait => seq (word "trait") (.rule .qualifiedName)
  | .modifiesClass =>
    sequence [word "modifies", word "class", .rule .qualifiedName, opt (.rule .addedInterfaces),
      leftBrace, many classModifier, rightBrace]
  | .addedInterfaces => seq (word "adds") nameList
  | .classAdds => seq (word "adds") (choice [.rule .methodImpl, .rule .fieldDecl])
  | .classModifies => seq (word "modifies") (.rule .methodImpl)
  | .classRemoves => seq (word "removes") (choice [.rule .removedMethod, .rule .removedField])
  | .removedMethod => seq (.rule .methodSig) (word ";")
  | .removedField => sequence [.rule .typeUse, .rule .identifier, word ";"]
  | .modifiesInterface =>
    sequence [word "modifies", word "interface", .rule .qualifiedName, leftBrace,
      many interfaceModifier, rightBrace]
  | .interfaceAdds => sequence [word "adds", .rule .methodSig, word ";"]
  | .interfaceRemoves => sequence [word "removes", .rule .methodSig, word ";"]
  | .modifiesTrait =>
    sequence [word "modifies", word "trait", .rule .qualifiedName, word "=", .rule .traitExpr,
      word ";"]
  | .productDecl =>
    sequence [word "product", .rule .identifier, word "(", opt identifierList, word ")", word ";"]
  | .block => sequence [leftBrace, many stmt, rightBrace]
  | .varDecl => sequence [.rule .typeUse, .rule .identifier, opt initialValue, word ";"]
  | .assignStmt =>
    sequence [choice [.rule .thisField, .rule .varRef], word "=", expr, word ";"]
  | .exprStmt => seq expr (word ";")
  | .returnStmt => sequence [word "return", expr, word ";"]
  | .skipStmt => seq (word "skip") (word ";")
  | .ifStmt =>
    sequence [word "if", word "(", expr, word ")", .rule .block,
      opt (seq (word "else") (.rule .block))]
  | .whileStmt => sequence [word "while", word "(", expr, word ")", .rule .block]
  | .orExpr => seq (.rule .andExpr) (many (seq (word "||") (.rule .andExpr)))
  | .andExpr => seq (.rule .eqExpr) (many (seq (word "&&") (.rule .eqExpr)))
  | .eqExpr => seq (.rule .relExpr) (opt (seq (.rule .eqOp) (.rule .relExpr)))
  | .eqOp => choice [word "==", word "!="]
  | .relExpr => seq (.rule .addExpr) (opt (seq (.rule .relOp) (.rule .addExpr)))
  | .relOp => choice [word "<=", word ">=", word "<", word ">"]
  | .addExpr => seq (.rule .mulExpr) (many (seq (.rule .addOp) (.rule .mulExpr)))
  | .addOp => choice [word "+", word "-"]
  | .mulExpr => seq (.rule .unaryExpr) (many (seq (.rule .mulOp) (.rule .unaryExpr)))
  | .mulOp => choice [word "*", word "/", word "%"]
  | .unaryExpr => seq (many (.rule .unaryOp)) (.rule .postfixExpr)
  | .unaryOp => choice [word "!", word "-"]
  | .postfixExpr => seq primary (many suffix)
  | .syncCall => sequence [word ".", .rule .identifier, word "(", opt args, word ")"]
  | .asyncCall => sequence [word "!", .rule .identifier, word "(", opt args, word ")"]
  | .getSuffix => sequence [word ".", word "get", boundary]
  | .newExpr =>
    sequence [word "new", opt (.rule .localKw), .rule .qualifiedName, word "(", opt args,
      word ")"]
  | .localKw => seq (word "local") boundary
  | .originalCall => sequence [word "original", word "(", opt args, word ")"]
  | .thisField =>
    sequence [word "this", word ".", .rule .identifier, .not (word "(")]
  | .thisExpr => seq (word "this") boundary
  | .boolLit => seq (choice [word "true", word "false"]) boundary
  | .nullLit => seq (word "null") boundary
  | .varRef => .rule .identifier
  | .intLit => .cat (.one isDigit) (.span isDigit)
  | .stringLit => sequence [word "\"", .rule .stringInner, word "\""]
  | .stringInner => .span (· != '"')

/-- Tokens are atomic; the quotes of a string hold its text without skipping blanks. -/
def mode : Rule → RuleMode
  | .keyword | .identifier | .qualifiedName | .getSuffix | .localKw | .thisExpr | .boolLit
  | .nullLit | .intLit | .stringInner => .atomic
  | .stringLit => .compound
  | _ => .normal

/-- The grammar of programs. -/
def grammar : Grammar Rule := ⟨body, mode⟩

end Concrete

end DeltaLang
