import DeltaLang.Grammar.Concrete
import DeltaLang.Program.Model

/-!
# From parse trees to programs

A parse tree of the grammar becomes a compilation unit.  Nodes are read from left to right and the
first fault ends the reading: an integer literal that does not fit into 64 bits, or a class with a
second init or recover block.  Trees of any other shape than the grammar yields are malformed.
-/

namespace DeltaLang

/-- A fault of a text that the grammar accepts. -/
inductive BuildError where
  | integerTooLarge (digits : String)
  | secondInit (cls : String)
  | secondRecover (cls : String)
  /-- The tree is none that the grammar yields. -/
  | malformed
deriving DecidableEq, Inhabited, Repr

namespace BuildError

def message : BuildError → String
  | integerTooLarge digits =>
    "Invalid integer literal " ++ digits ++ ": number too large to fit in target type"
  | secondInit cls => "Class " ++ cls ++ " has more than one init block"
  | secondRecover cls => "Class " ++ cls ++ " has more than one recover block"
  | malformed => "Malformed tree"

end BuildError

/-- The greatest 64-bit integer. -/
def maxInt : Int := 0x7fffffffffffffff

/-- The number written by decimal digits. -/
def natOfDigits (digits : List Char) : Nat :=
  digits.foldl (fun n c => 10 * n + (c.toNat - '0'.toNat)) 0

namespace Elaborate

abbrev Tree := ParseTree Rule

variable (file : Option String)

/-- The location in the file of a position. -/
def locate (pos : Position) : Option Location := some ⟨file, pos.line, pos.column⟩

/-! ## Types and signatures -/

mutual

def typeUse : Tree → Except BuildError TypeUse
  | .node .typeUse _ _ ts => typeParts (.named "") ts
  | _ => .error .malformed

/-- Completes a type with the annotations, the name and the arguments that follow. -/
def typeParts (type : TypeUse) : List Tree → Except BuildError TypeUse
  | [] => .ok type
  | .node .bracketed _ _ [.node .identifier _ a _] :: ts =>
    typeParts { type with annotations := type.annotations ++ [a] } ts
  | .node .qualifiedName _ name _ :: ts => typeParts { type with name := name } ts
  | t :: ts => do
    let arg ← typeUse t
    typeParts { type with args := type.args ++ [arg] } ts

end

def param : Tree → Except BuildError Param
  | .node .param pos _ [t, .node .identifier _ name _] => do
    return ⟨name, ← typeUse t, locate file pos⟩
  | _ => .error .malformed

def signature : Tree → Except BuildError Signature
  | .node .methodSig pos _ (t :: .node .identifier _ name _ :: ps) => do
    let ret ← typeUse t
    return ⟨name, ret, ← ps.mapM (param file), locate file pos⟩
  | _ => .error .malformed

/-- The texts of the nodes: the names of a list of names. -/
def names (ts : List Tree) : List String := ts.map ParseTree.text

/-! ## Expressions -/

def intLiteral (digits : String) : Except BuildError Int :=
  let n := natOfDigits digits.toList
  if (n : Int) ≤ maxInt then .ok n else .error (.integerTooLarge digits)

mutual

def expr : Tree → Except BuildError Expr
  | .node .orExpr pos _ (t :: ts) => do sameOperator .or (locate file pos) (← expr t) ts
  | .node .andExpr pos _ (t :: ts) => do sameOperator .and (locate file pos) (← expr t) ts
  | .node .eqExpr pos _ (t :: ts) => do operators (locate file pos) (← expr t) ts
  | .node .relExpr pos _ (t :: ts) => do operators (locate file pos) (← expr t) ts
  | .node .addExpr pos _ (t :: ts) => do operators (locate file pos) (← expr t) ts
  | .node .mulExpr pos _ (t :: ts) => do operators (locate file pos) (← expr t) ts
  | .node .unaryExpr pos _ ts => unary (locate file pos) ts
  | .node .postfixExpr _ _ (t :: ts) => do suffixes (← expr t) ts
  | .node .newExpr pos _ (.node .localKw _ _ _ :: .node .qualifiedName _ cls _ :: ts) => do
    return .new cls (← exprs ts) true (locate file pos)
  | .node .newExpr pos _ (.node .qualifiedName _ cls _ :: ts) => do
    return .new cls (← exprs ts) false (locate file pos)
  | .node .originalCall pos _ ts => do return .original (← exprs ts) (locate file pos)
  | .node .thisField pos _ [.node .identifier _ name _] => .ok (.field name (locate file pos))
  | .node .thisExpr pos _ _ => .ok (.this (locate file pos))
  | .node .boolLit pos text _ => .ok (.bool (text == "true") (locate file pos))
  | .node .nullLit pos _ _ => .ok (.null (locate file pos))
  | .node .varRef pos _ [.node .identifier _ name _] => .ok (.var name (locate file pos))
  | .node .intLit pos digits _ => do return .int (← intLiteral digits) (locate file pos)
  | .node .stringLit pos _ [.node .stringInner _ text _] => .ok (.str text (locate file pos))
  | _ => .error .malformed

def exprs : List Tree → Except BuildError (List Expr)
  | [] => .ok []
  | t :: ts => do return (← expr t) :: (← exprs ts)

/-- Folds operands to the left with one operator. -/
def sameOperator (op : BinaryOp) (loc : Option Location) (lhs : Expr) :
    List Tree → Except BuildError Expr
  | [] => .ok lhs
  | t :: ts => do sameOperator op loc (.binary op lhs (← expr t) loc) ts

/-- Folds operators, each with its right operand, to the left. -/
def operators (loc : Option Location) (lhs : Expr) : List Tree → Except BuildError Expr
  | [] => .ok lhs
  | .node _ _ symbol _ :: t :: ts =>
    match BinaryOp.ofSymbol? symbol with
    | some op => do operators loc (.binary op lhs (← expr t) loc) ts
    | none => .error .malformed
  | _ => .error .malformed

/-- Applies the unary operators that stand in front of an operand. -/
def unary (loc : Option Location) : List Tree → Except BuildError Expr
  | .node .unaryOp _ symbol _ :: ts => do
    return .unary (if symbol == "!" then .not else .neg) (← unary loc ts) loc
  | [t] => expr t
  | _ => .error .malformed

/-- Applies calls and future reads, from left to right, to what they follow. -/
def suffixes (e : Expr) : List Tree → Except BuildError Expr
  | [] => .ok e
  | .node .syncCall pos _ (.node .identifier _ name _ :: as) :: ts => do
    suffixes (.call e name (← exprs as) false (locate file pos)) ts
  | .node .asyncCall pos _ (.node .identifier _ name _ :: as) :: ts => do
    suffixes (.call e name (← exprs as) true (locate file pos)) ts
  | .node .getSuffix pos _ _ :: ts => suffixes (.get e (locate file pos)) ts
  | _ => .error .malformed

end

/-! ## Statements -/

def target : Tree → Except BuildError Target
  | .node .thisField _ _ [.node .identifier _ name _] => .ok (.field name)
  | .node .varRef _ _ [.node .identifier _ name _] => .ok (.var name)
  | _ => .error .malformed

/-- The value of a declaration, if one is given. -/
def value? : List Tree → Except BuildError (Option Expr)
  | [] => .ok none
  | [t] => do return some (← expr file t)
  | _ => .error .malformed

mutual

def stmt : Tree → Except BuildError Stmt
  | .node .varDecl pos _ (t :: .node .identifier _ name _ :: v) => do
    let type ← typeUse t
    return .decl type name (← value? file v) (locate file pos)
  | .node .assignStmt pos _ [t, v] => do
    let tgt ← target t
    return .assign tgt (← expr file v) (locate file pos)
  | .node .exprStmt pos _ [v] => do return .eval (← expr file v) (locate file pos)
  | .node .returnStmt pos _ [v] => do return .ret (← expr file v) (locate file pos)
  | .node .skipStmt pos _ _ => .ok (.skip (locate file pos))
  | .node .ifStmt pos _ [c, y] => do
    let cond ← expr file c
    return .ite cond (← block y) none (locate file pos)
  | .node .ifStmt pos _ [c, y, n] => do
    let cond ← expr file c
    let yes ← block y
    return .ite cond yes (some (← block n)) (locate file pos)
  | .node .whileStmt pos _ [c, b] => do
    let cond ← expr file c
    return .loop cond (← block b) (locate file pos)
  | _ => .error .malformed

def stmts : List Tree → Except BuildError (List Stmt)
  | [] => .ok []
  | t :: ts => do return (← stmt t) :: (← stmts ts)

def block : Tree → Except BuildError Block
  | .node .block _ _ ts => stmts ts
  | _ => .error .malformed

end

theorem stmt_skipStmt (pos : Position) (text : String) (ts : List Tree) :
    stmt file (.node .skipStmt pos text ts) = .ok (.skip (locate file pos)) := by
  rw [stmt]

/-! ## Declarations -/

def method : Tree → Except BuildError Method
  | .node .methodImpl _ _ [s, b] => do
    let sig ← signature file s
    return .ofVersion ⟨sig, ← block file b⟩
  | _ => .error .malformed

def interface : Tree → Except BuildError InterfaceDecl
  | .node .interfaceDecl pos _ (.node .identifier _ name _ :: .node .extendsClause _ _ ns :: ms) =>
    do return ⟨name, names ns, ← ms.mapM (signature file), locate file pos⟩
  | .node .interfaceDecl pos _ (.node .identifier _ name _ :: ms) => do
    return ⟨name, [], ← ms.mapM (signature file), locate file pos⟩
  | _ => .error .malformed

def sigSet : Tree → Except BuildError (List Signature)
  | .node .sigSet _ _ ts => ts.mapM (signature file)
  | _ => .error .malformed

/-- An operand of the trait algebra. -/
def traitAtom : Tree → Except BuildError TraitExpr
  | .node .methodSet _ _ ts => do return .set (← ts.mapM (method file))
  | .node .traitRef pos _ [.node .qualifiedName _ name _] => .ok (.ref name (locate file pos))
  | _ => .error .malformed

/-- Applies an operator of the trait algebra to what stands left of it. -/
def traitOp (base : TraitExpr) : Tree → Except BuildError TraitExpr
  | .node .traitAdds _ _ [t] => do return .adds base (← traitAtom file t)
  | .node .traitModifies _ _ [t] => do return .modifies base (← traitAtom file t)
  | .node .traitRemoves _ _ [t] => do return .removes base (← sigSet file t)
  | _ => .error .malformed

/-- An operand and the operators after it, which associate to the left. -/
def traitExpr : Tree → Except BuildError TraitExpr
  | .node .traitExpr _ _ (t :: ops) => do ops.foldlM (traitOp file) (← traitAtom file t)
  | _ => .error .malformed

def traitUse : Tree → Except BuildError TraitUse
  | .node .traitUse _ _ [.node .traitUseModifies _ _ [t]] => do
    return .modifies (← traitExpr file t)
  | .node .traitUse _ _ [.node .traitUseRemoves _ _ [t]] => do return .removes (← sigSet file t)
  | .node .traitUse _ _ [t] => do return .adds (← traitExpr file t)
  | _ => .error .malformed

def trait : Tree → Except BuildError TraitDecl
  | .node .traitDecl pos _ [.node .identifier _ name _, t] => do
    return ⟨name, ← traitExpr file t, locate file pos⟩
  | _ => .error .malformed

def field : Tree → Except BuildError FieldDecl
  | .node .fieldDecl pos _ (t :: .node .identifier _ name _ :: v) => do
    let type ← typeUse t
    return ⟨name, type, ← value? file v, locate file pos⟩
  | _ => .error .malformed

/-- Adds a clause or member to a class. -/
def classPart (c : ClassDecl) : Tree → Except BuildError ClassDecl
  | .node .classParams _ _ ts => do return { c with params := ← ts.mapM (param file) }
  | .node .implementsClause _ _ ns => .ok { c with implements := names ns }
  | .node .initBlock _ _ [b] =>
    if c.init.isSome then .error (.secondInit c.name)
    else do return { c with init := some (← block file b) }
  | .node .recoverBlock _ _ [b] =>
    if c.recover.isSome then .error (.secondRecover c.name)
    else do return { c with recover := some (← block file b) }
  | t@(.node .traitUse ..) => do return { c with uses := c.uses ++ [← traitUse file t] }
  | t@(.node .methodImpl ..) => do return { c with methods := c.methods ++ [← method file t] }
  | t@(.node .fieldDecl ..) => do return { c with fields := c.fields ++ [← field file t] }
  | _ => .error .malformed

def cls : Tree → Except BuildError ClassDecl
  | .node .classDecl pos _ (.node .identifier _ name _ :: ts) =>
    ts.foldlM (classPart file) ⟨name, [], [], none, none, [], [], [], locate file pos⟩
  | _ => .error .malformed

def product : Tree → Except BuildError ProductDecl
  | .node .productDecl pos _ (.node .identifier _ name _ :: ns) =>
    .ok ⟨name, names ns, locate file pos⟩
  | _ => .error .malformed

/-! ## Deltas -/

mutual

def condition : Tree → Except BuildError Condition
  | .node .appCond _ _ (t :: ts) => do conditions .or (← condition t) ts
  | .node .appAnd _ _ (t :: ts) => do conditions .and (← condition t) ts
  | .node .appNot _ _ [t] => do return .not (← condition t)
  | .node .appFeature _ _ [.node .identifier _ name _] => .ok (.feature name)
  | _ => .error .malformed

/-- Folds conditions to the left. -/
def conditions (join : Condition → Condition → Condition) (lhs : Condition) :
    List Tree → Except BuildError Condition
  | [] => .ok lhs
  | t :: ts => do conditions join (join lhs (← condition t)) ts

end

def interfaceOp : Tree → Except BuildError InterfaceOp
  | .node .interfaceAdds _ _ [s] => do return .addMethod (← signature file s)
  | .node .interfaceRemoves _ _ [s] => do return .removeMethod (← signature file s)
  | _ => .error .malformed

/-- Adds a clause or operation to a class modifier. -/
def classModifierPart (m : ClassModifier) : Tree → Except BuildError ClassModifier
  | .node .addedInterfaces _ _ ns => .ok { m with addImplements := m.addImplements ++ names ns }
  | .node .classAdds _ _ [t@(.node .methodImpl ..)] => do add (.addMethod (← method file t))
  | .node .classAdds _ _ [t@(.node .fieldDecl ..)] => do add (.addField (← field file t))
  | .node .classModifies _ _ [t] => do add (.modifyMethod (← method file t))
  | .node .classRemoves _ _ [.node .removedMethod _ _ [s]] => do
    add (.removeMethod (← signature file s))
  | .node .classRemoves _ _ [.node .removedField pos _ [_, .node .identifier _ name _]] =>
    add (.removeField name (locate file pos))
  | t@(.node .traitUse ..) => do add (.addUse (← traitUse file t))
  | _ => .error .malformed
where
  add (op : ClassOp) : Except BuildError ClassModifier := .ok { m with ops := m.ops ++ [op] }

/-- Adds a clause or operation to a delta. -/
def deltaPart (d : DeltaDecl) : Tree → Except BuildError DeltaDecl
  | .node .deltaAfter _ _ ns => .ok { d with after := d.after ++ names ns }
  | .node .deltaBefore _ _ ns => .ok { d with before := d.before ++ names ns }
  | .node .deltaWhen _ _ [c] => do return { d with condition := some (← condition c) }
  | .node .deltaUses _ _ [.node .qualifiedName _ name _] => .ok { d with uses := some name }
  | .node .deltaAdds _ _ [t@(.node .interfaceDecl ..)] => do
    add (.addInterface (← interface file t))
  | .node .deltaAdds _ _ [t@(.node .classDecl ..)] => do add (.addClass (← cls file t))
  | .node .deltaAdds _ _ [t@(.node .traitDecl ..)] => do add (.addTrait (← trait file t))
  | .node .deltaRemoves _ _ [.node .removesClass pos _ [.node .qualifiedName _ name _]] =>
    add (.removeClass name (locate file pos))
  | .node .deltaRemoves _ _ [.node .removesInterface pos _ [.node .qualifiedName _ name _]] =>
    add (.removeInterface name (locate file pos))
  | .node .deltaRemoves _ _ [.node .removesTrait pos _ [.node .qualifiedName _ name _]] =>
    add (.removeTrait name (locate file pos))
  | .node .modifiesClass pos _ (.node .qualifiedName _ name _ :: ts) => do
    add (.modifyClass (← ts.foldlM (classModifierPart file) ⟨name, [], [], locate file pos⟩))
  | .node .modifiesInterface pos _ (.node .qualifiedName _ name _ :: ts) => do
    add (.modifyInterface ⟨name, ← ts.mapM (interfaceOp file), locate file pos⟩)
  | .node .modifiesTrait pos _ [.node .qualifiedName _ name _, t] => do
    add (.modifyTrait name (← traitExpr file t) (locate file pos))
  | _ => .error .malformed
where
  add (op : DeltaOp) : Except BuildError DeltaDecl := .ok { d with ops := d.ops ++ [op] }

def delta : Tree → Except BuildError DeltaDecl
  | .node .deltaDecl pos _ (.node .identifier _ name _ :: ts) =>
    ts.foldlM (deltaPart file) ⟨name, none, [], [], none, [], locate file pos⟩
  | _ => .error .malformed

/-! ## Modules and units -/

def decl : Tree → Except BuildError Decl
  | t@(.node .interfaceDecl ..) => do return .interface (← interface file t)
  | t@(.node .classDecl ..) => do return .class (← cls file t)
  | t@(.node .traitDecl ..) => do return .trait (← trait file t)
  | t@(.node .deltaDecl ..) => do return .delta (← delta file t)
  | t@(.node .productDecl ..) => do return .product (← product file t)
  | _ => .error .malformed

/-- A module of the unit; the end of the text yields none. -/
def module? : Tree → Except BuildError (Option Module)
  | .node .moduleDecl pos _ (.node .qualifiedName _ name _ :: ds) => do
    return some ⟨name, ← ds.mapM (decl file), locate file pos⟩
  | .node .endOfInput _ _ _ => .ok none
  | _ => .error .malformed

def unit : Tree → Except BuildError CompilationUnit
  | .node .unit _ _ ts => do return ⟨file, ← ts.filterMapM (module? file)⟩
  | _ => .error .malformed

end Elaborate

end DeltaLang
