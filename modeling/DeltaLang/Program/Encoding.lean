import DeltaLang.Program.Model
import DeltaLang.Text.Json

/-!
# Programs as JSON

The form in which a program tree is dumped: records are objects, choices without contents are
strings, and a choice with contents is an object whose one key names it.  The earlier versions of
a method are nested, each within the one that replaced it.
-/

namespace DeltaLang

namespace Json

/-- A choice with one content. -/
def tagged (tag : String) (content : Json) : Json := obj [(tag, content)]

/-- A list of names. -/
def strings (names : List String) : Json := ofList str names

end Json

open Json

def Location.toJson (l : Location) : Json :=
  obj [("file", ofOption str l.file), ("line", nat l.line), ("column", nat l.column)]

/-- The location of a node, or null. -/
def locationJson (l : Option Location) : Json := ofOption Location.toJson l

namespace TypeUse

mutual

def toJson : TypeUse → Json
  | ⟨name, args, annotations⟩ =>
    obj [("name", str name), ("args", arr (toJsons args)), ("annotations", strings annotations)]

def toJsons : List TypeUse → List Json
  | [] => []
  | t :: ts => toJson t :: toJsons ts

end

end TypeUse

namespace UnaryOp

def tag : UnaryOp → String
  | not => "Not"
  | neg => "Neg"

end UnaryOp

namespace BinaryOp

def tag : BinaryOp → String
  | and => "And"
  | or => "Or"
  | eq => "Eq"
  | ne => "Ne"
  | lt => "Lt"
  | le => "Le"
  | gt => "Gt"
  | ge => "Ge"
  | add => "Add"
  | sub => "Sub"
  | mul => "Mul"
  | div => "Div"
  | mod => "Mod"

end BinaryOp

namespace Expr

/-- The name of the form of the expression. -/
def tag : Expr → String
  | bool .. => "Bool"
  | int .. => "Int"
  | str .. => "Str"
  | null .. => "Null"
  | this .. => "This"
  | var .. => "Var"
  | field .. => "Field"
  | unary .. => "Unary"
  | binary .. => "Binary"
  | call .. => "Call"
  | get .. => "Get"
  | new .. => "New"
  | original .. => "Original"

/-- An expression of a form, given the form's contents, at a place. -/
def kindJson (kind : Json) (loc : Option Location) : Json :=
  obj [("kind", kind), ("location", locationJson loc)]

mutual

def toJson : Expr → Json
  | bool b loc => kindJson (tagged "Bool" (.bool b)) loc
  | int n loc => kindJson (tagged "Int" (.int n)) loc
  | str s loc => kindJson (tagged "Str" (.str s)) loc
  | null loc => kindJson (.str "Null") loc
  | this loc => kindJson (.str "This") loc
  | var name loc => kindJson (tagged "Var" (.str name)) loc
  | field name loc => kindJson (tagged "Field" (.str name)) loc
  | unary op e loc =>
    kindJson (tagged "Unary" (obj [("op", .str op.tag), ("operand", toJson e)])) loc
  | binary op l r loc =>
    kindJson (tagged "Binary" (obj [("op", .str op.tag), ("lhs", toJson l), ("rhs", toJson r)]))
      loc
  | call t m as async loc =>
    kindJson (tagged "Call" (obj [("target", toJson t), ("method", .str m),
      ("args", arr (toJsons as)), ("asynchronous", .bool async)])) loc
  | get e loc => kindJson (tagged "Get" (toJson e)) loc
  | new c as isLocal loc =>
    kindJson (tagged "New" (obj [("class", .str c), ("args", arr (toJsons as)),
      ("local", .bool isLocal)])) loc
  | original as loc => kindJson (tagged "Original" (arr (toJsons as))) loc

def toJsons : List Expr → List Json
  | [] => []
  | e :: es => toJson e :: toJsons es

end

end Expr

def Target.toJson : Target → Json
  | .var name => tagged "Var" (str name)
  | .field name => tagged "Field" (str name)

namespace Stmt

/-- The name of the form of the statement. -/
def tag : Stmt → String
  | skip .. => "Skip"
  | ret .. => "Return"
  | decl .. => "VarDecl"
  | assign .. => "Assign"
  | ite .. => "If"
  | loop .. => "While"
  | eval .. => "Expr"

/-- A block, given its statements. -/
def blockJson (stmts : List Json) : Json := obj [("stmts", arr stmts)]

mutual

def toJson : Stmt → Json
  | skip loc => Expr.kindJson (str "Skip") loc
  | ret e loc => Expr.kindJson (tagged "Return" e.toJson) loc
  | decl t n e loc =>
    Expr.kindJson (tagged "VarDecl" (obj [("ty", t.toJson), ("name", str n),
      ("init", ofOption Expr.toJson e)])) loc
  | assign t e loc =>
    Expr.kindJson (tagged "Assign" (obj [("target", t.toJson), ("value", e.toJson)])) loc
  | ite c y none loc =>
    Expr.kindJson (tagged "If" (obj [("cond", c.toJson), ("then", blockJson (toJsons y)),
      ("otherwise", null)])) loc
  | ite c y (some n) loc =>
    Expr.kindJson (tagged "If" (obj [("cond", c.toJson), ("then", blockJson (toJsons y)),
      ("otherwise", blockJson (toJsons n))])) loc
  | loop c b loc =>
    Expr.kindJson (tagged "While" (obj [("cond", c.toJson), ("body", blockJson (toJsons b))])) loc
  | eval e loc => Expr.kindJson (tagged "Expr" e.toJson) loc

def toJsons : List Stmt → List Json
  | [] => []
  | s :: ss => toJson s :: toJsons ss

end

end Stmt

def Block.toJson (b : Block) : Json := Stmt.blockJson (Stmt.toJsons b)

def Param.toJson (p : Param) : Json :=
  obj [("name", str p.name), ("ty", p.type.toJson), ("location", locationJson p.loc)]

def Signature.toJson (s : Signature) : Json :=
  obj [("name", str s.name), ("return_type", s.ret.toJson),
    ("params", ofList Param.toJson s.params), ("location", locationJson s.loc)]

/-- A version with those before it nested within. -/
def Version.toJson (v : Version) (earlier : Json) : Json :=
  obj [("sig", v.sig.toJson), ("body", v.body.toJson), ("original", earlier)]

def Method.toJson (m : Method) : Json := m.versions.foldr Version.toJson null

def FieldDecl.toJson (f : FieldDecl) : Json :=
  obj [("name", str f.name), ("ty", f.type.toJson), ("init", ofOption Expr.toJson f.value),
    ("location", locationJson f.loc)]

def InterfaceDecl.toJson (i : InterfaceDecl) : Json :=
  obj [("name", str i.name), ("extends", strings i.parents),
    ("methods", ofList Signature.toJson i.methods), ("location", locationJson i.loc)]

namespace TraitExpr

/-- The name of the form of the trait expression. -/
def tag : TraitExpr → String
  | ref .. => "Ref"
  | set .. => "Set"
  | adds .. => "Adds"
  | modifies .. => "Modifies"
  | removes .. => "Removes"

def toJson : TraitExpr → Json
  | ref name loc => tagged "Ref" (obj [("name", str name), ("location", locationJson loc)])
  | set ms => tagged "Set" (ofList Method.toJson ms)
  | adds base extra => tagged "Adds" (arr [toJson base, toJson extra])
  | modifies base extra => tagged "Modifies" (arr [toJson base, toJson extra])
  | removes base sigs => tagged "Removes" (arr [toJson base, ofList Signature.toJson sigs])

end TraitExpr

namespace TraitUse

/-- The name of the operator of the clause. -/
def tag : TraitUse → String
  | adds .. => "Adds"
  | modifies .. => "Modifies"
  | removes .. => "Removes"

def toJson : TraitUse → Json
  | adds e => tagged "Adds" e.toJson
  | modifies e => tagged "Modifies" e.toJson
  | removes sigs => tagged "Removes" (ofList Signature.toJson sigs)

end TraitUse

def TraitDecl.toJson (t : TraitDecl) : Json :=
  obj [("name", str t.name), ("expr", t.expr.toJson), ("location", locationJson t.loc)]

def ClassDecl.toJson (c : ClassDecl) : Json :=
  obj [("name", str c.name), ("params", ofList Param.toJson c.params),
    ("fields", ofList FieldDecl.toJson c.fields), ("init", ofOption Block.toJson c.init),
    ("recover", ofOption Block.toJson c.recover), ("implements", strings c.implements),
    ("trait_uses", ofList TraitUse.toJson c.uses), ("methods", ofList Method.toJson c.methods),
    ("location", locationJson c.loc)]

def Condition.toJson : Condition → Json
  | .feature name => tagged "Feature" (str name)
  | .not c => tagged "Not" c.toJson
  | .and a b => tagged "And" (arr [a.toJson, b.toJson])
  | .or a b => tagged "Or" (arr [a.toJson, b.toJson])

def InterfaceOp.toJson : InterfaceOp → Json
  | .addMethod sig => tagged "AddMethod" sig.toJson
  | .removeMethod sig => tagged "RemoveMethod" sig.toJson

def InterfaceModifier.toJson (m : InterfaceModifier) : Json :=
  obj [("name", str m.name), ("ops", ofList InterfaceOp.toJson m.ops),
    ("location", locationJson m.loc)]

def ClassOp.toJson : ClassOp → Json
  | .addMethod m => tagged "AddMethod" m.toJson
  | .modifyMethod m => tagged "ModifyMethod" m.toJson
  | .removeMethod sig => tagged "RemoveMethod" sig.toJson
  | .addField f => tagged "AddField" f.toJson
  | .removeField name loc =>
    tagged "RemoveField" (obj [("name", str name), ("location", locationJson loc)])
  | .addUse u => tagged "AddTraitUse" u.toJson

def ClassModifier.toJson (m : ClassModifier) : Json :=
  obj [("name", str m.name), ("add_implements", strings m.addImplements),
    ("ops", ofList ClassOp.toJson m.ops), ("location", locationJson m.loc)]

namespace DeltaOp

/-- The name of the kind of operation. -/
def tag : DeltaOp → String
  | addInterface .. => "AddInterface"
  | addClass .. => "AddClass"
  | addTrait .. => "AddTrait"
  | removeInterface .. => "RemoveInterface"
  | removeClass .. => "RemoveClass"
  | removeTrait .. => "RemoveTrait"
  | modifyInterface .. => "ModifyInterface"
  | modifyClass .. => "ModifyClass"
  | modifyTrait .. => "ModifyTrait"

/-- What the operation is about. -/
def content : DeltaOp → Json
  | addInterface i => i.toJson
  | addClass c => c.toJson
  | addTrait t => t.toJson
  | removeInterface name loc | removeClass name loc | removeTrait name loc =>
    obj [("name", str name), ("location", locationJson loc)]
  | modifyInterface m => m.toJson
  | modifyClass m => m.toJson
  | modifyTrait name expr loc =>
    obj [("name", str name), ("expr", expr.toJson), ("location", locationJson loc)]

def toJson (op : DeltaOp) : Json := tagged op.tag op.content

end DeltaOp

def DeltaDecl.toJson (d : DeltaDecl) : Json :=
  obj [("name", str d.name), ("uses", ofOption str d.uses), ("after", strings d.after),
    ("before", strings d.before), ("condition", ofOption Condition.toJson d.condition),
    ("ops", ofList DeltaOp.toJson d.ops), ("location", locationJson d.loc)]

def ProductDecl.toJson (p : ProductDecl) : Json :=
  obj [("name", str p.name), ("features", strings p.features), ("location", locationJson p.loc)]

def Decl.toJson : Decl → Json
  | .interface i => tagged "Interface" i.toJson
  | .class c => tagged "Class" c.toJson
  | .trait t => tagged "Trait" t.toJson
  | .delta d => tagged "Delta" d.toJson
  | .product p => tagged "Product" p.toJson

def Module.toJson (m : Module) : Json :=
  obj [("name", str m.name), ("decls", ofList Decl.toJson m.decls),
    ("location", locationJson m.loc)]

def CompilationUnit.toJson (u : CompilationUnit) : Json :=
  obj [("file", ofOption str u.file), ("modules", ofList Module.toJson u.modules)]

def Model.toJson (m : Model) : Json := obj [("units", ofList CompilationUnit.toJson m.units)]

end DeltaLang
