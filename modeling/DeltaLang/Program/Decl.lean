import DeltaLang.Program.Method

/-!
# Declarations

The five kinds of declarations of a module: interfaces, classes, traits, deltas and products.
They refer to each other by name only.
-/

namespace DeltaLang

/-! ## Interfaces, traits and classes -/

structure InterfaceDecl where
  name : String
  parents : List String
  methods : List Signature
  loc : Option Location
deriving DecidableEq, Inhabited

/-- The trait algebra: references, literal method sets, and the three operators. -/
inductive TraitExpr where
  | ref (name : String) (loc : Option Location)
  | set (methods : List Method)
  | adds (base extra : TraitExpr)
  | modifies (base extra : TraitExpr)
  | removes (base : TraitExpr) (sigs : List Signature)
deriving DecidableEq, Inhabited

/-- A `uses` clause of a class: one operator of the trait algebra, applied to the class. -/
inductive TraitUse where
  | adds (expr : TraitExpr)
  | modifies (expr : TraitExpr)
  | removes (sigs : List Signature)
deriving DecidableEq, Inhabited

structure TraitDecl where
  name : String
  expr : TraitExpr
  loc : Option Location
deriving DecidableEq, Inhabited

structure FieldDecl where
  name : String
  type : TypeUse
  value : Option Expr
  loc : Option Location
deriving DecidableEq, Inhabited

/-- A class.  Its parameters are fields too; `uses` clauses apply in order on top of `methods`. -/
structure ClassDecl where
  name : String
  params : List Param
  fields : List FieldDecl
  init : Option Block
  recover : Option Block
  implements : List String
  uses : List TraitUse
  methods : List Method
  loc : Option Location
deriving DecidableEq, Inhabited

namespace TraitExpr

/-- The names of the traits referred to, from left to right. -/
def references : TraitExpr → List String
  | ref name _ => [name]
  | set _ => []
  | adds base extra | modifies base extra => references base ++ references extra
  | removes base _ => references base

/-- The references with their places, from left to right. -/
def referencesAt : TraitExpr → List (String × Option Location)
  | ref name loc => [(name, loc)]
  | set _ => []
  | adds base extra | modifies base extra => referencesAt base ++ referencesAt extra
  | removes base _ => referencesAt base

theorem references_eq_map (e : TraitExpr) : e.references = e.referencesAt.map Prod.fst := by
  induction e <;> simp_all [references, referencesAt]

end TraitExpr

namespace TraitUse

/-- The trait expression of the clause, if it has one. -/
def expr? : TraitUse → Option TraitExpr
  | adds e | modifies e => some e
  | removes _ => none

/-- The expression that the clause makes of the expression it is applied to. -/
def apply (base : TraitExpr) : TraitUse → TraitExpr
  | adds e => .adds base e
  | modifies e => .modifies base e
  | removes sigs => .removes base sigs

end TraitUse

namespace ClassDecl

def method? (c : ClassDecl) (name : String) : Option Method :=
  c.methods.find? (fun m => m.name == name)

def field? (c : ClassDecl) (name : String) : Option FieldDecl :=
  c.fields.find? (fun f => f.name == name)

def param? (c : ClassDecl) (name : String) : Option Param :=
  c.params.find? (fun p => p.name == name)

/-- The declared type of a field, or else of a parameter, of that name. -/
def fieldType? (c : ClassDecl) (name : String) : Option TypeUse :=
  ((c.field? name).map (·.type)).or ((c.param? name).map (·.type))

/-- The method started when an object of the class is created, if the class has one. -/
def run? (c : ClassDecl) : Option Method := c.method? "run"

/-- The class as a trait expression: its clauses folded over its own methods. -/
def traitExpr (c : ClassDecl) : TraitExpr := c.uses.foldl TraitUse.apply (.set c.methods)

end ClassDecl

/-! ## Deltas and products -/

/-- An application condition over feature names. -/
inductive Condition where
  | feature (name : String)
  | not (c : Condition)
  | and (a b : Condition)
  | or (a b : Condition)
deriving DecidableEq, Inhabited, Repr

/-- Whether the condition holds when exactly the listed features are selected. -/
def Condition.holds (features : List String) : Condition → Bool
  | feature name => features.contains name
  | not c => !holds features c
  | and a b => holds features a && holds features b
  | or a b => holds features a || holds features b

inductive InterfaceOp where
  | addMethod (sig : Signature)
  | removeMethod (sig : Signature)
deriving DecidableEq, Inhabited

structure InterfaceModifier where
  name : String
  ops : List InterfaceOp
  loc : Option Location
deriving DecidableEq, Inhabited

inductive ClassOp where
  | addMethod (m : Method)
  | modifyMethod (m : Method)
  | removeMethod (sig : Signature)
  | addField (f : FieldDecl)
  | removeField (name : String) (loc : Option Location)
  | addUse (u : TraitUse)
deriving DecidableEq, Inhabited

structure ClassModifier where
  name : String
  addImplements : List String
  ops : List ClassOp
  loc : Option Location
deriving DecidableEq, Inhabited

/-- One operation of a delta. -/
inductive DeltaOp where
  | addInterface (i : InterfaceDecl)
  | addClass (c : ClassDecl)
  | addTrait (t : TraitDecl)
  | removeInterface (name : String) (loc : Option Location)
  | removeClass (name : String) (loc : Option Location)
  | removeTrait (name : String) (loc : Option Location)
  | modifyInterface (m : InterfaceModifier)
  | modifyClass (m : ClassModifier)
  /-- Gives an existing trait a new expression. -/
  | modifyTrait (name : String) (expr : TraitExpr) (loc : Option Location)
deriving DecidableEq, Inhabited

/-- A delta: where its additions go, when it applies, what it must follow or precede, and its
operations in order. -/
structure DeltaDecl where
  name : String
  uses : Option String
  after : List String
  before : List String
  condition : Option Condition
  ops : List DeltaOp
  loc : Option Location
deriving DecidableEq, Inhabited

structure ProductDecl where
  name : String
  features : List String
  loc : Option Location
deriving DecidableEq, Inhabited

/-- Whether a delta applies to a selection of features. -/
def DeltaDecl.appliesTo (d : DeltaDecl) (features : List String) : Bool :=
  d.condition.all (·.holds features)

/-! ## Declarations of a module -/

inductive DeclKind where
  | interface
  | «class»
  | trait
  | delta
  | product
deriving DecidableEq, Inhabited, Repr

namespace DeclKind

/-- The word used for the kind in findings. -/
def text : DeclKind → String
  | interface => "interface"
  | «class» => "class"
  | trait => "trait"
  | delta => "delta"
  | product => "product"

end DeclKind

inductive Decl where
  | interface (i : InterfaceDecl)
  | class (c : ClassDecl)
  | trait (t : TraitDecl)
  | delta (d : DeltaDecl)
  | product (p : ProductDecl)
deriving DecidableEq, Inhabited

namespace Decl

def name : Decl → String
  | interface i => i.name
  | «class» c => c.name
  | trait t => t.name
  | delta d => d.name
  | product p => p.name

def kind : Decl → DeclKind
  | interface _ => .interface
  | «class» _ => .class
  | trait _ => .trait
  | delta _ => .delta
  | product _ => .product

def location : Decl → Option Location
  | interface i => i.loc
  | «class» c => c.loc
  | trait t => t.loc
  | delta d => d.loc
  | product p => p.loc

def interface? : Decl → Option InterfaceDecl
  | interface i => some i
  | _ => none

def class? : Decl → Option ClassDecl
  | «class» c => some c
  | _ => none

def trait? : Decl → Option TraitDecl
  | trait t => some t
  | _ => none

def delta? : Decl → Option DeltaDecl
  | delta d => some d
  | _ => none

def product? : Decl → Option ProductDecl
  | product p => some p
  | _ => none

end Decl

end DeltaLang
