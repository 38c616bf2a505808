import DeltaLang.Names.Lookup

/-!
# Walking along interface extension

An interface extends the interfaces its `extends` clause resolves to without a preferred module;
names that do not resolve are skipped.  Two walks follow these edges and visit each interface
once, so that cycles and shared ancestors do no harm: `interfaceMethods` descends recursively,
`closure` keeps the interfaces still to visit in a list.
-/

namespace DeltaLang

namespace SymbolTable

/-- The interfaces that an interface extends, in the order of its clause. -/
def parents (t : SymbolTable) (i : Entry InterfaceDecl) : List (Entry InterfaceDecl) :=
  i.decl.parents.filterMap fun name => (t.interfaces.resolve none name).toOption

/-! ## Depth first, recursively -/

/-- What a descent has done so far: the interfaces entered and the signatures found. -/
structure Descent where
  visited : List DeclPath
  found : List Signature

/-- Enters `i`, unless that was done before: takes its signatures, then descends into its parents.
The first argument bounds the depth of the descent. -/
def descend (t : SymbolTable) : Nat → Entry InterfaceDecl → Descent → Descent
  | 0, _, st => st
  | depth + 1, i, st =>
    if i.path ∈ st.visited then st
    else
      (t.parents i).foldl (fun st p => descend t depth p st)
        ⟨i.path :: st.visited, st.found ++ i.decl.methods⟩

/-- The deepest a descent can get: each level enters a new interface. -/
def descentDepth (t : SymbolTable) : Nat := t.interfaces.length + 1

/-- The signatures of an interface and of all it extends, its own first. -/
def interfaceMethods (t : SymbolTable) (i : Entry InterfaceDecl) : List Signature :=
  (t.descend t.descentDepth i ⟨[], []⟩).found

/-- The first signature of that name in an interface or in those it extends. -/
def findMethod? (t : SymbolTable) (i : Entry InterfaceDecl) (name : String) : Option Signature :=
  (t.interfaceMethods i).find? (·.name == name)

/-! ## Depth first, with a list of interfaces to visit -/

/-- Visits the interfaces to do, each before those it extends, and adds them to `seen`.  The first
argument bounds the number of steps. -/
def walk (t : SymbolTable) :
    Nat → List (Entry InterfaceDecl) → List (Entry InterfaceDecl) → List (Entry InterfaceDecl)
  | 0, _, seen => seen
  | _, [], seen => seen
  | steps + 1, i :: todo, seen =>
    if seen.any (·.path == i.path) then walk t steps todo seen
    else walk t steps (t.parents i ++ todo) (seen ++ [i])

/-- The most steps a walk can take: one for each root and one for each edge, which is followed
once, when its source is visited. -/
def walkSteps (t : SymbolTable) (roots : List (Entry InterfaceDecl)) : Nat :=
  roots.length + (t.interfaces.flatMap fun i => i.decl.parents).length + 1

/-- The interfaces that can be reached from the roots, each once. -/
def closure (t : SymbolTable) (roots : List (Entry InterfaceDecl)) : List (Entry InterfaceDecl) :=
  t.walk (t.walkSteps roots) roots []

/-- The interfaces a class names, as seen from its module. -/
def implemented (t : SymbolTable) (c : Entry ClassDecl) : List (Entry InterfaceDecl) :=
  c.decl.implements.filterMap fun name => (t.interfaces.resolve (some c.module) name).toOption

/-- The interfaces a class implements, those they extend included. -/
def implementedInterfaces (t : SymbolTable) (c : Entry ClassDecl) : List (Entry InterfaceDecl) :=
  t.closure (t.implemented c)

/-- Whether the interface named `sub` is the one named `sup` or extends it, however far. -/
def isSubinterface (t : SymbolTable) (sub sup : String) : Bool :=
  match t.interfaces.resolve none sub, t.interfaces.resolve none sup with
  | .ok i, .ok target => (t.closure [i]).any (·.path == target.path)
  | _, _ => false

end SymbolTable

end DeltaLang
