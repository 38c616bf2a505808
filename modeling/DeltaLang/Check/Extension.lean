import DeltaLang.Diagnostic
import DeltaLang.Names.Interfaces

/-!
# Interface extension

Extension of interfaces must be acyclic: a depth-first search reports each cycle at the interface
where it closes.  The signatures of an interface, those it inherits included, must have different
names.
-/

namespace DeltaLang

namespace Check

/-! ## Cycles -/

/-- What the search for cycles has done: the interfaces it is finished with, and its findings. -/
structure CycleSearch where
  finished : List DeclPath
  findings : Diagnostics

/-- The names along a cycle: those of the path from `p` on, and that of `p` again. -/
def cycleNames (path : List (Entry InterfaceDecl)) (p : Entry InterfaceDecl) : List String :=
  (path.dropWhile (·.path ≠ p.path)).map (·.name) ++ [p.name]

/-- Searches from `i`, which is not finished and not on the path to it.  The first argument bounds
the depth of the search. -/
def searchFrom (t : SymbolTable) :
    Nat → List (Entry InterfaceDecl) → Entry InterfaceDecl → CycleSearch → CycleSearch
  | 0, _, _, st => st
  | depth + 1, above, i, st =>
    let path := above ++ [i]
    let st := (t.parents i).foldl (fun st p =>
      if path.any (·.path == p.path) then
        { st with
          findings := st.findings ++ [.errorAt .cyclicInheritance
            ("interface extension is cyclic: " ++ " -> ".intercalate (cycleNames path p))
            i.decl.loc] }
      else if p.path ∈ st.finished then st
      else searchFrom t depth path p st) st
    { st with finished := i.path :: st.finished }

/-- The cycles of interface extension. -/
def interfaceCycles (t : SymbolTable) : Diagnostics :=
  (t.interfaces.foldl (fun st i =>
    if i.path ∈ st.finished then st else searchFrom t (t.interfaces.length + 1) [] i st)
    ⟨[], []⟩).findings

/-! ## Signatures -/

/-- The names that several signatures of an interface share, in ascending order. -/
def interfaceSignatures (t : SymbolTable) (i : Entry InterfaceDecl) : Diagnostics :=
  let names := (t.interfaceMethods i).map Signature.name
  (sortNames names).filterMap fun name =>
    let count := names.count name
    if 1 < count then
      some (.errorAt .duplicateMethod
        ("interface " ++ i.name ++ " has " ++ toString count ++ " signatures named " ++ name)
        i.decl.loc)
    else none

end Check

end DeltaLang
