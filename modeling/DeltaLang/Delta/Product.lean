import DeltaLang.Delta.Order
import DeltaLang.Diagnostic
import DeltaLang.Names.Lookup

/-!
# Products

A product selects features; the deltas that apply to the selection, in a stable order, derive it.
-/

namespace DeltaLang

/-- What to derive: the product, if it has a name, and the deltas in the order of application. -/
structure ProductConfig where
  product : Option String
  deltas : List String
deriving DecidableEq, Inhabited

/-- Why a product has no list of deltas. -/
inductive ProductError where
  | unknown (name : String)
  | ambiguous (name : String) (reason : LookupError)
  /-- The deltas that cannot be placed. -/
  | cyclicOrder (deltas : List String)
deriving DecidableEq, Inhabited

namespace ProductError

def message : ProductError → String
  | unknown name => "product " ++ name ++ " is not declared"
  | ambiguous name reason => "product " ++ name ++ " is " ++ reason.text
  | cyclicOrder deltas =>
    "delta ordering constraints form a cycle among: " ++ ", ".intercalate deltas

def kind : ProductError → DiagnosticKind
  | unknown _ => .unknownProduct
  | ambiguous _ _ => .ambiguousName
  | cyclicOrder _ => .cyclicDeltaOrder

def diagnostic (e : ProductError) : Diagnostic := .errorAt e.kind e.message none

end ProductError

namespace Model

/-- The deltas that apply to a selection of features, in the order of the model. -/
def selectedDeltas (m : Model) (features : List String) : List DeltaDecl :=
  m.deltas.filter (·.appliesTo features)

/-- The deltas that derive the product of that name. -/
def resolveProduct (m : Model) (name : String) : Except ProductError ProductConfig :=
  match (SymbolTable.ofModel m).products.resolve none name with
  | .error .unresolved => .error (.unknown name)
  | .error reason => .error (.ambiguous name reason)
  | .ok p =>
    let selected := m.selectedDeltas p.decl.features
    match DeltaOrder.order selected with
    | .error cycle => .error (.cyclicOrder cycle)
    | .ok order =>
      .ok ⟨some p.name, order.filterMap fun i => selected[i]?.map DeltaDecl.name⟩

end Model

end DeltaLang
