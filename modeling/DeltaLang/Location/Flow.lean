import DeltaLang.Location.Lattice
import DeltaLang.Program.Location
import DeltaLang.Typing.Context

/-!
# Flows between declarations

A value flows into every declaration it is stored in.  Its location may hang on declarations that
are not solved yet, so it is a term over them.  Solving finds the least location types, for the
declarations that are not annotated, that admit all that flows into them; what nothing flows into
has the default type.
-/

namespace DeltaLang

/-- The location of a value. -/
inductive LocationTerm where
  | const (t : LocationType)
  /-- That of what a declaration holds. -/
  | var (node : NodeRef)
  /-- That of a value declared as the given type on the object at the receiver. -/
  | adapt (receiver : LocationTerm) (declared : LocationType)
deriving DecidableEq, Inhabited, Repr

/-- A declaration that holds references: its annotation, and the rank of its storage. -/
structure LocationDecl where
  fixed : Option LocationType
  rank : Nat
deriving DecidableEq, Inhabited, Repr

/-- A value stored into a declaration at a place. -/
structure Flow where
  value : LocationTerm
  target : NodeRef
  loc : Option Location
deriving DecidableEq, Inhabited, Repr

/-- Location types of declarations. -/
abbrev Valuation := List (NodeRef × LocationType)

/-- Declarations, of which each node has one, and the flows between them. -/
structure FlowSystem where
  options : LocationOptions
  decls : List (NodeRef × LocationDecl)
  flows : List Flow
deriving Inhabited

namespace FlowSystem

variable (s : FlowSystem)

/-- The type a declaration is annotated with. -/
def fixed? (node : NodeRef) : Option LocationType := (s.decls.lookup node).bind (·.fixed)

/-- The location type of a term, given those of the declarations. -/
def eval (values : Valuation) : LocationTerm → LocationType
  | .const t => t
  | .var node =>
    match s.fixed? node with
    | some t => t
    | none => (values.lookup node).getD .bottom
  | .adapt receiver declared => (eval values receiver).adapt declared

/-- Where solving starts: bottom for what something flows into, and the default elsewhere. -/
def start : Valuation :=
  (s.decls.filter fun (_, d) => d.fixed.isNone).map fun (node, _) =>
    (node, if s.flows.any (·.target == node) then .bottom else s.options.default)

/-- Gives a node another type. -/
def assign (values : Valuation) (node : NodeRef) (t : LocationType) : Valuation :=
  values.map fun (n, old) => (n, if n = node then t else old)

/-- Lets one flow take effect: the target, unless it is annotated, admits the value too. -/
def flowOnce (values : Valuation) (f : Flow) : Valuation :=
  match s.decls.lookup f.target with
  | some ⟨none, rank⟩ =>
    let incoming := (s.eval values f.value).widen rank s.options.precision
    assign values f.target (((values.lookup f.target).getD .bottom).join incoming)
  | _ => values

/-- Lets every flow take effect once, in order. -/
def round (values : Valuation) : Valuation := s.flows.foldl s.flowOnce values

/-- Repeats rounds until one changes nothing.  The first argument bounds how often. -/
def iterate : Nat → Valuation → Valuation
  | 0, values => values
  | n + 1, values =>
    let next := s.round values
    if next = values then values else iterate n next

/-- The most rounds that can change something, and one more: each raises the type of a
declaration, which can rise three times. -/
def rounds : Nat := 3 * s.decls.length + 1

/-- The least solution. -/
def solve : Valuation := s.iterate s.rounds s.start

end FlowSystem

end DeltaLang
