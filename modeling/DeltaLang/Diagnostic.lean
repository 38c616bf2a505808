import DeltaLang.Program.Location

/-!
# Findings

Every phase reports findings: a kind, a severity, a message, and possibly the place and the
extension they come from.  A sink of findings is the list of them in the order of reporting.
-/

namespace DeltaLang

inductive Severity where
  | error
  | warning
  | info
deriving DecidableEq, Inhabited, Repr

namespace Severity

def text : Severity → String
  | error => "error"
  | warning => "warning"
  | info => "info"

/-- The place in the order of severities, most severe first. -/
def rank : Severity → Nat
  | error => 0
  | warning => 1
  | info => 2

end Severity

/-- What a finding is about. -/
inductive DiagnosticKind where
  | syntaxError
  | duplicateModule
  | unresolvedName
  | ambiguousName
  | cyclicInheritance
  | duplicateDeclaration
  | removeTargetNotFound
  | modifyTargetNotFound
  | removeMissingMethod
  | duplicateMethod
  | noOriginalMethod
  | cyclicTraitDefinition
  | unknownProduct
  | unknownDelta
  | invalidDeltaOrder
  | cyclicDeltaOrder
  | missingInterfaceMethod
  | unknownType
  | unknownClass
  | unknownVariable
  | unknownMethod
  | unknownField
  | wrongArgumentCount
  | typeMismatch
  | fromExtension
deriving DecidableEq, Inhabited, Repr

namespace DiagnosticKind

/-- Every kind, once, in their order. -/
def all : List DiagnosticKind :=
  [syntaxError, duplicateModule, unresolvedName, ambiguousName, cyclicInheritance,
    duplicateDeclaration, removeTargetNotFound, modifyTargetNotFound, removeMissingMethod,
    duplicateMethod, noOriginalMethod, cyclicTraitDefinition, unknownProduct, unknownDelta,
    invalidDeltaOrder, cyclicDeltaOrder, missingInterfaceMethod, unknownType, unknownClass,
    unknownVariable, unknownMethod, unknownField, wrongArgumentCount, typeMismatch,
    fromExtension]

def text : DiagnosticKind → String
  | syntaxError => "Syntax"
  | duplicateModule => "DuplicateModule"
  | unresolvedName => "UnresolvedName"
  | ambiguousName => "AmbiguousName"
  | cyclicInheritance => "CyclicInheritance"
  | duplicateDeclaration => "DuplicateDeclaration"
  | removeTargetNotFound => "RemoveTargetNotFound"
  | modifyTargetNotFound => "ModifyTargetNotFound"
  | removeMissingMethod => "RemoveMissingMethod"
  | duplicateMethod => "DuplicateMethod"
  | noOriginalMethod => "NoOriginalMethod"
  | cyclicTraitDefinition => "CyclicTraitDefinition"
  | unknownProduct => "UnknownProduct"
  | unknownDelta => "UnknownDelta"
  | invalidDeltaOrder => "InvalidDeltaOrder"
  | cyclicDeltaOrder => "CyclicDeltaOrder"
  | missingInterfaceMethod => "MissingInterfaceMethod"
  | unknownType => "UnknownType"
  | unknownClass => "UnknownClass"
  | unknownVariable => "UnknownVariable"
  | unknownMethod => "UnknownMethod"
  | unknownField => "UnknownField"
  | wrongArgumentCount => "WrongArgumentCount"
  | typeMismatch => "TypeMismatch"
  | fromExtension => "Extension"

/-- The kind of that name, if there is one. -/
def ofText? (s : String) : Option DiagnosticKind := all.find? (fun k => k.text == s)

/-- The place in the order of kinds. -/
def rank (k : DiagnosticKind) : Nat := all.idxOf k

end DiagnosticKind

structure Diagnostic where
  kind : DiagnosticKind
  severity : Severity
  message : String
  loc : Option Location
  /-- The extension that reported the finding, if one did. -/
  origin : Option String
deriving DecidableEq, Inhabited, Repr

namespace Diagnostic

/-- An error found at a place. -/
def errorAt (kind : DiagnosticKind) (message : String) (loc : Option Location) : Diagnostic :=
  ⟨kind, .error, message, loc, none⟩

def isError (d : Diagnostic) : Bool := d.severity == .error

/-- The written form `[place: ]severity[kind][(origin)]: message`. -/
def text (d : Diagnostic) : String :=
  let place := match d.loc with
    | some l => l.text ++ ": "
    | none => ""
  let origin := match d.origin with
    | some name => "(" ++ name ++ ")"
    | none => ""
  place ++ d.severity.text ++ "[" ++ d.kind.text ++ "]" ++ origin ++ ": " ++ d.message

end Diagnostic

/-- Findings in the order of reporting. -/
abbrev Diagnostics := List Diagnostic

namespace Diagnostics

def errors (ds : Diagnostics) : Diagnostics := ds.filter Diagnostic.isError

def errorCount (ds : Diagnostics) : Nat := ds.errors.length

theorem errorCount_append {ds ds' : Diagnostics} :
    (ds ++ ds').errorCount = ds.errorCount + ds'.errorCount := by
  simp only [errorCount, errors, List.filter_append, List.length_append]

def hasErrors (ds : Diagnostics) : Bool := ds.any Diagnostic.isError

theorem hasErrors_append {ds ds' : Diagnostics} :
    (ds ++ ds').hasErrors = (ds.hasErrors || ds'.hasErrors) := List.any_append

theorem hasErrors_flatMap_eq_false_iff {α : Type} {l : List α} {f : α → Diagnostics} :
    hasErrors (l.flatMap f) = false ↔ ∀ a ∈ l, (f a).hasErrors = false := by
  simp [hasErrors]

theorem hasErrors_map_eq_false_iff {α : Type} {l : List α} {f : α → Diagnostic}
    (errors : ∀ a, (f a).isError = true) : hasErrors (l.map f) = false ↔ l = [] := by
  cases l <;> simp [hasErrors, errors]

def ofKind (ds : Diagnostics) (kind : DiagnosticKind) : Diagnostics := ds.filter (·.kind == kind)

/-- Whether a pair of severity and kind comes strictly before another. -/
def labelLt (a b : Severity × DiagnosticKind) : Bool :=
  a.1.rank < b.1.rank || (a.1.rank == b.1.rank && a.2.rank < b.2.rank)

/-- The pairs of severity and kind that occur, each once, in their order. -/
def labels (ds : Diagnostics) : List (Severity × DiagnosticKind) :=
  ((ds.map fun d => (d.severity, d.kind)).mergeSort (fun a b => !labelLt b a)).eraseDups

end Diagnostics

end DeltaLang
