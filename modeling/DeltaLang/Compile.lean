import DeltaLang.Check.Model
import DeltaLang.Delta.Flatten
import DeltaLang.Library
import DeltaLang.Location.Infer

/-!
# From source texts to a checked product

All phases in order: reading the texts, checking the model, finding the deltas of the product,
applying them, composing classes, and type checking.  A phase with errors is the last one.
-/

namespace DeltaLang

/-- A source text, and the file it comes from if it comes from one. -/
structure SourceText where
  file : Option String
  text : String
deriving DecidableEq, Inhabited

structure CompileOptions where
  /-- The product to derive; without one no delta is applied. -/
  product : Option String
  typeCheck : Bool
  /-- Whether the standard library is part of the program. -/
  standardLibrary : Bool
  /-- The options of the inference of location types, if it is wanted. -/
  locationTypes : Option LocationOptions
deriving DecidableEq

instance : Inhabited CompileOptions := ⟨⟨none, true, true, none⟩⟩

inductive Phase where
  | parse
  | semantic
  | productLine
  | flatten
  | composition
deriving DecidableEq, Inhabited, Repr

/-- The result of all phases up to the last one. -/
structure Compilation where
  /-- The derived product, once it was derived. -/
  model : Option Model
  product : Option ProductConfig
  annotations : Annotations
  findings : Diagnostics
  /-- The phase whose errors ended the compilation. -/
  stoppedAfter : Option Phase

namespace Compilation

def succeeded (c : Compilation) : Bool := c.stoppedAfter.isNone && !c.findings.hasErrors

/-- A compilation that ended with a phase before a product was derived. -/
def stopped (phase : Phase) (product : Option ProductConfig) (findings : Diagnostics) :
    Compilation :=
  ⟨none, product, .empty, findings, some phase⟩

end Compilation

/-- Why there is no compilation at all. -/
inductive CompileError where
  | registration (e : ExtensionError)
  | configuration (e : ConfigurationError)
deriving DecidableEq, Inhabited

namespace CompileError

def message : CompileError → String
  | registration e => e.message
  | configuration e => e.message

/-- What lies behind the error, if it is not the error itself. -/
def cause : CompileError → Option String
  | registration _ => none
  | configuration e => some e.reason.message

end CompileError

/-- The finding that a text cannot be read. -/
def ParseError.diagnostic (e : ParseError) : Diagnostic :=
  .errorAt .syntaxError e.message e.location

/-- The units of a program, and the findings about texts that cannot be read. -/
def readUnits (sources : List SourceText) (standardLibrary : Bool) :
    List CompilationUnit × Diagnostics :=
  let library := if standardLibrary then [standardUnit] else []
  let results := library ++ sources.map fun s => parseUnit s.file s.text
  (results.filterMap Except.toOption,
    results.filterMap fun
      | .error e => some e.diagnostic
      | .ok _ => none)

/-- The phases before type checking: the derived product, or the phase that ended with errors. -/
def derive (sources : List SourceText) (options : CompileOptions) : Compilation :=
  let (units, syntaxErrors) := readUnits sources options.standardLibrary
  if syntaxErrors.hasErrors then .stopped .parse none syntaxErrors
  else
    let model : Model := ⟨units⟩
    let findings := syntaxErrors ++ checkModel model
    if findings.hasErrors then .stopped .semantic none findings
    else
      let config := match options.product with
        | some name => model.resolveProduct name
        | none => .ok ⟨none, []⟩
      match config with
      | .error e => .stopped .productLine none (findings ++ [e.diagnostic])
      | .ok config =>
        match model.flatten config with
        | .error e => .stopped .flatten (some config) (findings ++ e.findings)
        | .ok f =>
          let phase := if f.findings.hasErrors then some .composition else none
          ⟨some f.model, some config, .empty, findings ++ f.findings, phase⟩

section

variable {σ : Type}

/-- The extensions to run: those given, and the inference of location types if it is wanted. -/
def extensionsFor (options : CompileOptions) (registry : Registry σ) :
    Except ExtensionError (Registry (LocationState ⊕ σ)) :=
  let given : Registry (LocationState ⊕ σ) := registry.map fun e => e.embed .inr Sum.getRight?
  match options.locationTypes with
  | some l => given.register ((locationExtension l).embed .inl Sum.getLeft?)
  | none => .ok given

/-- Compiles source texts while the given extensions look on, and tells the extensions as they
are afterwards. -/
def compileWith (sources : List SourceText) (options : CompileOptions) (registry : Registry σ) :
    Except CompileError Compilation × Registry (LocationState ⊕ σ) :=
  let untouched := registry.map fun e => e.embed .inr Sum.getRight?
  let derived := derive sources options
  match derived.model, derived.stoppedAfter, options.typeCheck with
  | some model, none, true =>
    match extensionsFor options registry with
    | .error e => (.error (.registration e), untouched)
    | .ok extensions =>
      match typeCheck model extensions with
      | (.error e, extensions) => (.error (.configuration e), extensions)
      | (.ok checked, extensions) =>
        (.ok { derived with
          findings := derived.findings ++ checked.findings
          annotations := checked.annotations }, extensions)
  | _, _, _ => (.ok derived, untouched)

/-- Compiles source texts. -/
def compile (sources : List SourceText) (options : CompileOptions) :
    Except CompileError Compilation :=
  (compileWith sources options ([] : Registry Unit)).1

end

end DeltaLang
