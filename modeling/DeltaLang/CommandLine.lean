import DeltaLang.Compile
import DeltaLang.FileTree
import DeltaLang.Program.Encoding

/-!
# The command line

The program compiles the files it is given, or its standard input, and prints the findings.  Here
is what the arguments mean and what the program answers; how files are read is left to a function,
so that nothing here depends on a file system.  `runOn` reads them from a tree held as data.

Usage: `abs [options] [files]`.
-/

namespace DeltaLang

namespace CommandLine

/-! ## Arguments -/

/-- An option that is given or not. -/
inductive Switch where
  | noTypeCheck
  | noLibrary
  | locationTypes
  | statistics
  | dump
  | verbose
deriving DecidableEq, Inhabited, Repr

/-- An option with a value. -/
inductive Setting where
  | product
  | default
  | scope
deriving DecidableEq, Inhabited, Repr

/-- What a long option, which is written after two dashes, means. -/
inductive LongOption where
  | switch (s : Switch)
  | setting (s : Setting)
  | help
  | version
deriving DecidableEq, Inhabited, Repr

def longOptions : List (String × LongOption) :=
  [("product", .setting .product), ("no-typecheck", .switch .noTypeCheck),
    ("no-stdlib", .switch .noLibrary), ("loctypes", .switch .locationTypes),
    ("locdefault", .setting .default), ("locscope", .setting .scope),
    ("loctypestats", .switch .statistics), ("dump", .switch .dump),
    ("verbose", .switch .verbose), ("help", .help), ("version", .version)]

/-- The options and files given so far. -/
structure Given where
  switches : List Switch
  settings : List (Setting × String)
  files : List String
deriving Inhabited

/-- Why the arguments cannot be understood. -/
inductive UsageError where
  | unknownOption (text : String)
  | repeatedOption (name : String)
  | missingValue (name : String)
  | unexpectedValue (name : String)
  | invalidValue (name : String) (reason : OptionError)
  /-- An option about location types, without the option that asks for them. -/
  | withoutLocationTypes
deriving DecidableEq, Inhabited, Repr

def UsageError.message : UsageError → String
  | unknownOption text => "unexpected argument " ++ text
  | repeatedOption name => "the option --" ++ name ++ " cannot be given twice"
  | missingValue name => "the option --" ++ name ++ " needs a value"
  | unexpectedValue name => "the option --" ++ name ++ " has no value"
  | invalidValue name reason => "the option --" ++ name ++ ": " ++ reason.message
  | withoutLocationTypes => "--locdefault, --locscope and --loctypestats need --loctypes"

/-- What is left to do with arguments that are understood. -/
inductive Request where
  | compile (given : Given)
  | help
  | version
deriving Inhabited

namespace Given

def empty : Given := ⟨[], [], []⟩

def addSwitch (g : Given) (name : String) (s : Switch) : Except UsageError Given :=
  if s ∈ g.switches then .error (.repeatedOption name)
  else .ok { g with switches := g.switches ++ [s] }

/-- The finding, if any, that a value does not suit an option. -/
def valueError? : Setting → String → Option OptionError
  | .product, _ => none
  | .default, value =>
    match LocationType.parse value with
    | .ok _ => none
    | .error e => some e
  | .scope, value =>
    match Precision.parse value with
    | .ok _ => none
    | .error e => some e

def addSetting (g : Given) (name : String) (s : Setting) (value : String) :
    Except UsageError Given :=
  match g.settings.lookup s, valueError? s value with
  | some _, _ => .error (.repeatedOption name)
  | none, some e => .error (.invalidValue name e)
  | none, none => .ok { g with settings := g.settings ++ [(s, value)] }

def addFiles (g : Given) (files : List String) : Given := { g with files := g.files ++ files }

/-- The request to compile, if the options go together. -/
def request (g : Given) : Except UsageError Request :=
  let about := (g.settings.lookup .default).isSome || (g.settings.lookup .scope).isSome ||
    g.switches.contains .statistics
  if about && !g.switches.contains .locationTypes then .error .withoutLocationTypes
  else .ok (.compile g)

end Given

/-- Whether an argument is an option, and not a file or the value of an option. -/
def isOption (arg : List Char) : Bool :=
  match arg with
  | '-' :: _ :: _ => true
  | _ => false

/-- Reads the letters of an argument that starts with one dash.  Some of them end the reading of
arguments. -/
def readLetters (g : Given) : List Char → Except UsageError (Given ⊕ Request)
  | [] => .ok (.inl g)
  | 'v' :: rest =>
    match g.addSwitch "verbose" .verbose with
    | .ok g => readLetters g rest
    | .error e => .error e
  | 'h' :: _ => .ok (.inr .help)
  | 'V' :: _ => .ok (.inr .version)
  | c :: _ => .error (.unknownOption (String.ofList ['-', c]))

/-- Reads the arguments from left to right.  Asking for help or the version ends the reading. -/
def readArgs (g : Given) : List String → Except UsageError Request
  | [] => g.request
  | arg :: rest =>
    match arg.toList with
    | ['-', '-'] => (g.addFiles rest).request
    | '-' :: '-' :: text =>
      let name := String.ofList (text.takeWhile (· ≠ '='))
      let value? := match text.dropWhile (· ≠ '=') with
        | _ :: value => some (String.ofList value)
        | [] => none
      match longOptions.lookup name, value? with
      | none, _ => .error (.unknownOption arg)
      | some (.setting s), some value =>
        match g.addSetting name s value with
        | .ok g => readArgs g rest
        | .error e => .error e
      | some (.setting s), none =>
        match rest with
        | value :: rest =>
          if isOption value.toList then .error (.missingValue name)
          else
            match g.addSetting name s value with
            | .ok g => readArgs g rest
            | .error e => .error e
        | [] => .error (.missingValue name)
      | some _, some _ => .error (.unexpectedValue name)
      | some (.switch s), none =>
        match g.addSwitch name s with
        | .ok g => readArgs g rest
        | .error e => .error e
      | some .help, none => .ok .help
      | some .version, none => .ok .version
    | '-' :: c :: letters =>
      match readLetters g (c :: letters) with
      | .ok (.inl g) => readArgs g rest
      | .ok (.inr request) => .ok request
      | .error e => .error e
    | _ => readArgs (g.addFiles [arg]) rest

/-- What the arguments ask for. -/
def parse (args : List String) : Except UsageError Request := readArgs .empty args

/-! ## Answers -/

/-- What the program prints, and the code it ends with. -/
structure Response where
  code : Nat
  stdout : String
  stderr : String
deriving DecidableEq, Inhabited, Repr

def versionText : String := "abs 0.1.0\n"

def helpText : String :=
  "Usage: abs [OPTIONS] [FILES]...\n\n" ++
  "Compiles the files, or standard input if none is given.\n\n" ++
  "Options:\n" ++
  "      --product <PRODUCT>     Product to derive\n" ++
  "      --no-typecheck          Stop after product derivation\n" ++
  "      --no-stdlib             Do not merge the bundled standard library\n" ++
  "      --loctypes              Enable location-type inference\n" ++
  "      --locdefault <LOCTYPE>  Default location type: Near, Far or Somewhere\n" ++
  "      --locscope <SCOPE>      Location typing precision\n" ++
  "      --loctypestats          Report location-type statistics\n" ++
  "      --dump                  Print the final program tree as JSON\n" ++
  "  -v, --verbose               Accepted, without effect\n" ++
  "  -h, --help                  Print help\n" ++
  "  -V, --version               Print version\n"

namespace Given

def has (g : Given) (s : Switch) : Bool := g.switches.contains s

/-- The options of the inference of location types, if it is wanted. -/
def locationOptions (g : Given) : Option LocationOptions :=
  let standard := LocationOptions.standard
  let default? := (g.settings.lookup .default).bind fun s => (LocationType.parse s).toOption
  let precision? := (g.settings.lookup .scope).bind fun s => (Precision.parse s).toOption
  if g.has .locationTypes then
    some ⟨default?.getD standard.default, precision?.getD standard.precision, g.has .statistics⟩
  else none

def compileOptions (g : Given) : CompileOptions :=
  ⟨g.settings.lookup .product, !g.has .noTypeCheck, !g.has .noLibrary, g.locationOptions⟩

end Given

namespace Response

/-- The answer when there is nothing to compile or no compilation. -/
def failure (message : String) (cause : Option String) : Response :=
  let cause := match cause with
    | some c => "\nCaused by:\n    " ++ c ++ "\n"
    | none => ""
  ⟨1, "", "Error: " ++ message ++ "\n" ++ cause⟩

/-- The answer to a compilation: a line for each finding, and the number of errors if there are
any.  The derived program is printed if that is wanted and there is one. -/
def ofCompilation (dump : Bool) (c : Compilation) : Response :=
  let findings := String.join (c.findings.map fun d => d.text ++ "\n")
  let errors := c.findings.errorCount
  let tree := match dump, c.model with
    | true, some m => m.toJson.pretty 0 ++ "\n"
    | _, _ => ""
  if errors = 0 then ⟨0, tree, findings⟩
  else ⟨1, tree, findings ++ toString errors ++ " error(s)\n"⟩

end Response

/-- The answer to source texts, or to their not being readable. -/
def answer (g : Given) : Except ReadError (List SourceText) → Response
  | .error e => .failure e.message none
  | .ok sources =>
    match compile sources g.compileOptions with
    | .ok c => .ofCompilation (g.has .dump) c
    | .error e => .failure e.message e.cause

/-! ## Running -/

section

variable {m : Type → Type} [Monad m]

/-- Reads files in order, up to the first that cannot be read. -/
def readFiles (read : String → m (Except ReadError String)) :
    List String → m (Except ReadError (List SourceText))
  | [] => return .ok []
  | file :: files => do
    match ← read file with
    | .error e => return .error e
    | .ok text => return (← readFiles read files).map (⟨some file, text⟩ :: ·)

/-- Reads the given files, or the standard input if there are none. -/
def readSources (read : String → m (Except ReadError String)) (input : m (Except ReadError String))
    (files : List String) : m (Except ReadError (List SourceText)) := do
  match files with
  | [] => return (← input).map fun text => [⟨none, text⟩]
  | _ => readFiles read files

/-- Answers to arguments, given how to read a file and the standard input. -/
def run (read : String → m (Except ReadError String)) (input : m (Except ReadError String))
    (args : List String) : m Response := do
  match parse args with
  | .error e => return ⟨2, "", "error: " ++ e.message ++ "\n"⟩
  | .ok .help => return ⟨0, helpText, ""⟩
  | .ok .version => return ⟨0, versionText, ""⟩
  | .ok (.compile g) => return answer g (← readSources read input g.files)

end

/-- Answers to arguments over a tree of files and a standard input that are held as data. -/
def runOn (t : FileTree) (input : String) (args : List String) : Response :=
  (run (fun path => pure (t.read path)) (pure (.ok input)) args : Id Response).run

end CommandLine

end DeltaLang
