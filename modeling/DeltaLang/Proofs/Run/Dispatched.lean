import DeltaLang.Check.Model
import DeltaLang.Proofs.Run.Scoped

/-!
# Calls reach methods that take them

On a model that type checking finds no error in, and in which methods stand in for the signatures
that they are called by, no operation that fits stops because a method is not found or is given
another number of arguments than it takes.  That methods stand in is not checked, and cannot be left
out: each part of it fails in a model without findings that has such a run.
-/

namespace DeltaLang

/-- If type checking finds no error and methods stand in for the signatures that they are called by,
then no operation stops because a method is not found or not given the arguments that it takes,
provided that this holds of what is called and created from outside. -/
theorem typeCheck_dispatched {σ : Type} {m : Model} {r : Registry σ} {c : Checked}
    (checked : (typeCheck m r).1 = .ok c) (clean : c.findings.hasErrors = false)
    (coherent : (SymbolTable.ofModel m).Coherent) {budget depth : Nat} {ops : List Operation}
    (admits : (Session.start m budget depth).Admits True ops) {flt : Fault}
    (dispatch : flt.isDispatch = true) :
    .error (.fault flt) ∉ ((Session.start m budget depth).performAll ops).1 := by
  intro stopped
  have tolerated : ∀ d ∈ c.findings, d.Tolerated True := fun d mem error => by
    rw [Diagnostics.hasErrors, List.any_eq_false] at clean
    exact absurd error (clean d mem)
  have traversed := SymbolTable.traversed_ofModel checked tolerated fun _ => coherent
  have harmless := (Session.start_fits traversed budget depth).performAll admits _ stopped
  exact absurd (harmless.2 trivial) (by simp [dispatch])

/-! ## Models to run -/

/-- Creates the class `Main` and calls its method `run`, both without arguments. -/
def runMain : List Operation := [.instantiate "Main" [], .call 0 "run" []]

namespace Model

/-- A model of the modules, each given by its name and declarations. -/
def ofDecls (modules : List (String × List Decl)) : Model :=
  ⟨[⟨none, modules.map fun (name, decls) => ⟨name, decls, none⟩⟩]⟩

end Model

/-- The signature `ret name(type p, ..)`. -/
def Signature.of (ret name : String) (params : List (String × String)) : Signature :=
  ⟨name, .named ret, params.map fun (type, p) => ⟨p, .named type, none⟩, none⟩

def Decl.interfaceOf (name : String) (parents : List String) (methods : List Signature) : Decl :=
  .interface ⟨name, parents, methods, none⟩

def Decl.classOf (name : String) (params : List (String × String)) (implements : List String)
    (methods : List Method) : Decl :=
  .class ⟨name, params.map fun (type, p) => ⟨p, .named type, none⟩, [], none, none, implements, [],
    methods, none⟩

def Expr.make (cls : String) (args : List Expr) : Expr := .new cls args false none

def Expr.send (receiver : Expr) (method : String) (args : List Expr) : Expr :=
  .call receiver method args false none

/-- The class `Main` whose method `run` gives the variables their values, in order, and returns
another value. -/
def Decl.mainOf (locals : List (String × String × Expr)) (result : Expr) : Decl :=
  .classOf "Main" [] [] [.ofVersion ⟨.of "Int" "run" [],
    (locals.map fun (type, name, value) => .decl (.named type) name (some value) none) ++
      [.ret result none]⟩]

/-- An interface that extends another one, and a class that implements it by a method with an
earlier version. -/
def standingModel : Model := .ofDecls [("M",
  [.interfaceOf "I" [] [.of "Int" "m" [("Int", "x")]], .interfaceOf "J" ["I"] [],
    .classOf "C" [("Int", "p")] ["J"] [⟨⟨.of "Int" "m" [("Int", "x")],
      [.ret (.binary .add (.original [.var "x" none] none) (.var "p" none) none) none]⟩,
      [⟨.of "Int" "m" [("Int", "y")], [.ret (.var "y" none) none]⟩]⟩],
    .mainOf [("J", "o", .make "C" [.int 2 none])] (.send (.var "o" none) "m" [.int 5 none])])]

theorem typeCheck_dispatched_standingModel :
    ∃ c, (typeCheck standingModel ([] : Registry Unit)).1 = .ok c ∧
      c.findings.hasErrors = false ∧ (SymbolTable.ofModel standingModel).Coherent ∧
      (Session.start standingModel 20 9).Admits True runMain ∧
      ((Session.start standingModel 20 9).performAll runMain).1 =
        [.ok (.object 0), .ok (.int 7)] ∧
      ∀ flt : Fault, flt.isDispatch = true →
        .error (.fault flt) ∉ ((Session.start standingModel 20 9).performAll runMain).1 := by
  obtain ⟨c, checked, clean⟩ : ∃ c, (typeCheck standingModel ([] : Registry Unit)).1 = .ok c ∧
      c.findings.hasErrors = false := exists_of_map_toOption (by decide +kernel)
  have coherent : (SymbolTable.ofModel standingModel).Coherent := by decide +kernel
  have admits : (Session.start standingModel 20 9).Admits True runMain := by decide +kernel
  exact ⟨c, checked, clean, coherent, admits, by decide +kernel, fun flt dispatch =>
    typeCheck_dispatched checked clean coherent admits dispatch⟩

/-! ## Methods that do not stand in -/

/-- Nothing is found in the model, and yet running it stops for the fault, although what is called
and created from outside takes what it is given. -/
def Model.Misdispatches (m : Model) (flt : Fault) : Prop :=
  checkModel m = [] ∧
    (typeCheck m ([] : Registry Unit)).1.toOption.map (·.findings) = some [] ∧
    (Session.start m 20 9).Admits True runMain ∧
    ((Session.start m 20 9).performAll runMain).1 = [.ok (.object 0), .error (.fault flt)]

instance (m : Model) (flt : Fault) : Decidable (m.Misdispatches flt) :=
  inferInstanceAs (Decidable (_ ∧ _ ∧ _ ∧ _))

/-- The method of the class does not take the argument that the signature of the interface does. -/
def arityModel : Model := .ofDecls [("M",
  [.interfaceOf "I" [] [.of "Int" "m" [("Int", "x")]],
    .classOf "C" [] ["I"] [.ofVersion ⟨.of "Int" "m" [], [.ret (.int 1 none) none]⟩],
    .mainOf [("I", "o", .make "C" [])] (.send (.var "o" none) "m" [.int 5 none])])]

/-- The earlier version does not take the argument that the version after it passes on. -/
def originalModel : Model := .ofDecls [("M",
  [.interfaceOf "I" [] [.of "Int" "m" [("Int", "x")]],
    .classOf "C" [] ["I"] [⟨⟨.of "Int" "m" [("Int", "x")],
      [.ret (.original [.var "x" none] none) none]⟩,
      [⟨.of "Int" "m" [], [.ret (.int 1 none) none]⟩]⟩],
    .mainOf [("I", "o", .make "C" [])] (.send (.var "o" none) "m" [.int 5 none])])]

/-- The signature that an interface inherits names a type that is another one in its module. -/
def inheritedModel : Model := .ofDecls
  [("A", [.interfaceOf "T" [] [.of "Int" "a" []], .interfaceOf "J" [] [.of "T" "get" []]]),
    ("B", [.interfaceOf "T" [] [.of "Int" "b" []], .interfaceOf "I" ["A.J"] [],
      .classOf "D" [] ["A.T"] [.ofVersion ⟨.of "Int" "a" [], [.ret (.int 1 none) none]⟩],
      .classOf "C" [] ["I"] [.ofVersion ⟨.of "A.T" "get" [],
        [.ret (.make "D" []) none]⟩],
      .mainOf [("I", "o", .make "C" []), ("T", "v", .send (.var "o" none) "get" [])]
        (.send (.var "v" none) "b" [])])]

/-- A class has two parameters of one name, and the first is of another type than the last. -/
def twinParamsModel : Model := .ofDecls [("M",
  [.interfaceOf "I" [] [.of "Int" "i" []], .interfaceOf "J" [] [.of "Int" "j" []],
    .interfaceOf "K" [] [.of "Int" "k" []],
    .classOf "CI" [] ["I"] [.ofVersion ⟨.of "Int" "i" [], [.ret (.int 1 none) none]⟩],
    .classOf "CJ" [] ["J"] [.ofVersion ⟨.of "Int" "j" [], [.ret (.int 2 none) none]⟩],
    .classOf "C" [("I", "x"), ("J", "x")] ["K"] [.ofVersion ⟨.of "Int" "k" [],
      [.ret (.send (.var "x" none) "i" []) none]⟩],
    .mainOf [("K", "o", .make "C" [.make "CI" [], .make "CJ" []])]
      (.send (.var "o" none) "k" [])])]

/-- No part of coherence can be left out. -/
theorem misdispatches_incoherentModels :
    arityModel.Misdispatches (.argumentCount "method m" 0 1) ∧
      originalModel.Misdispatches (.argumentCount "method m" 0 1) ∧
      inheritedModel.Misdispatches (.unknownMethod "D" "b") ∧
      twinParamsModel.Misdispatches (.unknownMethod "CJ" "i") := by
  decide +kernel

end DeltaLang
