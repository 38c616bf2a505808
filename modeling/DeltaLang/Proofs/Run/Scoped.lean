import DeltaLang.Proofs.Delta.Listed
import DeltaLang.Proofs.Run.Compiled
import DeltaLang.Proofs.Run.Simulation

/-!
# Names mean something in every run

On a model whose type checking has no finding about a name that means nothing, no operation of a
session stops because a variable, a field or a class is not found, whatever the operations are, as
long as the classes that they create are found themselves.
-/

namespace DeltaLang

/-! ## Sessions that keep to what is checked -/

section

variable {strict : Prop}

/-- All that is traversed is quiet if the findings of type checking are tolerated. -/
theorem SymbolTable.traversed_ofModel {σ : Type} {m : Model} {r : Registry σ} {c : Checked}
    (checked : (typeCheck m r).1 = .ok c) (tolerated : ∀ d ∈ c.findings, d.Tolerated strict)
    (coherent : strict → (ofModel m).Coherent) : (ofModel m).Traversed strict where
  placed := placed_ofModel m
  classes _ mem := quietClass
    ((quiet_walkModel checked tolerated).subset (walkClass_subset_walkModel mem))
  interfaces _ mem :=
    (quiet_walkModel checked tolerated).subset (walkInterface_subset_walkModel mem)
  coherent := coherent

/-- What the operation creates is found, and if types matter, its arguments fit what it calls. -/
def Operation.Fits (t : SymbolTable) (strict : Prop) (classes : List (Entry ClassDecl)) :
    Operation → Prop
  | .instantiate cls args => ∃ c ∈ (t.classes.resolve none cls).toOption,
      strict → List.Forall₂ (Value.HasType t classes) args (t.paramTypes c.module c.decl.params)
  | .call receiver method args => strict →
      ∃ c ∈ classes[receiver]?, ∃ m ∈ c.decl.method? method,
        List.Forall₂ (Value.HasType t classes) args (t.paramTypes c.module m.sig.params)

instance (t : SymbolTable) [Decidable strict] (classes : List (Entry ClassDecl)) :
    (op : Operation) → Decidable (op.Fits t strict classes)
  | .instantiate .. => inferInstanceAs (Decidable (∃ c ∈ _, strict → _))
  | .call .. => inferInstanceAs (Decidable (strict → ∃ c ∈ _, ∃ m ∈ _, _))

theorem sound_request {t : SymbolTable} {classes : List (Entry ClassDecl)} {op : Operation}
    (fits : op.Fits t strict classes) :
    Run.Sound t strict classes (Session.request t op) fun classes' a =>
      a.Fits t strict classes' := by
  cases op with
  | instantiate cls args =>
    obtain ⟨c, found, fit⟩ := fits
    have found := eq_ok_of_toOption found
    have named : t.Names c := Namespace.resolve_qualifiedName found none
    have resolved : t.classNamed none cls = .ok c := by rw [SymbolTable.classNamed, found]
    rw [Session.request, resolved]
    exact Run.sound_pure fun _ grown =>
      ⟨named, fun h => Value.HasType.mono_all (fit h) grown⟩
  | call receiver method args =>
    refine (Run.sound_dispatch fun h classes' c grown here _ => ?_).mono fun _ _ _ => And.left
    obtain ⟨c', here', m, found, fit⟩ := fits h
    obtain rfl := Option.some.inj (here.symm.trans (getElem?_of_grown here' grown))
    exact ⟨m, found, Value.HasType.mono_all fit grown⟩

namespace Session

/-- The program is traversed quietly, and all objects created so far fit. -/
structure Fits (strict : Prop) (s : Session) : Prop where
  symbols : s.symbols.Traversed strict
  store : s.store.Fits s.symbols strict

/-- Each operation fits when it is its turn. -/
def Admits (strict : Prop) : Session → List Operation → Prop
  | _, [] => True
  | s, op :: ops =>
    op.Fits s.symbols strict s.store.classes ∧ Admits strict (s.perform op).2 ops

instance decidableAdmits [Decidable strict] :
    (s : Session) → (ops : List Operation) → Decidable (s.Admits strict ops)
  | _, [] => inferInstanceAs (Decidable True)
  | s, op :: ops =>
    have := decidableAdmits (s.perform op).2 ops
    inferInstanceAs (Decidable (op.Fits s.symbols strict s.store.classes ∧ _))

theorem Fits.perform {s : Session} (h : s.Fits strict) {op : Operation}
    (fits : op.Fits s.symbols strict s.store.classes) :
    (s.perform op).2.Fits strict ∧ ∀ e, (s.perform op).1 = .error e → e.Harmless strict := by
  have activates : Run.SoundActivations s.symbols strict (activate s.symbols s.budget s.depth) :=
    sound_activate h.symbols s.budget s.depth
  have sound := (sound_request fits).bind (R := fun _ _ => True) fun a classes' _ ha =>
    (activates classes' a ha).mono fun _ _ _ _ => trivial
  obtain ⟨store, stop⟩ := sound.run h.store
  exact ⟨⟨h.symbols, store⟩, stop⟩

/-- What operations that fit stop for is harmless. -/
theorem Fits.performAll {s : Session} (h : s.Fits strict) {ops : List Operation}
    (admits : s.Admits strict ops) : ∀ e, .error e ∈ (s.performAll ops).1 → e.Harmless strict := by
  induction ops generalizing s with
  | nil => exact fun e he => by simp [Session.performAll] at he
  | cons op ops ih =>
    obtain ⟨fits, first⟩ := h.perform admits.1
    intro e he
    rcases List.mem_cons.1 he with he | he
    · exact first e he.symm
    · exact ih fits admits.2 e he

theorem start_fits {m : Model} (h : (SymbolTable.ofModel m).Traversed strict)
    (budget depth : Nat) : (start m budget depth).Fits strict :=
  ⟨h, fun o mem => by simp [start] at mem⟩

/-- Where types do not matter, it is enough that classes are found. -/
theorem admits_of_resolve {s : Session} {ops : List Operation}
    (resolve : ∀ cls args, .instantiate cls args ∈ ops →
      (s.symbols.classes.resolve none cls).isOk = true) : s.Admits False ops := by
  induction ops generalizing s with
  | nil => trivial
  | cons op ops ih =>
    refine ⟨?_, ih fun cls args mem => resolve cls args (List.mem_cons_of_mem _ mem)⟩
    cases op with
    | instantiate cls args =>
      obtain ⟨c, found⟩ := Model.exists_of_isOk (resolve cls args List.mem_cons_self)
      exact ⟨c, by rw [found]; rfl, False.elim⟩
    | call receiver method args => exact False.elim

end Session

end

/-! ## Scoping -/

/-- If type checking has no finding about a variable, a field or a class that is not found, then no
operation stops because there is none, provided that the classes created from outside are found. -/
theorem typeCheck_scoped {σ : Type} {m : Model} {r : Registry σ} {c : Checked}
    (checked : (typeCheck m r).1 = .ok c) (named : ∀ d ∈ c.findings, d.kind.isScoping = false)
    {ops : List Operation} (resolve : ∀ cls args, .instantiate cls args ∈ ops →
      ((SymbolTable.ofModel m).classes.resolve none cls).isOk = true) (budget depth : Nat)
    {flt : Fault} (scoping : flt.isScoping = true) :
    .error (.fault flt) ∉ ((Session.start m budget depth).performAll ops).1 := by
  intro stopped
  have traversed : (SymbolTable.ofModel m).Traversed False :=
    SymbolTable.traversed_ofModel checked (fun d mem _ => ⟨id, named d mem⟩) False.elim
  have fits := Session.start_fits traversed budget depth
  have harmless := fits.performAll (Session.admits_of_resolve resolve) _ stopped
  exact absurd harmless.1 (by simp [scoping])

/-- A class whose field starts as its parameter, and is added to by a method with a variable. -/
def counterModel : Model :=
  ⟨[⟨none, [⟨"M", [.class ⟨"C", [⟨"p", .named "Int", none⟩],
    [⟨"f", .named "Int", some (.var "p" none), none⟩], none, none, [], [],
    [.ofVersion ⟨⟨"add", .named "Int", [⟨"n", .named "Int", none⟩], none⟩,
      [.decl (.named "Int") "sum" (some (.binary .add (.field "f" none) (.var "n" none) none)) none,
        .assign (.var "f") (.var "sum" none) none, .ret (.var "f" none) none]⟩], none⟩], none⟩]⟩]⟩

theorem typeCheck_scoped_counterModel :
    ∃ c, (typeCheck counterModel ([] : Registry Unit)).1 = .ok c ∧
      (∀ d ∈ c.findings, d.kind.isScoping = false) ∧
      ((SymbolTable.ofModel counterModel).classes.resolve none "C").isOk = true ∧
      ((Session.start counterModel 20 9).performAll
        [.instantiate "C" [.int 3], .call 0 "add" [.int 4]]).1 = [.ok (.object 0), .ok (.int 7)] ∧
      ∀ flt : Fault, flt.isScoping = true → .error (.fault flt) ∉
        ((Session.start counterModel 20 9).performAll
          [.instantiate "C" [.int 3], .call 0 "add" [.int 4]]).1 := by
  obtain ⟨c, checked, clean⟩ : ∃ c, (typeCheck counterModel ([] : Registry Unit)).1 = .ok c ∧
      c.findings = [] := exists_of_map_toOption (by decide +kernel)
  have named : ∀ d ∈ c.findings, d.kind.isScoping = false := by simp [clean]
  have found : ((SymbolTable.ofModel counterModel).classes.resolve none "C").isOk = true := by
    decide +kernel
  refine ⟨c, checked, named, found, by decide +kernel, fun flt scoping =>
    typeCheck_scoped checked named (fun cls args mem => ?_) 20 9 scoping⟩
  obtain ⟨rfl, -⟩ : cls = "C" ∧ args = [.int 3] := by simpa using mem
  exact found

end DeltaLang
