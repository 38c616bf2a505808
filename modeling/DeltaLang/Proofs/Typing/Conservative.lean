import DeltaLang.Proofs.Delta.Kept
import DeltaLang.Proofs.Delta.Merged
import DeltaLang.Proofs.Typing.Mentioned

/-!
# Type checking models put together

Put in front of a composed model, a composed model that it ignores and that is type checked without
findings adds none.  So a unit that is fine by itself may be put in front of any model that mentions
none of its names: it is checked, flattened and type checked with the same findings.
-/

namespace DeltaLang

/-! ## Findings of events -/

/-- The findings among the events. -/
def findingsOf (es : List Event) : Diagnostics :=
  es.filterMap fun
    | .finding d => some d
    | .visit .. => none

theorem findingsOf_append (es es' : List Event) :
    findingsOf (es ++ es') = findingsOf es ++ findingsOf es' := List.filterMap_append

theorem findingsOf_move (f : DeclPath → DeclPath) (es : List Event) :
    findingsOf (es.map (Event.move f)) = findingsOf es := by
  rw [findingsOf, List.filterMap_map]
  refine List.filterMap_congr fun e _ => ?_
  cases e <;> rfl

/-- Without extensions, type checking reports the findings of the traversal. -/
theorem typeCheck_nil {σ : Type} (m : Model) :
    (typeCheck m ([] : Registry σ)).1 =
      .ok ⟨findingsOf ((SymbolTable.ofModel m).walkModel m), .empty⟩ := by
  have followed (t : SymbolTable) (es : List Event) (ds : Diagnostics) :
      es.foldl (Progress.follow m t) ⟨([] : Registry σ), ⟨ds, .empty⟩⟩ =
        ⟨[], ⟨ds ++ findingsOf es, .empty⟩⟩ := by
    induction es generalizing ds with
    | nil => rw [List.foldl_nil, findingsOf, List.filterMap_nil, List.append_nil]
    | cons e es ih =>
      cases e with
      | finding d =>
        rw [List.foldl_cons, Progress.follow, ih, List.append_assoc]
        rfl
      | visit cx v => exact ih ds
  exact congrArg (fun p : Progress σ => Except.ok p.checked) (followed _ _ [])

namespace SymbolTable

/-- The traversal of the unit at a position. -/
def walkUnit (t : SymbolTable) (s : CompilationUnit × Nat) : List Event :=
  (List.range s.1.modules.length).flatMap fun i =>
    (ofModule t.interfaces s.2 i).flatMap t.walkInterface ++
      (ofModule t.classes s.2 i).flatMap t.walkClass

theorem walkModel_eq (t : SymbolTable) (m : Model) :
    t.walkModel m = m.units.zipIdx.flatMap t.walkUnit ++ [.visit none .finish] := rfl

/-- A unit at another place is traversed alike, where the same is declared in it. -/
theorem Embeds.walkUnit {t t' : SymbolTable} {S : String → Prop} {f : DeclPath → DeclPath}
    (h : t.Embeds S f t') (closed : t.In S) {u : CompilationUnit} {i j : Nat}
    (interfaces : ∀ k, ofModule t'.interfaces j k = (ofModule t.interfaces i k).map (Entry.move f))
    (classes : ∀ k, ofModule t'.classes j k = (ofModule t.classes i k).map (Entry.move f)) :
    t'.walkUnit (u, j) = (t.walkUnit (u, i)).map (Event.move f) := by
  rw [SymbolTable.walkUnit, SymbolTable.walkUnit, List.map_flatMap]
  refine List.flatMap_congr fun k _ => ?_
  rw [interfaces, classes, List.flatMap_map, List.flatMap_map, List.map_append, List.map_flatMap,
    List.map_flatMap]
  refine congrArg₂ (· ++ ·) (List.flatMap_congr fun e mem => ?_)
    (List.flatMap_congr fun e mem => h.walkClass closed (List.mem_filter.1 mem).1)
  rw [h.walkInterface closed (List.mem_filter.1 mem).1]
  exact (Event.map_move_findings _).symm

end SymbolTable

namespace Model

open SymbolTable

variable {v m : Model}

/-! ## Traversals -/

theorem ofModule_front {α : Type} (f : Decl → Option α) (v m : Model) {i : Nat}
    (first : i < v.units.length) (k : Nat) :
    ofModule ((v.append m).entries.filterMap (Entry.narrow f)) i k =
      (ofModule (v.entries.filterMap (Entry.narrow f)) i k).map (Entry.move id) := by
  have others : ofModule ((m.entries.filterMap (Entry.narrow f)).map
      (Entry.move (.shift v.units.length))) i k = [] := List.filter_eq_nil_iff.2 fun e mem => by
    obtain ⟨e, -, rfl⟩ := List.mem_map.1 mem
    have later : e.path.unit + v.units.length ≠ i := by omega
    simp [Entry.move, DeclPath.shift, later]
  have same : (ofModule (v.entries.filterMap (Entry.narrow f)) i k).map (Entry.move id) =
      ofModule (v.entries.filterMap (Entry.narrow f)) i k := List.map_id _
  rw [ofModule] at others
  rw [same, ofModule, narrow_entries_append, List.filter_append, others, List.append_nil]
  rfl

theorem ofModule_back {α : Type} (f : Decl → Option α) (v m : Model) (i k : Nat) :
    ofModule ((v.append m).entries.filterMap (Entry.narrow f)) (i + v.units.length) k =
      (ofModule (m.entries.filterMap (Entry.narrow f)) i k).map
        (Entry.move (.shift v.units.length)) := by
  have others : ofModule (v.entries.filterMap (Entry.narrow f)) (i + v.units.length) k = [] :=
    List.filter_eq_nil_iff.2 fun e mem => by
      obtain ⟨d, -, mem⟩ := mem_narrow_iff.1 mem
      have first : e.path.unit < v.units.length := path_unit_lt mem
      have before : e.path.unit ≠ i + v.units.length := by omega
      simp [before]
  rw [ofModule] at others
  rw [ofModule, narrow_entries_append, List.filter_append, others, List.nil_append, ofModule,
    List.filter_map]
  refine congrArg (List.map _) (List.filter_congr fun e _ => ?_)
  have unit : (e.path.unit + v.units.length == i + v.units.length) = (e.path.unit == i) := by
    rw [Bool.eq_iff_iff, beq_iff_eq, beq_iff_eq, Nat.add_right_cancel_iff]
  exact congrArg (· && e.path.module == k) unit

/-- The findings about two models together are those about each, where both are embedded for the
names that they mention. -/
theorem findingsOf_walkModel_append {S S' : String → Prop}
    (front : (SymbolTable.ofModel v).Embeds S id (.ofModel (v.append m)))
    (closed : (SymbolTable.ofModel v).In S)
    (back : (SymbolTable.ofModel m).Embeds S' (.shift v.units.length) (.ofModel (v.append m)))
    (closed' : (SymbolTable.ofModel m).In S') :
    findingsOf ((SymbolTable.ofModel (v.append m)).walkModel (v.append m)) =
      findingsOf ((SymbolTable.ofModel v).walkModel v) ++
        findingsOf ((SymbolTable.ofModel m).walkModel m) := by
  have first : v.units.zipIdx.flatMap (SymbolTable.ofModel (v.append m)).walkUnit =
      (v.units.zipIdx.flatMap (SymbolTable.ofModel v).walkUnit).map (Event.move id) := by
    rw [List.map_flatMap]
    refine List.flatMap_congr fun s mem => ?_
    have lt := List.snd_lt_of_mem_zipIdx mem
    exact front.walkUnit closed (ofModule_front Decl.interface? v m lt)
      (ofModule_front Decl.class? v m lt)
  have second : (m.units.zipIdx.map fun s => (s.1, s.2 + v.units.length)).flatMap
        (SymbolTable.ofModel (v.append m)).walkUnit =
      (m.units.zipIdx.flatMap (SymbolTable.ofModel m).walkUnit).map
        (Event.move (.shift v.units.length)) := by
    rw [List.map_flatMap, List.flatMap_map]
    exact List.flatMap_congr fun s _ => back.walkUnit closed'
      (ofModule_back Decl.interface? v m s.2) (ofModule_back Decl.class? v m s.2)
  rw [walkModel_eq, walkModel_eq, walkModel_eq, zipIdx_units_append, List.flatMap_append, first,
    second, findingsOf_append, findingsOf_append, findingsOf_append, findingsOf_append,
    findingsOf_move, findingsOf_move]
  simp [findingsOf]

/-! ## Composed models -/

/-- Composition does not bring in names. -/
theorem Within.composeClasses {N : String → Prop} (h : m.Within N) :
    m.composeClasses.model.Within N := by
  refine forall_entries_iff (P := fun _ => Decl.Within N) |>.1 fun e mem => ?_
  rw [composeClasses_eq, entries_mapClasses] at mem
  obtain ⟨⟨path, module, name, d⟩, before, rfl⟩ := List.mem_map.1 mem
  cases d with
  | «class» c =>
    have named : name = c.name := name_of_mem_entries before
    have entry : ⟨path, module, c.name, c⟩ ∈ m.classEntries :=
      mem_classEntries_iff.2 (named ▸ before)
    exact ClassDecl.within_iff.1 (h.composedClass entry)
  | _ => exact h.decl before

theorem declares_iff {simple : String} : v.Declares simple ↔
    simple ∈ (v.modules.flatMap fun mod => mod.decls.map Decl.name).map simpleName := by
  constructor
  · rintro ⟨mod, hmod, d, hd, rfl⟩
    exact List.mem_map_of_mem (List.mem_flatMap.2 ⟨mod, hmod, List.mem_map_of_mem hd⟩)
  · intro mem
    obtain ⟨name, named, rfl⟩ := List.mem_map.1 mem
    obtain ⟨mod, hmod, listed⟩ := List.mem_flatMap.1 named
    obtain ⟨d, hd, rfl⟩ := List.mem_map.1 listed
    exact ⟨mod, hmod, d, hd, rfl⟩

/-- Composition leaves the names of declarations as they are. -/
theorem declares_composeClasses (v : Model) : v.composeClasses.model.Declares = v.Declares := by
  have names (mod : Module) : (mod.compose (.ofModel v) v.resolver).decls.map Decl.name =
      mod.decls.map Decl.name := by
    rw [Module.compose, List.map_map]
    exact List.map_congr_left fun d _ => by cases d <;> rfl
  funext simple
  rw [eq_iff_iff, declares_iff, declares_iff, modules_composeClasses, List.flatMap_map]
  simp only [names]

theorem Ignores.closed (h : m.Ignores v) :
    (SymbolTable.ofModel m).In fun s => ¬v.Declares s where
  placed := placed_ofModel m
  names _ mem := h.not_declares mem
  interfaces _ mem := h.decl (mem_interfaceEntries_iff.1 mem)
  classes _ mem := ClassDecl.within_iff.2 (h.decl (mem_classEntries_iff.1 mem))

/-- What a model declares is known by its names. -/
theorem known_declares (v : Model) : (SymbolTable.ofModel v).Known v.Declares :=
  ⟨declares_of_resolve, declares_of_resolve⟩

/-- A valid model that is type checked without findings, once composed, only mentions in interfaces
and classes what it declares. -/
theorem Valid.closed (valid : v.Valid) (quiet : Quiet True
      ((SymbolTable.ofModel v.composeClasses.model).walkModel v.composeClasses.model)) :
    (SymbolTable.ofModel v.composeClasses.model).In v.Declares := by
  have known := known_declares v.composeClasses.model
  have interfaces : v.composeClasses.model.interfaceEntries = v.interfaceEntries :=
    narrow_entries_composeClasses (fun _ => rfl) v
  rw [declares_composeClasses] at known
  refine ⟨placed_ofModel _, fun c mem => ?_, fun i mem => ?_, fun c mem => ?_⟩
  · rw [← declares_composeClasses]
    exact (declares_of_mem_narrow mem :)
  · refine known.walkInterface (quiet.subset (walkInterface_subset_walkModel mem)) ?_ ?_
    all_goals
      have mem' : i ∈ v.interfaceEntries := interfaces ▸ mem
    · have declared := declares_of_mem_narrow mem'
      have name : i.name = i.decl.name := name_of_mem_entries (mem_interfaceEntries_iff.1 mem')
      exact name ▸ declared
    · exact valid.parentsIn i mem'
  · have entries := classEntries_composeClasses v
    have mem' : c ∈ v.composeClasses.model.classEntries := mem
    rw [entries] at mem'
    obtain ⟨e, he, rfl⟩ := List.mem_map.1 mem'
    refine known.walkClass (quiet.subset (walkClass_subset_walkModel mem)) ?_ ?_ rfl
    · have declared := declares_of_mem_narrow he
      have name : e.name = e.decl.name := name_of_mem_entries (mem_classEntries_iff.1 he)
      exact name ▸ declared
    · exact fun n hn => declares_of_resolves (d := .class e.decl)
        ⟨valid.implements e he, valid.uses e he⟩ n (List.mem_append_left _ hn)

/-! ## Units put in front -/

/-- Behind a composed model that is type checked without findings, a model that ignores what is
declared there is type checked as without it. -/
theorem typeCheck_behind {σ : Type} (valid : v.Valid) {c : Checked}
    (types : (typeCheck v.composeClasses.model ([] : Registry σ)).1 = .ok c)
    (clean : c.findings = []) (ignores : m.Ignores v) :
    (typeCheck (v.composeClasses.model.append m) ([] : Registry σ)).1 =
      (typeCheck m ([] : Registry σ)).1 := by
  have quiet : Quiet True
      ((SymbolTable.ofModel v.composeClasses.model).walkModel v.composeClasses.model) :=
    quiet_walkModel types (by rw [clean]; exact fun d mem => absurd mem List.not_mem_nil)
  have none : findingsOf ((SymbolTable.ofModel v.composeClasses.model).walkModel
      v.composeClasses.model) = [] := by
    rw [typeCheck_nil] at types
    exact (congrArg Checked.findings (Except.ok.inj types)).trans clean
  have ignores' : m.Ignores v.composeClasses.model := by
    rw [Ignores, declares_composeClasses]
    exact ignores
  have front := ignores'.embeds
  have back := embeds_shift v.composeClasses.model m
  rw [declares_composeClasses] at front back
  rw [typeCheck_nil, typeCheck_nil,
    findingsOf_walkModel_append front (valid.closed quiet) back ignores.closed, none,
    List.nil_append]

/-- Let a unit have no deltas, and let it alone be checked, flattened without deltas and type
checked without findings; and let a model mention neither its modules nor any simple name that it
declares.  With the unit in front the model is checked with the same findings.  For every
configuration it is flattened with the same outcome and findings, the unit composed being in front
of the product; and the product is type checked with the same findings. -/
theorem prepend_conservative {σ : Type} (u : CompilationUnit) (m : Model) {f : Flattened}
    {c : Checked} (plain : (Model.mk [u]).deltas = []) (checks : checkModel ⟨[u]⟩ = [])
    (flattens : (Model.mk [u]).flatten ⟨none, []⟩ = .ok f) (composes : f.findings = [])
    (types : (typeCheck f.model ([] : Registry σ)).1 = .ok c) (clean : c.findings = [])
    (apart : (Model.mk [u]).Apart m) :
    checkModel ⟨u :: m.units⟩ = checkModel m ∧
      ∀ config,
        (Model.mk (u :: m.units)).flatten config =
          (m.flatten config).map (fun g => ⟨⟨f.model.units ++ g.model.units⟩, g.findings⟩) ∧
        ∀ g, m.flatten config = .ok g →
          (typeCheck ⟨f.model.units ++ g.model.units⟩ ([] : Registry σ)).1 =
            (typeCheck g.model ([] : Registry σ)).1 := by
  have valid : (Model.mk [u]).Valid := checkModel_clean_iff.1 (by rw [checks]; rfl)
  rw [flatten_nil, Except.ok.injEq] at flattens
  subst flattens
  refine ⟨checkModel_append apart plain checks, fun config =>
    ⟨flatten_behind apart plain valid composes config, fun g product => ?_⟩⟩
  obtain ⟨es, d, found, derived, rfl⟩ := exists_derived_of_flatten product
  have ignores : d.Ignores (Model.mk [u]) := apart.ignores.applyDeltas
    (fun e mem => apart.ignores.decl (mem_deltaEntries_iff.1 (mem_deltaEntries_of_valid found mem)))
    derived
  have composed : d.composeClasses.model.Ignores (Model.mk [u]) := Within.composeClasses ignores
  exact typeCheck_behind valid types clean composed

/-- A library with a class that is composed of a trait. -/
def printerText : String :=
  "module Printing; interface Printer { Unit print(String line); } " ++
    "trait Discard = { Unit print(String line) { skip; } }; " ++
    "class NullPrinter implements Printer { uses Discard; }"

/-- A program with a delta that removes a field that is still used. -/
def shelfText : String :=
  "module Shop; class Shelf { Int n = 1; Int count() { return this.n; } } " ++
    "delta D { modifies class Shelf { removes Int n; } }"

theorem prepend_conservative_printerText :
    ∃ u w f g, parseUnit none printerText = .ok u ∧ parseUnit none shelfText = .ok w ∧
      (Model.mk [u]).flatten ⟨none, []⟩ = .ok f ∧
      (Model.mk [w]).flatten ⟨none, ["D"]⟩ = .ok g ∧
      checkModel ⟨[u, w]⟩ = checkModel ⟨[w]⟩ ∧
      (Model.mk [u, w]).flatten ⟨none, ["D"]⟩ =
        .ok ⟨⟨f.model.units ++ g.model.units⟩, g.findings⟩ ∧
      (typeCheck ⟨f.model.units ++ g.model.units⟩ ([] : Registry Unit)).1 =
        (typeCheck g.model ([] : Registry Unit)).1 ∧
      (findingsOf ((SymbolTable.ofModel g.model).walkModel g.model)).length = 1 := by
  obtain ⟨u, readU, both⟩ : ∃ u, parseUnit none printerText = .ok u ∧
      ((parseUnit none shelfText).toOption.map fun w =>
        (decide ((Model.mk [u]).deltas = [] ∧ checkModel ⟨[u]⟩ = [] ∧
          (Model.mk [u]).composeClasses.findings = [] ∧
          findingsOf ((SymbolTable.ofModel (Model.mk [u]).composeClasses.model).walkModel
            (Model.mk [u]).composeClasses.model) = [] ∧
          (Model.mk [u]).Apart ⟨[w]⟩),
          ((Model.mk [w]).flatten ⟨none, ["D"]⟩).toOption.map fun g =>
            (findingsOf ((SymbolTable.ofModel g.model).walkModel g.model)).length)) =
        some (true, some 1) :=
    exists_of_map_toOption (by decide +kernel)
  obtain ⟨w, readW, outcome⟩ := exists_of_map_toOption both
  simp only [Prod.mk.injEq, decide_eq_true_eq] at outcome
  obtain ⟨⟨plain, checks, composes, quiet, apart⟩, count⟩ := outcome
  obtain ⟨g, product, findings⟩ := exists_of_map_toOption count
  have types : (typeCheck (Model.mk [u]).composeClasses.model ([] : Registry Unit)).1 =
      .ok ⟨[], .empty⟩ := by rw [typeCheck_nil, quiet]
  obtain ⟨checked, derived⟩ := prepend_conservative u ⟨[w]⟩ plain checks (flatten_nil _ none)
    composes types rfl apart
  obtain ⟨flat, typed⟩ := derived ⟨none, ["D"]⟩
  rw [product] at flat
  exact ⟨u, w, _, g, readU, readW, flatten_nil _ none, product, checked, flat, typed g product,
    findings⟩

end Model

end DeltaLang
