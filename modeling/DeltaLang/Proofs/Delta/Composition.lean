import DeltaLang.Proofs.Trait.Memo
import DeltaLang.Proofs.Trait.Places

/-!
# Composing the classes of a model

Once all traits are known, composing a class does not depend on the classes composed before it.
So the composed model is the model with every class changed on its own, and the findings are those
of the traits followed by those of each class.
-/

namespace DeltaLang

namespace Model

theorem mapClasses_congr {m : Model} {f g : Entry ClassDecl → ClassDecl}
    (h : ∀ e ∈ m.classEntries, f e = g e) : m.mapClasses f = m.mapClasses g := by
  refine congrArg Model.mk (List.map_congr_left fun ⟨unit, u⟩ hu => ?_)
  refine congrArg (CompilationUnit.mk unit.file) (List.map_congr_left fun ⟨module, i⟩ hi => ?_)
  refine congrArg (Module.mk module.name · module.loc) (List.map_congr_left fun ⟨decl, d⟩ hd => ?_)
  cases decl with
  | «class» c =>
    rw [List.mem_zipIdx_iff_getElem?] at hu hi hd
    exact congrArg Decl.class (h ⟨⟨u, i, d⟩, module.name, c.name, c⟩ (mem_classEntries_iff.2
      (mem_entries_iff.2 (by simp_all [ entry?, Decl.name]))))
  | _ => rfl

variable (m : Model)

/-- What is known once all traits of the model are resolved. -/
def resolver : Resolver := (resolveTraits (.ofModel m) .fresh).1

/-- The findings made when all traits of the model are resolved. -/
def traitFindings : Diagnostics := (resolveTraits (.ofModel m) .fresh).2

/-- The composition of a class of the model. -/
def composition (e : Entry ClassDecl) : Resolved :=
  (SymbolTable.ofModel m).composeClass e.module e.decl m.resolver

/-- A class of the model, composed. -/
def composedClass (e : Entry ClassDecl) : ClassDecl :=
  { e.decl with methods := (m.composition e).set.methods, uses := [] }

theorem resolver_full : m.resolver.Full (.ofModel m) := SymbolTable.resolveTraits_full _

theorem composeAll_of_full {t : SymbolTable} {r : Resolver} (full : r.Full t)
    (es : List (Entry ClassDecl)) :
    composeAll t es r =
      (es.map fun e => (e.path, (t.composeClass e.module e.decl r).set.methods),
        es.flatMap fun e => (t.composeClass e.module e.decl r).findings) := by
  induction es with
  | nil => rfl
  | cons e es ih =>
    rw [composeAll, SymbolTable.composeClass_resolver_of_full full, ih]
    rfl

/-- Every class is composed on its own. -/
theorem composeClasses_eq :
    m.composeClasses = ⟨m.mapClasses m.composedClass,
      m.traitFindings ++ m.classEntries.flatMap fun e => (m.composition e).findings⟩ := by
  have all := composeAll_of_full m.resolver_full m.classEntries
  have found (e : Entry ClassDecl) (he : e ∈ m.classEntries) :
      (composeAll (.ofModel m) m.classEntries m.resolver).1.lookup e.path =
        some (m.composition e).set.methods := by
    rw [all]
    exact lookup_map_of_mem (k := (·.path)) (f := fun e => (m.composition e).set.methods) he
      fun e' he' eq => narrow_eq_of_path_eq he' he eq
  refine congrArg₂ Flattened.mk (mapClasses_congr fun e he => ?_)
    (congrArg (m.traitFindings ++ ·) (congrArg Prod.snd all))
  rw [composedClass, ← Option.getD_some (a := (m.composition e).set.methods) (b := []),
    ← found e he]
  rfl

/-- The classes of the composed model are those of the model, each composed. -/
theorem classEntries_composeClasses :
    m.composeClasses.model.classEntries =
      m.classEntries.map fun e => { e with decl := m.composedClass e } := by
  rw [composeClasses_eq, classEntries_mapClasses]
  refine List.map_congr_left fun e he => ?_
  have name : e.decl.name = e.name := (name_of_mem_entries (mem_classEntries_iff.1 he)).symm
  exact congrArg (Entry.mk e.path e.module · (m.composedClass e)) name

/-! ## Composition module by module -/

end Model

/-- The declaration changed by `f`, if it is a class. -/
def Decl.mapClass (f : ClassDecl → ClassDecl) : Decl → Decl
  | .class c => .class (f c)
  | other => other

/-- A class of a module, composed where so much is known. -/
def SymbolTable.composedClass (t : SymbolTable) (r : Resolver) (module : String) (c : ClassDecl) :
    ClassDecl :=
  { c with methods := (t.composeClass module c r).set.methods, uses := [] }

/-- The module with its classes composed where so much is known. -/
def Module.compose (t : SymbolTable) (r : Resolver) (mod : Module) : Module :=
  { mod with decls := mod.decls.map (Decl.mapClass (t.composedClass r mod.name)) }

namespace Model

variable {m : Model} {names : List String}

/-- The model with every module changed. -/
def mapModules (f : Module → Module) (m : Model) : Model :=
  ⟨m.units.map fun u => { u with modules := u.modules.map f }⟩

theorem map_fst_zipIdx {α β : Type} (l : List α) (f : α → β) :
    (l.zipIdx.map fun s => f s.1) = l.map f := by
  conv_rhs => rw [← List.zipIdx_map_fst 0 l, List.map_map]
  rfl

/-- Changing classes without regard to their places. -/
theorem mapClasses_eq {f : Entry ClassDecl → ClassDecl} {g : String → ClassDecl → ClassDecl}
    (h : ∀ e, f e = g e.module e.decl) (m : Model) :
    m.mapClasses f = m.mapModules fun mod =>
      { mod with decls := mod.decls.map (Decl.mapClass (g mod.name)) } := by
  rw [mapClasses, mapModules, ← map_fst_zipIdx m.units]
  refine congrArg Model.mk (List.map_congr_left fun s _ => ?_)
  obtain ⟨u, i⟩ := s
  dsimp only
  rw [← map_fst_zipIdx u.modules]
  refine congrArg (CompilationUnit.mk u.file) (List.map_congr_left fun s _ => ?_)
  obtain ⟨mod, j⟩ := s
  dsimp only
  rw [← map_fst_zipIdx mod.decls]
  refine congrArg (Module.mk mod.name · mod.loc) (List.map_congr_left fun s _ => ?_)
  obtain ⟨d, k⟩ := s
  cases d with
  | «class» c => exact congrArg Decl.class (h _)
  | _ => rfl

/-- Composing a model only depends on its traits, places aside. -/
theorem composeClasses_eq_of_sameTraits {t : SymbolTable}
    (traits : (SymbolTable.ofModel m).SameTraits t) :
    m.composeClasses =
      ⟨m.mapModules (Module.compose t (resolveTraits t .fresh).1),
        (resolveTraits t .fresh).2 ++ m.classEntries.flatMap fun e =>
          (t.composeClass e.module e.decl (resolveTraits t .fresh).1).findings⟩ := by
  have composition (e : Entry ClassDecl) : m.composition e =
      t.composeClass e.module e.decl (resolveTraits t .fresh).1 := by
    rw [Model.composition, traits.composeClass, resolver, traits.resolveTraits]
  rw [composeClasses_eq, traitFindings, traits.resolveTraits]
  simp only [composition]
  refine congrArg (Flattened.mk · _) (mapClasses_eq (fun e => ?_) m)
  rw [composedClass, composition]
  rfl

/-! ## Products -/

theorem flatten_of_invalid {ds : Diagnostics} (product : Option String)
    (h : m.validateDeltas names = .error ds) :
    m.flatten ⟨product, names⟩ = .error ⟨product, ds⟩ := by
  simp only [flatten, h]
  rfl

theorem flatten_of_valid {es : List (Entry DeltaDecl)} {product : Option String}
    (h : m.validateDeltas names = .ok es) :
    m.flatten ⟨product, names⟩ =
      match m.applyDeltas es with
      | .ok derived => .ok derived.composeClasses
      | .error ds => .error ⟨product, ds⟩ := by
  simp only [flatten, h]
  rfl

/-- A product is the composition of what its deltas derive. -/
theorem exists_derived_of_flatten {product : Option String} {f : Flattened}
    (h : m.flatten ⟨product, names⟩ = .ok f) :
    ∃ es d, m.validateDeltas names = .ok es ∧ m.applyDeltas es = .ok d ∧
      d.composeClasses = f := by
  cases valid : m.validateDeltas names with
  | error ds =>
    rw [flatten_of_invalid product valid] at h
    cases h
  | ok es =>
    rw [flatten_of_valid valid] at h
    cases derived : m.applyDeltas es with
    | error ds =>
      rw [derived] at h
      cases h
    | ok d =>
      rw [derived] at h
      exact ⟨es, d, rfl, derived, Except.ok.inj h⟩

end Model

end DeltaLang
