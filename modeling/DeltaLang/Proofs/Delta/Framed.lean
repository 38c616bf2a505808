import DeltaLang.Proofs.Delta.Independence
import DeltaLang.Proofs.Delta.Listed
import DeltaLang.Proofs.Delta.NormalForm
import DeltaLang.Proofs.Delta.Related

/-!
# What a product leaves as it is

Deriving a product keeps the units and modules.  In each module the deltas and products stay, and
so does every declaration that no listed delta targets, in the same order, wherever declarations
before it are removed or others are added.  Only the classes among them are composed.
-/

namespace DeltaLang

/-! ## Spared declarations -/

/-- The declaration is a delta or a product. -/
def Decl.isDeltaOrProduct : Decl → Bool
  | .delta _ | .product _ => true
  | _ => false

/-- None of the deltas targets the declaration. -/
def Decl.sparedBy (es : List (Entry DeltaDecl)) (d : Decl) : Bool :=
  es.all fun e => !e.decl.targets d

theorem DeltaOp.isDeltaOrProduct_eq_false {op : DeltaOp} {d : Decl} (h : op.target = d.target) :
    d.isDeltaOrProduct = false := by
  have kind : op.target.1 = d.kind := congrArg Prod.fst h
  cases d with
  | delta d | product p => cases op <;> cases kind
  | _ => rfl

/-- Deltas and products are never targets. -/
theorem Decl.sparedBy_of_isDeltaOrProduct (es : List (Entry DeltaDecl)) {d : Decl}
    (h : d.isDeltaOrProduct = true) : d.sparedBy es = true := by
  refine List.all_eq_true.2 fun e _ => ?_
  rw [Model.targets_eq_false fun op _ same => ?_, Bool.not_false]
  exact absurd h (by simp [DeltaOp.isDeltaOrProduct_eq_false same])

namespace Model

variable {m m' : Model} {p : Decl → Bool} {es : List (Entry DeltaDecl)}

theorem restrict_sparedBy_applyDeltas (applied : m.applyDeltas es = .ok m') :
    m'.restrict (Decl.sparedBy es) = m.restrict (Decl.sparedBy es) := by
  refine restrict_applyDeltas (fun e mem op hop d same => ?_) applied
  exact List.all_eq_false.2 ⟨e, mem, by simp [targets_eq_true hop same]⟩

/-- Models with the same part have the same units and modules, and the same part of each. -/
theorem related_of_restrict_eq (h : m'.restrict p = m.restrict p) :
    m.Related (fun mod mod' => mod'.restrict p = mod.restrict p) m' := by
  have units := congrArg Model.units h.symm
  refine forall₂_of_map_eq units units fun u u' same _ => ?_
  obtain ⟨file, modules⟩ := CompilationUnit.mk.inj same
  exact ⟨file, forall₂_of_map_eq modules modules fun _ _ same _ => same.symm⟩

end Model

/-! ## Framed modules -/

/-- The second module is the first one but for declarations that are not spared: it has the same
deltas and products, and the spared declarations, with classes changed by `f`, in the same order. -/
structure Module.Framed (spared : Decl → Bool) (f : ClassDecl → ClassDecl) (mod mod' : Module) :
    Prop where
  name : mod'.name = mod.name
  loc : mod'.loc = mod.loc
  deltasAndProducts :
    mod'.decls.filter Decl.isDeltaOrProduct = mod.decls.filter Decl.isDeltaOrProduct
  spared : mod'.decls.filter spared = (mod.decls.filter spared).map (Decl.mapClass f)

section

variable {p : Decl → Bool} {f : ClassDecl → ClassDecl}

/-- Where changing classes does not matter to the test, it can be done before or after. -/
theorem filter_map_mapClass (same : ∀ d, p (Decl.mapClass f d) = p d) (ds : List Decl) :
    (ds.map (Decl.mapClass f)).filter p = (ds.filter p).map (Decl.mapClass f) := by
  rw [List.filter_map]
  exact congrArg _ (List.filter_congr fun d _ => same d)

theorem isDeltaOrProduct_mapClass (d : Decl) :
    (Decl.mapClass f d).isDeltaOrProduct = d.isDeltaOrProduct := by
  cases d <;> rfl

theorem filter_isDeltaOrProduct_map (ds : List Decl) :
    (ds.map (Decl.mapClass f)).filter Decl.isDeltaOrProduct =
      ds.filter Decl.isDeltaOrProduct := by
  rw [filter_map_mapClass isDeltaOrProduct_mapClass]
  refine Model.map_eq_self_iff.2 fun d mem => ?_
  have passes := (List.mem_filter.1 mem).2
  cases d with
  | «class» c => cases passes
  | _ => rfl

end

/-- Where a module has the spared declarations of another one, composing its classes frames that. -/
theorem Module.framed_compose {es : List (Entry DeltaDecl)} {t : SymbolTable} {r : Resolver}
    {mod mod' : Module}
    (same : mod'.restrict (Decl.sparedBy es) = mod.restrict (Decl.sparedBy es)) :
    mod.Framed (Decl.sparedBy es) (t.composedClass r mod.name) (mod'.compose t r) := by
  obtain ⟨name, spared, loc⟩ := Module.mk.inj same
  refine ⟨name, loc, ?_, ?_⟩
  · have sub := fun d => Decl.sparedBy_of_isDeltaOrProduct es (d := d)
    rw [compose, filter_isDeltaOrProduct_map, ← filter_filter_of_imp sub, spared,
      filter_filter_of_imp sub]
  · have target (d : Decl) :
        (Decl.mapClass (t.composedClass r mod'.name) d).sparedBy es = d.sparedBy es := by
      cases d <;> rfl
    rw [compose, filter_map_mapClass target, spared, name]

namespace Model

variable {m : Model}

/-- A product has the units and modules of the model.  In each module it has the same deltas and
products, and the declarations that no operation of a listed delta targets by their kind and simple
name, in the same order, of which only the classes are composed. -/
theorem flatten_framed {config : ProductConfig} {f : Flattened}
    (flat : m.flatten config = .ok f) :
    ∃ es derived,
      List.Forall₂ (fun name e => (SymbolTable.ofModel m).deltas.resolve none name = .ok e)
        config.deltas es ∧
      m.applyDeltas es = .ok derived ∧
      m.Related (fun mod => mod.Framed (Decl.sparedBy es)
        ((SymbolTable.ofModel derived).composedClass derived.resolver mod.name)) f.model := by
  obtain ⟨product, names⟩ := config
  obtain ⟨es, derived, valid, applied, rfl⟩ := exists_derived_of_flatten flat
  refine ⟨es, derived, resolve_of_valid valid, applied, ?_⟩
  have composed : derived.composeClasses.model =
      derived.mapModules (Module.compose (.ofModel derived) derived.resolver) := by
    rw [composeClasses_eq_of_sameTraits (t := .ofModel derived) rfl]
    rfl
  have self : m.mapModules id = m := mapModules_eq_self_iff.2 fun _ _ => rfl
  rw [composed, ← self]
  exact (related_of_restrict_eq (restrict_sparedBy_applyDeltas applied)).mapModules
    fun _ _ same => Module.framed_compose same

/-- A delta removes the class in front of others, adds one behind them, and modifies one of another
module by its qualified name. -/
def neighbourModel : Model :=
  let c (name : String) (uses : List TraitUse) : Decl :=
    .class { (default : ClassDecl) with name := name, uses := uses }
  let m : Method := .ofVersion (default : Version)
  let field : FieldDecl := ⟨"f", default, none, none⟩
  ⟨[⟨none, [
    ⟨"M", [c "X" [], .trait ⟨"T", .set [m], none⟩, c "A" [.adds (.ref "T" none)],
      .delta ⟨"D", none, [], [], none, [.removeClass "X" none,
        .addClass { (default : ClassDecl) with name := "Y" },
        .modifyClass ⟨"N.B", [], [.addField field], none⟩], none⟩,
      .product ⟨"P", [], none⟩], none⟩,
    ⟨"N", [c "C" [], c "B" [], c "A" []], none⟩]⟩]⟩

theorem flatten_framed_neighbourModel :
    ∃ f, neighbourModel.flatten ⟨none, ["D"]⟩ = .ok f ∧
      f.model.modules.map (fun mod => mod.decls.map Decl.name) =
        [["T", "A", "D", "P", "Y"], ["C", "B", "A"]] ∧
      f.model.modules.map (fun mod => mod.decls.filter Decl.isDeltaOrProduct) =
        neighbourModel.modules.map (fun mod => mod.decls.filter Decl.isDeltaOrProduct) ∧
      ∃ es derived, es.length = 1 ∧ neighbourModel.applyDeltas es = .ok derived ∧
        neighbourModel.Related (fun mod => mod.Framed (Decl.sparedBy es)
          ((SymbolTable.ofModel derived).composedClass derived.resolver mod.name)) f.model := by
  obtain ⟨f, flat⟩ : ∃ f, neighbourModel.flatten ⟨none, ["D"]⟩ = .ok f :=
    exists_of_isOk (by decide +kernel)
  have names : (neighbourModel.flatten ⟨none, ["D"]⟩).toOption.map
      (fun f => f.model.modules.map fun mod => mod.decls.map Decl.name) =
      some [["T", "A", "D", "P", "Y"], ["C", "B", "A"]] := by decide +kernel
  rw [flat] at names
  obtain ⟨es, derived, listed, applied, framed⟩ := flatten_framed flat
  refine ⟨f, flat, Option.some.inj names, ?_, es, derived, listed.length_eq.symm, applied, framed⟩
  exact (map_eq_of_forall₂ framed.modules fun _ _ h => h.deltasAndProducts.symm).symm

end Model

end DeltaLang
