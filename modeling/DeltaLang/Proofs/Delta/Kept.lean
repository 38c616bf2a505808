import DeltaLang.Proofs.Delta.Declarations
import DeltaLang.Proofs.Delta.Listed
import DeltaLang.Proofs.Delta.NormalForm
import DeltaLang.Proofs.Names.Places

/-!
# What deriving a product keeps

A delta adds a declaration only where the module has none of its kind and name, and nothing it does
changes the kind or the name of a declaration.  So the declarations of a product are told apart as
those of the model are.  Deltas and modules are kept as they are, so that the references of deltas
still mean something.  Interfaces are kept by deltas that do not target them.
-/

namespace DeltaLang

namespace Model

variable {m m' : Model}

/-! ## Modules -/

theorem names_modules_restrict (p : Decl → Bool) (m : Model) :
    (m.restrict p).modules.map Module.name = m.modules.map Module.name := by
  simp [modules, restrict, Module.restrict, List.flatMap_map, List.map_flatMap, Function.comp_def]

/-- An operation keeps the modules, their declarations aside. -/
theorem names_modules_applyOp (delta module : String) (st : Model × Diagnostics) (op : DeltaOp) :
    (applyOp delta module st op).1.modules.map Module.name = st.1.modules.map Module.name := by
  have kept : (applyOp delta module st op).1.restrict (fun _ => false) =
      st.1.restrict fun _ => false := restrict_applyOp (fun _ _ => rfl) st
  rw [← names_modules_restrict (fun _ => false), kept, names_modules_restrict]

/-- Applying deltas keeps the modules, their declarations aside. -/
theorem names_modules_applyDeltas {es : List (Entry DeltaDecl)}
    (applied : m.applyDeltas es = .ok m') :
    m'.modules.map Module.name = m.modules.map Module.name := by
  have kept := restrict_applyDeltas (p := fun _ => false) (fun _ _ _ _ _ _ => rfl) applied
  rw [← names_modules_restrict (fun _ => false), kept, names_modules_restrict]

theorem names_modules_composeClasses (m : Model) :
    m.composeClasses.model.modules.map Module.name = m.modules.map Module.name := by
  rw [modules_composeClasses, List.map_map]
  rfl

end Model

/-! ## Declarations -/

/-- The kinds and names of the declarations of a module. -/
def Module.keys (mod : Module) : List (DeclKind × String) := mod.decls.map fun d => (d.kind, d.name)

/-- The declarations of one kind have distinct names. -/
def Module.Distinct (mod : Module) : Prop := (mod.decls.map fun d => (d.kind, d.name)).Nodup

/-- The declarations of that kind have distinct names. -/
def Module.DistinctOf (kind : DeclKind) (mod : Module) : Prop :=
  (mod.keys.filter (·.1 = kind)).Nodup

theorem Module.key_notMem {mod : Module} {d : Decl} (new : mod.position? d.kind d.name = none) :
    (d.kind, d.name) ∉ mod.keys := by
  intro old
  obtain ⟨d', mem, same⟩ := List.mem_map.1 old
  rw [Prod.mk.injEq] at same
  simpa [same.1, same.2] using List.findIdx?_eq_none_iff.1 new d' mem

theorem Module.Distinct.append {mod : Module} (h : mod.Distinct) {d : Decl}
    (new : mod.position? d.kind d.name = none) :
    Module.Distinct { mod with decls := mod.decls ++ [d] } := by
  rw [Module.Distinct, List.map_append, List.map_singleton, ← List.concat_eq_append]
  exact List.Nodup.concat (key_notMem new) h

theorem Module.DistinctOf.append {kind : DeclKind} {mod : Module} (h : mod.DistinctOf kind)
    {d : Decl} (new : mod.position? d.kind d.name = none) :
    DistinctOf kind { mod with decls := mod.decls ++ [d] } := by
  rw [Module.DistinctOf, keys, List.map_append, List.filter_append, List.nodup_append]
  refine ⟨h, (List.nodup_singleton _).filter _, ?_⟩
  rintro key old _ last rfl
  have here : key = (d.kind, d.name) := List.mem_singleton.1 (List.mem_filter.1 last).1
  exact key_notMem new (here ▸ (List.mem_filter.1 old).1)

/-- An operation changes neither the kind nor the name of a declaration. -/
theorem DeltaOp.Changes.key_eq {delta : String} {op : DeltaOp} {d d' : Decl}
    (h : op.Changes delta d d') : (d'.kind, d'.name) = (d.kind, d.name) := by
  cases h with
  | trait name expr loc t => rfl
  | interface mod i => exact congrArg (Prod.mk DeclKind.interface) (i.name_modify delta mod)
  | «class» mod t module c =>
    exact congrArg (Prod.mk DeclKind.class) (t.name_modifyClass module delta mod c)

theorem Module.keys_modifyDecl {delta : String} {op : DeltaOp} {mod : Module} {i : Nat}
    {f : Decl → Decl}
    (edits : ∀ d, mod.decls[i]? = some d → f d = d ∨ op.Changes delta d (f d)) :
    (mod.modifyDecl i f).keys = mod.keys := by
  refine map_modify_of_eq fun d here => ?_
  obtain same | changed := edits d here
  · rw [same]
  · exact changed.key_eq

theorem DeltaOp.preserves_distinct (delta target : String) (op : DeltaOp) :
    op.Preserves Module.Distinct delta target where
  append _ _ _ _ new distinct := distinct.append new
  erase _ _ distinct := distinct.sublist ((List.eraseIdx_sublist _ _).map _)
  modify _ _ _ edits distinct :=
    (congrArg List.Nodup (Module.keys_modifyDecl edits)).mpr distinct

theorem DeltaOp.preserves_distinctOf (kind : DeclKind) (delta target : String) (op : DeltaOp) :
    op.Preserves (Module.DistinctOf kind) delta target where
  append _ _ _ _ new distinct := distinct.append new
  erase _ _ distinct := distinct.sublist (((List.eraseIdx_sublist _ _).map _).filter _)
  modify _ _ _ edits distinct := by
    rw [Module.DistinctOf, Module.keys_modifyDecl edits]
    exact distinct

namespace Model

variable {m m' : Model}

/-- Applying deltas keeps declarations told apart. -/
theorem Distinct.applyDeltas {es : List (Entry DeltaDecl)} (h : m.Distinct)
    (applied : m.applyDeltas es = .ok m') : m'.Distinct where
  modules := by
    rw [names_modules_applyDeltas applied]
    exact h.modules
  decls := forall_modules_applyDeltas (P := Module.Distinct) h.decls
    (fun _ _ op _ => op.preserves_distinct _ _) applied

theorem Distinct.composeClasses (h : m.Distinct) : m.composeClasses.model.Distinct := by
  have composed := modules_composeClasses m
  constructor
  · rw [names_modules_composeClasses]
    exact h.modules
  · intro mod mem
    rw [composed] at mem
    obtain ⟨mod, hmod, rfl⟩ := List.mem_map.1 mem
    have keys : (mod.compose (.ofModel m) m.resolver).decls.map (fun d => (d.kind, d.name)) =
        mod.decls.map fun d => (d.kind, d.name) := by
      rw [Module.compose, List.map_map]
      refine List.map_congr_left fun d _ => ?_
      cases d <;> rfl
    rw [keys]
    exact h.decls mod hmod

/-! ## References of deltas -/

/-- The references of deltas mean something where the same deltas and modules are declared. -/
theorem deltasDeclared_congr {t t' : SymbolTable}
    (same : t.deltas.map Entry.unplaced = t'.deltas.map Entry.unplaced)
    (modules : t.modules.map Module.name = t'.modules.map Module.name)
    (declared : t.DeltasDeclared) : t'.DeltasDeclared := by
  intro e' mem'
  obtain ⟨e, mem, eq⟩ := exists_of_unplaced_eq same.symm mem'
  have decl : e'.decl = e.decl := (congrArg Entry.decl eq :)
  have module : e'.module = e.module := (congrArg Entry.module eq :)
  obtain ⟨order, uses⟩ := declared e mem
  rw [decl, module]
  refine ⟨fun name named => Namespace.exists_resolve_congr same (order name named),
    fun name named => ?_⟩
  have found := uses name named
  rw [SymbolTable.module?, List.find?_isSome] at found ⊢
  obtain ⟨mod, hmod, eq⟩ := found
  have listed : mod.name ∈ t'.modules.map Module.name := modules ▸ List.mem_map_of_mem hmod
  obtain ⟨mod', hmod', eq'⟩ := List.mem_map.1 listed
  exact ⟨mod', hmod', eq' ▸ eq⟩

end Model

/-! ## Deltas that leave interfaces alone -/

/-- The names that the operation makes classes implement. -/
def DeltaOp.implements : DeltaOp → List String
  | addClass c => c.implements
  | modifyClass mod => mod.addImplements
  | _ => []

/-- No interface is added, removed or modified, and every name that a class is made to implement
means an interface, whatever the module of the class is. -/
structure DeltaDecl.LeavesInterfaces (ns : Namespace InterfaceDecl) (d : DeltaDecl) : Prop where
  targets : ∀ op ∈ d.ops, op.target.1 ≠ .interface
  implements : ∀ op ∈ d.ops, ∀ name ∈ op.implements, ∀ module,
    ∃ i, ns.resolve (some module) name = .ok i

/-- If the declaration is a class, the names that it implements mean interfaces in the module. -/
def Decl.ImplementsIn (ns : Namespace InterfaceDecl) (module : String) : Decl → Prop
  | .class c => ∀ name ∈ c.implements, ∃ i, ns.resolve (some module) name = .ok i
  | _ => True

theorem DeltaDecl.LeavesInterfaces.keeps {ns : Namespace InterfaceDecl} {d : DeltaDecl}
    (h : d.LeavesInterfaces ns) (module : String) : d.Keeps (Decl.ImplementsIn ns) module := by
  refine fun op mem => ⟨fun d' adds => ?_, fun owner d' d'' changed before => ?_⟩
  · cases op with
    | addClass c =>
      obtain rfl := Option.some.inj adds
      exact fun name named => h.implements _ mem name named _
    | addInterface i | addTrait t =>
      obtain rfl := Option.some.inj adds
      trivial
    | _ => cases adds
  · cases changed with
    | «class» mod t module c =>
      intro name named
      rcases t.mem_implements_modifyClass module d.name mod c named with named | named
      · exact before name named
      · exact h.implements _ mem name named owner
    | _ => trivial

namespace Model

variable {m m' : Model} {es : List (Entry DeltaDecl)}

theorem implementsDeclared_iff {ns : Namespace InterfaceDecl}
    (same : ns.map Entry.unplaced = m.interfaceEntries.map Entry.unplaced) :
    (SymbolTable.ofModel m).ImplementsDeclared ↔ m.AllDecls (Decl.ImplementsIn ns) := by
  rw [AllDecls, ← forall_entries_iff]
  constructor
  · rintro declared ⟨path, module, name, d⟩ mem
    cases d with
    | «class» c =>
      exact fun name' named => Namespace.exists_resolve_congr same.symm
        (declared ⟨path, module, name, c⟩ (mem_classEntries_iff.2 mem) name' named)
    | _ => trivial
  · intro all c mem name named
    exact Namespace.exists_resolve_congr same (all _ (mem_classEntries_iff.1 mem) name named)

theorem interfaceEntries_applyDeltas
    (leaves : ∀ e ∈ es, ∀ op ∈ e.decl.ops, op.target.1 ≠ .interface)
    (applied : m.applyDeltas es = .ok m') :
    m'.interfaceEntries.map Entry.unplaced = m.interfaceEntries.map Entry.unplaced :=
  unplaced_entries_applyDeltas (fun _ => kind_of_interface?) leaves applied

end Model

end DeltaLang
