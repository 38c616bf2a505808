import DeltaLang.Proofs.Delta.Declarations
import DeltaLang.Proofs.Delta.Listed
import DeltaLang.Proofs.Delta.NormalForm

/-!
# Plain trait names

A plain name has no dot.  Where traits have plain names, a qualified name tells the module and the
name of the trait, and applying deltas that only add traits of plain names keeps this so.  With a
dot in a name, two traits can share a qualified name, by which resolvers remember them.
-/

namespace DeltaLang

/-- The traits that the declaration declares or adds have plain names. -/
def Decl.PlainTraits : Decl → Prop
  | .trait t => PlainName t.name
  | .delta d => ∀ t, .addTrait t ∈ d.ops → PlainName t.name
  | _ => True

/-- All traits that are declared, or added by a delta, have plain names. -/
def Model.PlainTraits (m : Model) : Prop := ∀ mod ∈ m.modules, ∀ d ∈ mod.decls, d.PlainTraits

/-! ## Declared traits -/

theorem Model.PlainTraits.of_mem_entries {m : Model} (h : m.PlainTraits) {e : Entry Decl}
    (mem : e ∈ m.entries) : e.decl.PlainTraits :=
  AllDecls.of_mem_entries (P := fun _ => Decl.PlainTraits) h mem

theorem Model.PlainTraits.plainName {m : Model} (h : m.PlainTraits) {e : Entry TraitDecl}
    (mem : e ∈ m.traitEntries) : PlainName e.name := by
  have entry := mem_traitEntries_iff.1 mem
  have name : e.name = e.decl.name := name_of_mem_entries entry
  rw [name]
  exact h.of_mem_entries entry

/-- Plain names make qualified names that tell traits apart. -/
theorem Model.distinctKeys_of_plainNames {m : Model}
    (plain : ∀ e ∈ m.traitEntries, PlainName e.name) : (SymbolTable.ofModel m).DistinctKeys := by
  intro e mem e' mem' key
  have split := splitQualified_qualifiedName (plain e mem)
  rw [key, splitQualified_qualifiedName (plain e' mem'), Prod.mk.injEq,
    Option.some.injEq] at split
  exact ⟨split.1.symm, split.2.symm⟩

theorem Model.PlainTraits.distinctKeys {m : Model} (h : m.PlainTraits) :
    (SymbolTable.ofModel m).DistinctKeys :=
  m.distinctKeys_of_plainNames fun _ mem => h.plainName mem

/-- The dot in the name of the first trait makes it share the qualified name `M.A.T` with the second
one, which a module declares before other declarations. -/
def overlappingModel (outer inner : TraitExpr) (decls : List Decl) : Model :=
  ⟨[⟨none, [⟨"M", [.trait ⟨"A.T", outer, none⟩], none⟩,
    ⟨"M.A", .trait ⟨"T", inner, none⟩ :: decls, none⟩]⟩]⟩

theorem not_distinctKeys_overlappingModel (outer inner : TraitExpr) (decls : List Decl) :
    ¬ (SymbolTable.ofModel (overlappingModel outer inner decls)).DistinctKeys := by
  have key : "M" ++ "." ++ "A.T" = "M.A" ++ "." ++ "T" := by decide
  have modules : "M" ≠ "M.A" := by decide
  exact fun keys => modules (keys ⟨⟨0, 0, 0⟩, "M", "A.T", ⟨"A.T", outer, none⟩⟩
    (List.mem_cons_self ..) ⟨⟨0, 1, 0⟩, "M.A", "T", ⟨"T", inner, none⟩⟩
    (List.mem_cons_of_mem _ (List.mem_cons_self ..)) key).1

/-! ## Deltas -/

/-- A delta that adds traits of plain names keeps the names plain. -/
theorem DeltaDecl.keeps_plainTraits {d : DeltaDecl} (plain : (Decl.delta d).PlainTraits)
    (module : String) : d.Keeps (fun _ => Decl.PlainTraits) module := by
  refine fun op mem => ⟨fun d adds => ?_, fun _ d d' changed before => ?_⟩
  · cases op with
    | addTrait t =>
      obtain rfl := Option.some.inj adds
      exact plain t mem
    | addInterface i | addClass c =>
      obtain rfl := Option.some.inj adds
      trivial
    | _ => cases adds
  · cases changed with
    | trait name expr loc t => exact before
    | _ => trivial

theorem Model.PlainTraits.applyDeltas {m m' : Model} {es : List (Entry DeltaDecl)}
    (h : m.PlainTraits) (plain : ∀ e ∈ es, (Decl.delta e.decl).PlainTraits)
    (ok : m.applyDeltas es = .ok m') : m'.PlainTraits :=
  AllDecls.applyDeltas (P := fun _ => Decl.PlainTraits) h
    (fun e mem => DeltaDecl.keeps_plainTraits (plain e mem) e.module) ok

/-! ## Products -/

theorem SymbolTable.SameTraits.distinctKeys {t t' : SymbolTable} (same : t.SameTraits t')
    (keys : t.DistinctKeys) : t'.DistinctKeys := by
  unfold SameTraits at same
  have declared {e : Entry TraitDecl} (mem : e ∈ t'.traits) :
      ∃ e' ∈ t.traits, e'.module = e.module ∧ e'.name = e.name := by
    have mem := List.mem_map_of_mem (f := Entry.unplaced) mem
    rw [← same] at mem
    obtain ⟨e', mem, eq⟩ := List.mem_map.1 mem
    have module : e'.unplaced.module = e.unplaced.module := congrArg Entry.module eq
    have name : e'.unplaced.name = e.unplaced.name := congrArg Entry.name eq
    exact ⟨e', mem, module, name⟩
  intro e₁ mem₁ e₂ mem₂ key
  obtain ⟨e₁', mem₁, module₁, name₁⟩ := declared mem₁
  obtain ⟨e₂', mem₂, module₂, name₂⟩ := declared mem₂
  rw [← module₁, ← module₂, ← name₁, ← name₂]
  refine keys e₁' mem₁ e₂' mem₂ ?_
  rwa [Entry.qualifiedName, Entry.qualifiedName, module₁, module₂, name₁, name₂]

/-- Plain names tell the traits of every product apart. -/
theorem Model.PlainTraits.distinctKeys_of_flatten {m : Model} {config : ProductConfig}
    {f : Flattened} (h : m.PlainTraits) (flat : m.flatten config = .ok f) :
    (SymbolTable.ofModel f.model).DistinctKeys := by
  obtain ⟨es, d, valid, applied, rfl⟩ := exists_derived_of_flatten flat
  have plain : d.PlainTraits := h.applyDeltas (fun e mem =>
    h.of_mem_entries (mem_deltaEntries_iff.1 (mem_deltaEntries_of_valid valid mem))) applied
  exact (sameTraits_composeClasses d).symm.distinctKeys plain.distinctKeys

end DeltaLang
