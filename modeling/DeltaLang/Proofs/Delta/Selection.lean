import DeltaLang.Proofs.Delta.Listed
import DeltaLang.Proofs.Delta.Placing
import DeltaLang.Proofs.Names.Checked

/-!
# The deltas of a product

A product is resolved to the names of the deltas that apply to it, and deriving it looks these
names up again.  Both agree on the deltas and on their order if each name is plain and is that of
one delta only; otherwise the list of names is refused or means other deltas.
-/

namespace DeltaLang

/-! ## Lists that keep all constraints -/

namespace Model

variable {m : Model} {names : List String} {es : List (Entry DeltaDecl)}

theorem listedDeltas_of_resolve {t : SymbolTable} {seen : List String}
    (means : List.Forall₂ (fun name e => t.deltas.resolve none name = .ok e) names es)
    (distinct : names.Nodup) (fresh : ∀ name ∈ names, name ∉ seen) :
    listedDeltas t seen names = (es, []) := by
  induction means generalizing seen with
  | nil => rfl
  | @cons name e names es found means ih =>
    obtain ⟨first, distinct⟩ := List.nodup_cons.1 distinct
    have rest : listedDeltas t (name :: seen) names = (es, []) := by
      refine ih distinct fun other mem => ?_
      rw [List.mem_cons, not_or]
      exact ⟨fun eq => first (eq ▸ mem), fresh other (List.mem_cons_of_mem name mem)⟩
    simp only [listedDeltas, rest, fresh name List.mem_cons_self, if_false, found]

/-- A list of distinct names that resolve is valid if no constraint asks for another order. -/
theorem validateDeltas_of_forward
    (means : List.Forall₂ (fun name e => (SymbolTable.ofModel m).deltas.resolve none name = .ok e)
      names es)
    (distinct : names.Nodup)
    (forward : ∀ x y, (x, y) ∈ DeltaOrder.edges (es.map (·.decl)) → x < y) :
    m.validateDeltas names = .ok es := by
  have listed := listedDeltas_of_resolve means distinct fun _ _ => List.not_mem_nil
  obtain ⟨o, order⟩ := DeltaOrder.exists_order_of_forward forward
  have kept : brokenConstraints (es.map (·.decl)) = [] := by
    refine List.filterMap_eq_nil_iff.2 fun (x, y) edge => if_neg ?_
    have ahead := forward x y edge
    omega
  simp only [validateDeltas, listed, List.isEmpty_nil, if_true, order, kept]

/-! ## The deltas that apply -/

/-- The deltas that apply to a selection of features, with their modules and places. -/
def selectedEntries (m : Model) (features : List String) : List (Entry DeltaDecl) :=
  m.deltaEntries.filter (·.decl.appliesTo features)

theorem decl_deltaEntries (m : Model) : m.deltaEntries.map (·.decl) = m.deltas := by
  have unplaced := congrArg (List.map (·.decl)) (m.unplaced_entries Decl.delta?)
  rw [List.map_map, List.map_flatMap] at unplaced
  refine unplaced.trans (List.flatMap_congr fun mod _ => ?_)
  rw [Module.deltas, List.map_filterMap]
  refine List.filterMap_congr fun d _ => ?_
  cases d.delta? <;> rfl

theorem decl_selectedEntries (m : Model) (features : List String) :
    (m.selectedEntries features).map (·.decl) = m.selectedDeltas features := by
  rw [selectedDeltas, ← decl_deltaEntries, List.filter_map]
  rfl

theorem name_of_mem_deltaEntries {e : Entry DeltaDecl} (mem : e ∈ m.deltaEntries) :
    e.decl.name = e.name :=
  (name_of_mem_entries (mem_deltaEntries_iff.1 mem)).symm

/-! ## Resolved products -/

variable {name : String} {p : Entry ProductDecl} {c : ProductConfig}

theorem exists_order_of_resolveProduct
    (product : (SymbolTable.ofModel m).products.resolve none name = .ok p)
    (resolved : m.resolveProduct name = .ok c) :
    ∃ o, DeltaOrder.order (m.selectedDeltas p.decl.features) = .ok o ∧
      c.deltas = o.filterMap fun i =>
        (m.selectedDeltas p.decl.features)[i]?.map DeltaDecl.name := by
  simp only [resolveProduct, product] at resolved
  split at resolved
  · cases resolved
  · rename_i o order
    exact ⟨o, order, (congrArg ProductConfig.deltas (Except.ok.inj resolved)).symm⟩

/-- A product is resolved to the names of the deltas that apply, in an order that keeps all
constraints if the names are distinct. -/
theorem exists_arrangement (product : (SymbolTable.ofModel m).products.resolve none name = .ok p)
    (resolved : m.resolveProduct name = .ok c) :
    ∃ es : List (Entry DeltaDecl), es.Perm (m.selectedEntries p.decl.features) ∧
      c.deltas = es.map (·.name) ∧
      ((es.map (·.name)).Nodup →
        ∀ x y, (x, y) ∈ DeltaOrder.edges (es.map (·.decl)) → x < y) := by
  obtain ⟨o, order, deltas⟩ := exists_order_of_resolveProduct product resolved
  rw [← decl_selectedEntries] at order deltas
  have selected : ∀ e ∈ m.selectedEntries p.decl.features, e.decl.name = e.name := fun e mem =>
    name_of_mem_deltaEntries (List.mem_filter.1 mem).1
  generalize m.selectedEntries p.decl.features = all at order deltas selected
  have perm := (DeltaOrder.order_sound order).1
  rw [List.length_map] at perm
  have arranged := filterMap_getElem?_perm perm
  refine ⟨o.filterMap (all[·]?), arranged, ?_, fun distinct x y edge => ?_⟩
  · rw [deltas, List.map_filterMap]
    refine List.filterMap_congr fun i _ => ?_
    rw [List.getElem?_map, Option.map_map]
    cases found : all[i]? with
    | none => rfl
    | some e => exact congrArg some (selected e (List.mem_of_getElem? found))
  · have decls : (o.filterMap (all[·]?)).map (·.decl) =
        o.filterMap ((all.map (·.decl))[·]?) := by
      simp only [List.map_filterMap, List.getElem?_map]
    have names : (all.map (·.decl)).map DeltaDecl.name = all.map (·.name) := by
      rw [List.map_map]
      exact List.map_congr_left selected
    rw [decls] at edge
    refine DeltaOrder.forward_of_order order ?_ edge
    rw [names]
    exact (arranged.map _).nodup_iff.1 distinct

/-- No other delta has the name of this one, nor can it be taken for a qualified name. -/
def NamedAlone (m : Model) (e : Entry DeltaDecl) : Prop :=
  PlainName e.name ∧ ∀ e' ∈ m.deltaEntries, e'.name = e.name → e' = e

instance (m : Model) (e : Entry DeltaDecl) : Decidable (m.NamedAlone e) :=
  inferInstanceAs (Decidable ('.' ∉ _ ∧ _))

/-- Each delta of a list of names that is valid and means all of them is named alone. -/
theorem namedAlone_of_valid (distinct : m.Distinct) {selected : List (Entry DeltaDecl)}
    (valid : m.validateDeltas (selected.map (·.name)) = .ok es) (perm : es.Perm selected) :
    ∀ e ∈ selected, m.NamedAlone e := by
  obtain ⟨means, meant⟩ := exists_of_forall₂ (resolve_of_valid valid)
  intro e mem
  have plain : PlainName e.name := by
    obtain ⟨name, -, found⟩ := meant e (perm.symm.subset mem)
    exact Namespace.plainName_of_resolve found
  obtain ⟨e₁, -, found⟩ := means e.name (List.mem_map_of_mem mem)
  have name₁ : e₁.name = e.name := Namespace.name_eq_of_resolve found plain
  -- Every delta of that name is the one that the name means.
  have same {e' : Entry DeltaDecl} (mem' : e' ∈ m.deltaEntries) (name' : e'.name = e.name) :
      e' = e₁ :=
    distinct.eq_of_key_eq (fun _ => kind_of_delta?) mem' (Namespace.mem_of_resolve_eq_ok found)
      (Namespace.module_eq_of_resolve found plain mem' name') (name'.trans name₁.symm)
  refine ⟨plain, fun e' mem' name' => ?_⟩
  rw [same mem' name', same (mem_deltaEntries_of_valid valid (perm.symm.subset mem)) rfl]

/-- In a model that is checked without errors, the names that a product is resolved to are a valid
list that means exactly the deltas that apply to the product, each once, if and only if each of
these deltas has a plain name that no other delta has. -/
theorem validateDeltas_resolveProduct_iff (checked : (checkModel m).hasErrors = false)
    (product : (SymbolTable.ofModel m).products.resolve none name = .ok p)
    (resolved : m.resolveProduct name = .ok c) :
    (∃ es, m.validateDeltas c.deltas = .ok es ∧
        es.Perm (m.deltaEntries.filter (·.decl.appliesTo p.decl.features))) ↔
      ∀ e ∈ m.deltaEntries, e.decl.appliesTo p.decl.features → m.NamedAlone e := by
  have distinct := distinct_of_checkModel checked
  obtain ⟨arranged, perm, deltas, forward⟩ := exists_arrangement product resolved
  rw [deltas]
  constructor
  · rintro ⟨es, valid, selects⟩ e mem applies
    refine namedAlone_of_valid distinct valid (selects.trans perm.symm) e (perm.symm.subset ?_)
    exact List.mem_filter.2 ⟨mem, applies⟩
  · intro alone
    have selected : ∀ e ∈ arranged, e ∈ m.deltaEntries ∧ m.NamedAlone e := fun e mem => by
      obtain ⟨mem, applies⟩ := List.mem_filter.1 (perm.subset mem)
      exact ⟨mem, alone e mem applies⟩
    have entries : m.deltaEntries.Nodup :=
      List.Nodup.of_map _ (distinct.nodup_keys fun _ => kind_of_delta?)
    have names : (arranged.map (·.name)).Nodup := by
      refine List.Nodup.map_on (fun e mem e' mem' same => ?_)
        (perm.nodup_iff.2 (entries.filter _))
      exact (selected e' mem').2.2 e (selected e mem).1 same
    refine ⟨arranged, validateDeltas_of_forward ?_ names (forward names), perm⟩
    rw [List.forall₂_map_left_iff, List.forall₂_same]
    intro e mem
    obtain ⟨mem, plain, unique⟩ := selected e mem
    exact Namespace.resolve_of_unique mem plain unique none

/-! ## Two products -/

/-- A delta that does nothing, for products with a feature. -/
def idleDelta (name : String) (after : List String) (feature : String) : DeltaDecl :=
  ⟨name, none, after, [], some (.feature feature), [], none⟩

/-- A product with one feature, and two deltas for the feature, the second to be applied first. -/
def orderedModel : Model :=
  ⟨[⟨none, [⟨"M", [.delta (idleDelta "D" ["E"] "F"), .delta (idleDelta "E" [] "F"),
    .product ⟨"P", ["F"], none⟩], none⟩]⟩]⟩

theorem validateDeltas_resolveProduct_iff_orderedModel :
    ∃ p c, (checkModel orderedModel).hasErrors = false ∧
      (SymbolTable.ofModel orderedModel).products.resolve none "P" = .ok p ∧
      orderedModel.resolveProduct "P" = .ok c ∧ c.deltas = ["E", "D"] ∧
      ∃ es, orderedModel.validateDeltas c.deltas = .ok es ∧
        es.Perm (orderedModel.deltaEntries.filter (·.decl.appliesTo p.decl.features)) := by
  have checked : (checkModel orderedModel).hasErrors = false := by decide +kernel
  obtain ⟨p, product⟩ : ∃ p, (SymbolTable.ofModel orderedModel).products.resolve none "P" = .ok p :=
    exists_of_isOk (by decide +kernel)
  obtain ⟨c, resolved⟩ : ∃ c, orderedModel.resolveProduct "P" = .ok c :=
    exists_of_isOk (by decide +kernel)
  have deltas : (orderedModel.resolveProduct "P").toOption.map (·.deltas) = some ["E", "D"] := by
    decide +kernel
  rw [resolved] at deltas
  have alone : ∀ e ∈ orderedModel.deltaEntries, orderedModel.NamedAlone e := by decide +kernel
  refine ⟨p, c, checked, product, resolved, Option.some.inj deltas,
    (validateDeltas_resolveProduct_iff checked product resolved).2 fun e mem _ => alone e mem⟩

/-- Two modules with a delta of the same name, one of which applies to the product. -/
def twinModel : Model :=
  ⟨[⟨none, [⟨"A", [.delta (idleDelta "D" [] "F"), .product ⟨"P", ["F"], none⟩], none⟩,
    ⟨"B", [.delta (idleDelta "D" [] "G")], none⟩]⟩]⟩

/-- A product of a model without errors is resolved to a list of deltas that is refused. -/
theorem validateDeltas_resolveProduct_twinModel :
    (checkModel twinModel).hasErrors = false ∧
      twinModel.resolveProduct "P" = .ok ⟨some "P", ["D"]⟩ ∧
      twinModel.validateDeltas ["D"] = .error [.errorAt .ambiguousName
        "delta D is declared in several modules: A, B" none] := by
  refine ⟨?_, ?_, ?_⟩ <;> decide +kernel

end Model

end DeltaLang
