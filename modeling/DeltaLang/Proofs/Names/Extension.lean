import DeltaLang.Proofs.Names.Checked

/-!
# Interface extension as it is checked and as it is followed

A name of an `extends` clause is checked as seen from the module of the interface, but followed as
seen from outside of all modules.  The two differ for a plain name that several modules declare:
checking finds the interface of the own module, and the walks along extension find an ambiguity and
skip the name.  So what is followed is the checked graph without the edges of such names.
-/

namespace DeltaLang

namespace SymbolTable

variable {t : SymbolTable} {i j : Entry InterfaceDecl}

/-- The interfaces that an interface extends, as seen from its module. -/
def checkedParents (t : SymbolTable) (i : Entry InterfaceDecl) : List (Entry InterfaceDecl) :=
  i.decl.parents.filterMap fun name => (t.interfaces.resolve (some i.module) name).toOption

/-- The first interface extends the second as seen from its module, by a name that is qualified or
that one module only declares. -/
def ExtendsByOneModule (t : SymbolTable) (i j : Entry InterfaceDecl) : Prop :=
  ∃ name ∈ i.decl.parents, t.interfaces.NamesOneModule name ∧
    t.interfaces.resolve (some i.module) name = .ok j

/-! ## Edges -/

namespace ParentsDeclared

variable (declared : t.ParentsDeclared)

include declared

theorem extends_iff (mem : i ∈ t.interfaces) : t.Extends i j ↔ t.ExtendsByOneModule i j := by
  constructor
  · intro edge
    obtain ⟨name, named, found⟩ := List.mem_filterMap.1 edge
    have found := eq_ok_of_toOption found
    obtain ⟨k, seen⟩ := declared i mem name named
    have outside := Namespace.resolve_none_of_resolve seen
    split at outside
    · rename_i one
      rw [outside] at found
      obtain rfl := Except.ok.inj found
      exact ⟨name, named, one, seen⟩
    · obtain ⟨modules, ambiguous⟩ := outside
      cases ambiguous.symm.trans found
  · rintro ⟨name, named, one, seen⟩
    refine List.mem_filterMap.2 ⟨name, named, ?_⟩
    rw [Namespace.resolve_none_of_namesOneModule seen one]
    rfl

theorem reaches_iff (mem : i ∈ t.interfaces) :
    t.Reaches i j ↔ Relation.ReflTransGen t.ExtendsByOneModule i j := by
  constructor
  · intro reaches
    induction reaches with
    | refl => exact .refl
    | tail reaches edge ih =>
      exact ih.tail ((declared.extends_iff (Reaches.mem_interfaces reaches mem)).1 edge)
  · intro leads
    induction leads with
    | refl => exact .refl
    | tail _ edge ih =>
      exact ih.tail ((declared.extends_iff (Reaches.mem_interfaces ih mem)).2 edge)

/-- Extension is followed as it is checked exactly where no plain name of several modules is
extended. -/
theorem parents_eq_checkedParents_iff (mem : i ∈ t.interfaces) :
    t.parents i = t.checkedParents i ↔
      ∀ name ∈ i.decl.parents, t.interfaces.NamesOneModule name := by
  constructor
  · intro same name named
    have all : (t.checkedParents i).length = i.decl.parents.length :=
      List.filterMap_length_eq_length.2 fun name named => by
        obtain ⟨j, seen⟩ := declared i mem name named
        rw [seen]
        rfl
    rw [← same] at all
    have followed := List.filterMap_length_eq_length.1 all name named
    obtain ⟨j, seen⟩ := declared i mem name named
    have outside := Namespace.resolve_none_of_resolve seen
    by_contra several
    rw [if_neg several] at outside
    obtain ⟨modules, ambiguous⟩ := outside
    rw [ambiguous] at followed
    cases followed
  · intro one
    refine List.filterMap_congr fun name named => ?_
    obtain ⟨j, seen⟩ := declared i mem name named
    rw [seen, Namespace.resolve_none_of_namesOneModule seen (one name named)]

end ParentsDeclared

end SymbolTable

/-! ## Models that are checked without errors -/

namespace Model

open SymbolTable

variable {m : Model}

/-- In a model that is checked without errors, a name of an `extends` clause means an interface in
the module of the clause, and it is followed to this interface if it is qualified or declared in one
module only, and nowhere otherwise.  So signatures, subtypes and implemented interfaces are those of
the graph of the edges of such names, and each interface is followed as it was checked exactly if
its clause has no other names. -/
theorem extension_followed_iff (checked : (checkModel m).hasErrors = false) :
    let t := SymbolTable.ofModel m
    (∀ i ∈ m.interfaceEntries,
      (∀ name ∈ i.decl.parents, ∃ j, t.interfaces.resolve (some i.module) name = .ok j ∧
        if t.interfaces.NamesOneModule name then t.interfaces.resolve none name = .ok j
        else ∃ modules, t.interfaces.resolve none name = .error (.ambiguous modules)) ∧
      (t.parents i = t.checkedParents i ↔
        ∀ name ∈ i.decl.parents, t.interfaces.NamesOneModule name) ∧
      ∀ sig, sig ∈ t.interfaceMethods i ↔
        ∃ j, Relation.ReflTransGen t.ExtendsByOneModule i j ∧ sig ∈ j.decl.methods) ∧
    (∀ sub sup i j, t.interfaces.resolve none sub = .ok i → t.interfaces.resolve none sup = .ok j →
      (t.isSubinterface sub sup = true ↔ Relation.ReflTransGen t.ExtendsByOneModule i j)) ∧
    ∀ c j, j ∈ t.implementedInterfaces c ↔
      ∃ i ∈ t.implemented c, Relation.ReflTransGen t.ExtendsByOneModule i j := by
  intro t
  have declared : t.ParentsDeclared := parentsDeclared_of_checkModel checked
  have placed : t.Placed := placed_ofModel m
  refine ⟨fun i mem => ⟨fun name named => ?_, declared.parents_eq_checkedParents_iff mem,
    fun sig => ?_⟩, fun sub sup i j found found' => ?_, fun c j => ?_⟩
  · obtain ⟨j, seen⟩ := declared i mem name named
    exact ⟨j, seen, Namespace.resolve_none_of_resolve seen⟩
  · simp only [mem_interfaceMethods_iff placed mem, declared.reaches_iff mem]
  · rw [isSubinterface_iff placed, ← declared.reaches_iff (Namespace.mem_of_resolve_eq_ok found)]
    constructor
    · rintro ⟨i', j', again, again', reaches⟩
      obtain rfl := Except.ok.inj (found.symm.trans again)
      obtain rfl := Except.ok.inj (found'.symm.trans again')
      exact reaches
    · exact fun reaches => ⟨i, j, found, found', reaches⟩
  · have known := fun i => mem_interfaces_of_mem_implemented (t := t) (c := c) (i := i)
    rw [implementedInterfaces, mem_closure_iff placed known]
    exact exists_congr fun i => and_congr_right fun mem => declared.reaches_iff (known i mem)

/-- Two modules with an interface of the same name, one of which extends the one of its own
module and has a class for it, and a third module that extends by a qualified name. -/
def twinInterfacesModel : Model :=
  let sig (name : String) : Signature := { (default : Signature) with name := name }
  ⟨[⟨none, [
    ⟨"A", [.interface ⟨"I", [], [sig "a"], none⟩], none⟩,
    ⟨"B", [.interface ⟨"I", [], [sig "b"], none⟩, .interface ⟨"J", ["I"], [], none⟩,
      .class { (default : ClassDecl) with name := "C", implements := ["J"] }], none⟩,
    ⟨"D", [.interface ⟨"K", ["B.I"], [], none⟩], none⟩]⟩]⟩

/-- The interface of the third module is followed as it was checked. -/
theorem extension_followed_iff_twinInterfacesModel :
    (checkModel twinInterfacesModel).hasErrors = false ∧
      ∃ i ∈ twinInterfacesModel.interfaceEntries, i.name = "K" ∧
        (SymbolTable.ofModel twinInterfacesModel).parents i =
          (SymbolTable.ofModel twinInterfacesModel).checkedParents i := by
  have checked : (checkModel twinInterfacesModel).hasErrors = false := by decide +kernel
  have all : ∃ i ∈ twinInterfacesModel.interfaceEntries, i.name = "K" ∧
      ∀ name ∈ i.decl.parents,
        (SymbolTable.ofModel twinInterfacesModel).interfaces.NamesOneModule name := by
    decide +kernel
  obtain ⟨i, mem, name, one⟩ := all
  exact ⟨checked, i, mem, name, (((extension_followed_iff checked).1 i mem).2.1).2 one⟩

/-- An interface of a model without errors extends the one of its own module, and this is not
followed: the interface has no signatures of the other and is not a subtype of it, and a class of it
need not implement it. -/
theorem extension_not_followed_twinInterfacesModel :
    let t := SymbolTable.ofModel twinInterfacesModel
    (checkModel twinInterfacesModel).hasErrors = false ∧
      ((t.interfaces.resolve (some "B") "I").toOption.map (·.qualifiedName)) = some "B.I" ∧
      (∃ j ∈ t.interfaces, j.qualifiedName = "B.J" ∧ j.decl.parents = ["I"] ∧
        t.parents j = [] ∧ t.interfaceMethods j = []) ∧
      t.isSubinterface "B.J" "B.I" = false ∧
      ∃ c ∈ t.classes, (t.implementedInterfaces c).map (·.qualifiedName) = ["B.J"] := by
  decide +kernel

end Model

end DeltaLang
