import DeltaLang.Proofs.Names.Bounds
import DeltaLang.Typing.Ty

/-!
# Tables inside of others

One table is embedded in another for some simple names if these names mean in the other table what
they mean in the first one, at other places.  The walks along interface extension only look names
up, so if they only come across such names, they do in the other table what they do in the first.
-/

namespace DeltaLang

/-! ## Moved entries -/

namespace Entry

variable {α β : Type}

/-- The entry at another place. -/
def move (f : DeclPath → DeclPath) (e : Entry α) : Entry α := { e with path := f e.path }

variable (f : DeclPath → DeclPath) (e : Entry α)

@[simp] theorem move_path : (e.move f).path = f e.path := rfl

@[simp] theorem move_module : (e.move f).module = e.module := rfl

@[simp] theorem move_name : (e.move f).name = e.name := rfl

@[simp] theorem move_decl : (e.move f).decl = e.decl := rfl

@[simp] theorem move_qualifiedName : (e.move f).qualifiedName = e.qualifiedName := rfl

end Entry

theorem toOption_map {ε α β : Type} (r : Except ε α) (g : α → β) :
    (r.map g).toOption = r.toOption.map g := by
  cases r <;> rfl

/-! ## Namespaces -/

namespace Namespace

variable {α : Type} {ns ns' : Namespace α} {S : String → Prop} {f : DeclPath → DeclPath}

/-- A name is resolved among the declarations of its simple name. -/
theorem resolve_eq_of_filter_eq {name : String}
    (same : ns'.filter (·.name == simpleName name) = ns.filter (·.name == simpleName name))
    (frm : Option String) : ns'.resolve frm name = ns.resolve frm name := by
  rw [simpleName] at same
  simp only [resolve, same]

/-- The names with simple names in `S` mean in the second namespace what they mean in the first,
which is a part of it, at other places. -/
structure Embeds (S : String → Prop) (f : DeclPath → DeclPath) (ns ns' : Namespace α) : Prop where
  sublist : (ns.map (Entry.move f)).Sublist ns'
  resolve : ∀ frm name, S (simpleName name) →
    ns'.resolve frm name = (ns.resolve frm name).map (Entry.move f)

theorem resolve_map_move (ns : Namespace α) (frm : Option String) (name : String) :
    Namespace.resolve (ns.map (Entry.move f)) frm name =
      (ns.resolve frm name).map (Entry.move f) :=
  resolve_map (g := Entry.move f) (fun _ => rfl) (fun _ => rfl) frm name

/-- Names mean what they mean in a part if what comes before and after has other simple names. -/
theorem embeds_of_append (front back : Namespace α) {f : DeclPath → DeclPath}
    (parts : ns' = front ++ ns.map (Entry.move f) ++ back)
    (hfront : ∀ e ∈ front, ¬S (simpleName e.name)) (hback : ∀ e ∈ back, ¬S (simpleName e.name)) :
    ns.Embeds S f ns' where
  sublist := parts ▸ (List.sublist_append_right _ _).trans (List.sublist_append_left _ _)
  resolve frm name named := by
    have others {es : Namespace α} (h : ∀ e ∈ es, ¬S (simpleName e.name)) :
        es.filter (·.name == simpleName name) = [] :=
      List.filter_eq_nil_iff.2 fun e mem same => h e mem <| by
        rw [beq_iff_eq.1 same, simpleName_simpleName]
        exact named
    rw [← resolve_map_move]
    refine resolve_eq_of_filter_eq ?_ frm
    rw [parts, List.filter_append, List.filter_append, others hfront, others hback,
      List.nil_append, List.append_nil]

theorem Embeds.length_le (h : ns.Embeds S f ns') : ns.length ≤ ns'.length := by
  rw [← List.length_map (Entry.move f)]
  exact h.sublist.length_le

/-- What a name means has the simple name of the name. -/
theorem simpleName_of_resolve {frm : Option String} {name : String} {e : Entry α}
    (h : ns.resolve frm name = .ok e) : simpleName e.name = simpleName name := by
  rw [name_of_resolve h, ← simpleName, simpleName_simpleName]

end Namespace

/-! ## Tables -/

/-- The names with simple names in `S` mean in the second table what they mean in the first. -/
structure SymbolTable.Embeds (S : String → Prop) (f : DeclPath → DeclPath) (t t' : SymbolTable) :
    Prop where
  injective : Function.Injective f
  interfaces : t.interfaces.Embeds S f t'.interfaces
  classes : t.classes.Embeds S f t'.classes
  traits : t.traits.Embeds S f t'.traits
  deltas : t.deltas.Embeds S f t'.deltas

namespace SymbolTable

variable {t t' : SymbolTable} {S : String → Prop} {f : DeclPath → DeclPath}

/-- The interfaces name parents with simple names in `S`. -/
def ParentsIn (S : String → Prop) (t : SymbolTable) : Prop :=
  ∀ i ∈ t.interfaces, ∀ name ∈ i.decl.parents, S (simpleName name)

/-- A descent into interfaces at other places. -/
def Descent.move (f : DeclPath → DeclPath) (st : Descent) : Descent := ⟨st.visited.map f, st.found⟩

namespace Embeds

variable (h : t.Embeds S f t')

include h

theorem path_beq (i j : Entry InterfaceDecl) : (f i.path == f j.path) = (i.path == j.path) := by
  rw [beq_eq_decide, beq_eq_decide, decide_eq_decide]
  exact h.injective.eq_iff

theorem any_path {is : List (Entry InterfaceDecl)} {i : Entry InterfaceDecl} :
    (is.map (Entry.move f)).any (·.path == f i.path) = is.any (·.path == i.path) := by
  rw [List.any_map]
  congr 1
  funext j
  exact h.path_beq j i

variable (parentsIn : t.ParentsIn S)

include parentsIn

theorem parents {i : Entry InterfaceDecl} (mem : i ∈ t.interfaces) :
    t'.parents (i.move f) = (t.parents i).map (Entry.move f) := by
  rw [SymbolTable.parents, SymbolTable.parents, Entry.move_decl, List.map_filterMap]
  refine List.filterMap_congr fun name named => ?_
  rw [h.interfaces.resolve none name (parentsIn i mem name named), toOption_map]

/-! ## Signatures -/

theorem descend (depth : Nat) {i : Entry InterfaceDecl} (mem : i ∈ t.interfaces) (st : Descent) :
    t'.descend depth (i.move f) (st.move f) = (t.descend depth i st).move f := by
  induction depth generalizing i st with
  | zero => rfl
  | succ depth ih =>
    have entered : (i.move f).path ∈ (st.move f).visited ↔ i.path ∈ st.visited :=
      List.mem_map_of_injective h.injective
    rw [SymbolTable.descend, SymbolTable.descend]
    simp only [entered]
    split
    · rfl
    · rw [h.parents parentsIn mem, List.foldl_map]
      refine List.foldl_rel (r := fun st' st => st' = Descent.move f st) rfl
        fun p edge _ st eq => ?_
      rw [eq]
      exact ih (mem_interfaces_of_mem_parents edge) st

theorem interfaceMethods (placed : t.Placed) {i : Entry InterfaceDecl} (mem : i ∈ t.interfaces) :
    t'.interfaceMethods (i.move f) = t.interfaceMethods i := by
  have depth : t.descentDepth ≤ t'.descentDepth := Nat.succ_le_succ h.interfaces.length_le
  have moved : t'.descend t'.descentDepth (i.move f) ⟨[], []⟩ = _ :=
    h.descend parentsIn t'.descentDepth mem ⟨[], []⟩
  rw [SymbolTable.interfaceMethods, moved, ← interfaceMethods_eq placed mem depth]
  rfl

theorem findMethod? (placed : t.Placed) {i : Entry InterfaceDecl} (mem : i ∈ t.interfaces)
    (name : String) : t'.findMethod? (i.move f) name = t.findMethod? i name := by
  rw [SymbolTable.findMethod?, SymbolTable.findMethod?, h.interfaceMethods parentsIn placed mem]

/-! ## Closures -/

theorem walk (steps : Nat) {todo : List (Entry InterfaceDecl)}
    (known : ∀ i ∈ todo, i ∈ t.interfaces) (seen : List (Entry InterfaceDecl)) :
    t'.walk steps (todo.map (Entry.move f)) (seen.map (Entry.move f)) =
      (t.walk steps todo seen).map (Entry.move f) := by
  induction steps generalizing todo seen with
  | zero => rfl
  | succ steps ih =>
    cases todo with
    | nil => simp [SymbolTable.walk]
    | cons i todo =>
      rw [List.forall_mem_cons] at known
      rw [List.map_cons, SymbolTable.walk, SymbolTable.walk, Entry.move_path, h.any_path]
      split
      · exact ih known.2 seen
      · rw [h.parents parentsIn known.1, ← List.map_append]
        have next : ∀ j ∈ t.parents i ++ todo, j ∈ t.interfaces :=
          List.forall_mem_append.2 ⟨fun j edge => mem_interfaces_of_mem_parents edge, known.2⟩
        have visited : seen.map (Entry.move f) ++ [i.move f] =
            (seen ++ [i]).map (Entry.move f) := by rw [List.map_append, List.map_singleton]
        rw [visited]
        exact ih next (seen ++ [i])

theorem closure (placed : t.Placed) {roots : List (Entry InterfaceDecl)}
    (known : ∀ i ∈ roots, i ∈ t.interfaces) :
    t'.closure (roots.map (Entry.move f)) = (t.closure roots).map (Entry.move f) := by
  have steps : t.walkSteps roots ≤ t'.walkSteps (roots.map (Entry.move f)) := by
    have edges := (h.interfaces.sublist.flatMap fun i => i.decl.parents).length_le
    rw [List.flatMap_map] at edges
    simp only [walkSteps, List.length_map, Entry.move_decl] at edges ⊢
    omega
  have moved := h.walk parentsIn (t'.walkSteps (roots.map (Entry.move f))) known []
  rw [closure_eq placed known steps] at moved
  exact moved

theorem isSubinterface (placed : t.Placed) {sub sup : String} (hsub : S (simpleName sub))
    (hsup : S (simpleName sup)) : t'.isSubinterface sub sup = t.isSubinterface sub sup := by
  rw [SymbolTable.isSubinterface, SymbolTable.isSubinterface, h.interfaces.resolve none sub hsub,
    h.interfaces.resolve none sup hsup]
  cases found : t.interfaces.resolve none sub with
  | error err => rfl
  | ok i =>
    cases t.interfaces.resolve none sup with
    | error err => rfl
    | ok target =>
      have known : ∀ j ∈ [i], j ∈ t.interfaces :=
        List.forall_mem_singleton.2 (Namespace.mem_of_resolve_eq_ok found)
      have moved := h.closure parentsIn placed known
      rw [List.map_singleton] at moved
      simp only [Except.map, moved]
      exact h.any_path

/-! ## Implemented interfaces -/

omit parentsIn in
theorem implemented {c : Entry ClassDecl}
    (named : ∀ name ∈ c.decl.implements, S (simpleName name)) :
    t'.implemented (c.move f) = (t.implemented c).map (Entry.move f) := by
  rw [SymbolTable.implemented, SymbolTable.implemented, Entry.move_decl, Entry.move_module,
    List.map_filterMap]
  refine List.filterMap_congr fun name mem => ?_
  rw [h.interfaces.resolve _ name (named name mem), toOption_map]

theorem implementedInterfaces (placed : t.Placed) {c : Entry ClassDecl}
    (named : ∀ name ∈ c.decl.implements, S (simpleName name)) :
    t'.implementedInterfaces (c.move f) = (t.implementedInterfaces c).map (Entry.move f) := by
  rw [SymbolTable.implementedInterfaces, SymbolTable.implementedInterfaces, h.implemented named]
  exact h.closure parentsIn placed fun i mem => mem_interfaces_of_mem_implemented mem

end Embeds

end SymbolTable

end DeltaLang
