import DeltaLang.Proofs.Names.Resolve
import DeltaLang.Proofs.Program.Entries
import Mathlib.Data.List.Sort

/-!
# Scanning a model and looking names up in its table

A model is scanned module by module for the first declaration of a kind and simple name, while a
namespace lists all declarations of a kind.  What a scan finds are the first ones of the blocks into
which modules divide that list.  All that is asked of the finds is which comes first, in a module or
at all, and which modules there are.  Blocks and their first elements agree on this, also if modules
or declarations are repeated, so that both ways of looking a name up do.
-/

namespace DeltaLang

/-! ## First elements of blocks -/

section

variable {α β κ : Type} {f : α → List β} {l : List α}

/-- What does not tell elements of a block apart finds the same among the first elements. -/
theorem find?_filterMap_head? {p : β → Bool}
    (block : ∀ a ∈ l, ∀ b ∈ f a, ∀ b' ∈ f a, p b = p b') :
    (l.filterMap fun a => (f a).head?).find? p = (l.flatMap f).find? p := by
  induction l with
  | nil => rfl
  | cons a l ih =>
    obtain ⟨here, later⟩ := List.forall_mem_cons.1 block
    rw [List.flatMap_cons, List.find?_append, List.filterMap_cons, ← ih later]
    cases hf : f a with
    | nil => rfl
    | cons b bs =>
      rw [List.head?_cons, List.find?_cons, List.find?_cons]
      cases hb : p b with
      | true => rfl
      | false =>
        have none : bs.find? p = none := List.find?_eq_none.2 fun b' mem => by
          rw [here b' (by simp [hf, mem]) b (by simp [hf]), hb]
          exact Bool.false_ne_true
        simp only [none, Option.none_or]

theorem head?_filterMap_head? (f : α → List β) (l : List α) :
    (l.filterMap fun a => (f a).head?).head? = (l.flatMap f).head? := by
  have found := find?_filterMap_head? (f := f) (l := l) (p := fun _ => true) fun _ _ _ _ _ _ => rfl
  rwa [← List.head?_filter, ← List.head?_filter, List.filter_true, List.filter_true] at found

/-- A key of a block is the key of its first element. -/
theorem mem_map_filterMap_head? {key : β → κ}
    (block : ∀ a ∈ l, ∀ b ∈ f a, ∀ b' ∈ f a, key b = key b') (k : κ) :
    k ∈ (l.filterMap fun a => (f a).head?).map key ↔ k ∈ (l.flatMap f).map key := by
  simp only [List.mem_map, List.mem_filterMap, List.mem_flatMap]
  constructor
  · rintro ⟨b, ⟨a, mem, first⟩, rfl⟩
    exact ⟨b, ⟨a, mem, List.mem_of_head? first⟩, rfl⟩
  · rintro ⟨b, ⟨a, mem, hb⟩, rfl⟩
    obtain ⟨b', bs, hf⟩ := List.exists_cons_of_ne_nil (List.ne_nil_of_mem hb)
    exact ⟨b', ⟨a, mem, by rw [hf, List.head?_cons]⟩, block a mem b' (by simp [hf]) b hb⟩

end

/-! ## Names in ascending order -/

theorem pairwise_insertName {name : String} {ns : List String} (ascending : ns.Pairwise (· < ·)) :
    (insertName name ns).Pairwise (· < ·) := by
  induction ns with
  | nil => exact List.pairwise_singleton _ _
  | cons n ns ih =>
    obtain ⟨first, rest⟩ := List.pairwise_cons.1 ascending
    rw [insertName]
    split
    · rename_i before
      refine List.pairwise_cons.2 ⟨fun n' mem => ?_, ascending⟩
      rcases List.mem_cons.1 mem with rfl | mem
      · exact before
      · exact String.lt_trans before (first n' mem)
    · split
      · rename_i after
        refine List.pairwise_cons.2 ⟨fun n' mem => ?_, ih rest⟩
        rcases mem_insertName.1 mem with rfl | mem
        · exact after
        · exact first n' mem
      · exact ascending

theorem pairwise_sortNames (names : List String) : (sortNames names).Pairwise (· < ·) := by
  induction names with
  | nil => exact .nil
  | cons name names ih => exact pairwise_insertName ih

/-- Sorting only depends on which names there are. -/
theorem sortNames_congr {names names' : List String} (same : ∀ n, n ∈ names ↔ n ∈ names') :
    sortNames names = sortNames names' :=
  (pairwise_sortNames names).eq_of_mem_iff (pairwise_sortNames names') fun n => by
    rw [mem_sortNames, mem_sortNames, same]

/-! ## The blocks of a model -/

namespace Model

variable {m : Model} {kind : DeclKind} {simple : String}

/-- The modules with the places of their units and their own. -/
def placedModules (m : Model) : List (Module × Nat × Nat) :=
  m.units.zipIdx.flatMap fun (unit, u) => unit.modules.zipIdx.map fun (module, i) => (module, u, i)

/-- The entries of a module at a place. -/
def entriesAt (s : Module × Nat × Nat) : List (Entry Decl) :=
  s.1.decls.zipIdx.map fun (decl, d) => ⟨⟨s.2.1, s.2.2, d⟩, s.1.name, decl.name, decl⟩

theorem entries_eq_flatMap (m : Model) : m.entries = m.placedModules.flatMap entriesAt := by
  rw [placedModules, List.flatMap_assoc]
  exact List.flatMap_congr fun s _ => by rw [List.flatMap_map]; rfl

/-- The entry is of a declaration of that kind and name. -/
def declares (kind : DeclKind) (simple : String) (e : Entry Decl) : Bool :=
  e.decl.kind == kind && e.name == simple

/-- The entries of a module that are of that kind and name. -/
def blockAt (kind : DeclKind) (simple : String) (s : Module × Nat × Nat) : List (Entry Decl) :=
  (entriesAt s).filter (declares kind simple)

theorem module_of_mem_blockAt {s : Module × Nat × Nat} {e : Entry Decl}
    (mem : e ∈ blockAt kind simple s) : e.module = s.1.name := by
  obtain ⟨_, -, rfl⟩ := List.mem_map.1 (List.mem_filter.1 mem).1
  rfl

/-- The first position of a module is that of the first element of its block. -/
theorem head?_blockAt (s : Module × Nat × Nat) :
    (blockAt kind simple s).head?.map (fun e => (e.module, e.path)) =
      (s.1.position? kind simple).map fun d => (s.1.name, ⟨s.2.1, s.2.2, d⟩) := by
  rw [blockAt, List.head?_filter, entriesAt, List.find?_map, Option.map_map, Module.position?,
    List.findIdx?_eq_fst_find?_zipIdx, Option.map_map]
  rfl

/-- The first declaration of that kind and name in each module. -/
def firsts (m : Model) (kind : DeclKind) (simple : String) : List (Entry Decl) :=
  m.placedModules.filterMap fun s => (blockAt kind simple s).head?

/-- A scan sees the first declarations in the modules that it looks into. -/
theorem sightings_eq_firsts (qualifier : Option String) :
    m.sightings kind qualifier simple =
      ((m.firsts kind simple).filter fun e => qualifier.all (· == e.module)).map
        fun e => (e.module, e.path) := by
  have scanned : m.sightings kind qualifier simple = m.placedModules.filterMap fun s =>
      if qualifier.all (· == s.1.name) then
        (blockAt kind simple s).head?.map fun e => (e.module, e.path)
      else none := by
    simp only [head?_blockAt]
    rw [placedModules, List.filterMap_flatMap]
    exact List.flatMap_congr fun s _ => by rw [List.filterMap_map]; rfl
  rw [scanned, firsts, List.filter_filterMap, List.map_filterMap]
  refine List.filterMap_congr fun s _ => ?_
  cases first : (blockAt kind simple s).head? with
  | none => simp
  | some e =>
    rw [← module_of_mem_blockAt (List.mem_of_head? first)]
    by_cases looked : qualifier.all (· == e.module) = true
    · simp [looked]
    · simp [looked]

/-! ## The first declarations and all of them -/

/-- All declarations of that kind and name. -/
def candidates (m : Model) (kind : DeclKind) (simple : String) : List (Entry Decl) :=
  (m.entries.filter (·.decl.kind == kind)).filter (·.name == simple)

theorem candidates_eq_flatMap :
    m.candidates kind simple = m.placedModules.flatMap (blockAt kind simple) := by
  rw [candidates, List.filter_filter, entries_eq_flatMap, List.filter_flatMap]
  refine List.flatMap_congr fun s _ => List.filter_congr fun e _ => ?_
  rw [declares, Bool.and_comm]

theorem find?_firsts (p : String → Bool) :
    (m.firsts kind simple).find? (fun e => p e.module) =
      (m.candidates kind simple).find? fun e => p e.module := by
  rw [candidates_eq_flatMap]
  refine find?_filterMap_head? fun s _ e mem e' mem' => ?_
  rw [module_of_mem_blockAt mem, module_of_mem_blockAt mem']

theorem head?_firsts (m : Model) (kind : DeclKind) (simple : String) :
    (m.firsts kind simple).head? = (m.candidates kind simple).head? := by
  rw [candidates_eq_flatMap]
  exact head?_filterMap_head? (blockAt kind simple) m.placedModules

theorem sortNames_firsts :
    sortNames ((m.firsts kind simple).map (·.module)) =
      sortNames ((m.candidates kind simple).map (·.module)) := by
  rw [candidates_eq_flatMap]
  refine sortNames_congr <| mem_map_filterMap_head? fun s _ e mem e' mem' => ?_
  rw [module_of_mem_blockAt mem, module_of_mem_blockAt mem']

/-- With a qualifier the first declaration of the module is meant. -/
theorem locate_of_qualified {name owner : String} (split : (splitQualified name).1 = some owner)
    (module : String) :
    m.locate kind name module =
      match (m.candidates kind (splitQualified name).2).find? (·.module == owner) with
      | some e => .ok e.path
      | none => .error .unresolved := by
  have inModule (e : Entry Decl) : ((some owner).all (· == e.module)) = (e.module == owner) := by
    rw [Option.all_some, Bool.beq_comm]
  have nowhere (found : List (String × DeclPath)) :
      found.find? (fun f => (some owner).isNone && f.1 == module) = none := by simp
  rw [← find?_firsts (· == owner), ← List.head?_filter]
  unfold locate
  dsimp only
  rw [split, sightings_eq_firsts, nowhere]
  simp only [inModule]
  generalize same : (m.firsts kind (splitQualified name).2).filter (·.module == owner) = found
  rcases found with _ | ⟨e, es⟩
  · rfl
  · -- All that is found is of the one module.
    have one : sortNames (((e :: es).map fun e => (e.module, e.path)).map Prod.fst) = [owner] := by
      refine sortNames_eq_singleton (by simp) fun n mem => ?_
      rw [← same, List.map_map] at mem
      obtain ⟨e', mem', rfl⟩ := List.mem_map.1 mem
      exact beq_iff_eq.1 (List.mem_filter.1 mem').2
    rw [one]
    rfl

/-- A scan comes to the declaration that the name means among all of its kind, or fails alike. -/
theorem locate_eq_resolve_filter (m : Model) (kind : DeclKind) (name module : String) :
    m.locate kind name module =
      (Namespace.resolve (m.entries.filter (·.decl.kind == kind)) (some module) name).map
        Entry.path := by
  unfold Namespace.resolve
  dsimp only
  rw [← candidates.eq_def m kind (splitQualified name).2]
  cases qualifier : (splitQualified name).1 with
  | some owner =>
    rw [locate_of_qualified qualifier]
    dsimp only
    cases (m.candidates kind (splitQualified name).2).find? (·.module == owner) <;> rfl
  | none =>
    unfold locate
    dsimp only
    rw [qualifier, sightings_eq_firsts]
    simp only [Option.all_none, List.filter_true, List.find?_map, List.map_map, Function.comp_def,
      Option.isNone_none, Bool.true_and, sortNames_firsts, find?_firsts (· == module),
      Option.some_beq_some]
    have front := m.head?_firsts kind (splitQualified name).2
    generalize m.firsts kind (splitQualified name).2 = found at front ⊢
    generalize m.candidates kind (splitQualified name).2 = declared at front ⊢
    cases declared.find? (·.module == module) with
    | some e => rfl
    | none =>
      rcases declared with _ | ⟨e, es⟩ <;> rcases found with _ | ⟨e', es'⟩ <;> cases front
      · rfl
      · rcases sortNames _ with _ | ⟨_, _ | _⟩ <;> rfl

/-! ## The namespaces of the table -/

end Model

/-- The entry with its declaration seen as one of any kind. -/
def Entry.widen {α : Type} (f : α → Decl) (e : Entry α) : Entry Decl :=
  ⟨e.path, e.module, e.name, f e.decl⟩

/-- The declaration of that kind that the name means in the module, or outside of all modules. -/
def SymbolTable.resolveKind (t : SymbolTable) (kind : DeclKind) (frm : Option String)
    (name : String) : Except LookupError (Entry Decl) :=
  match kind with
  | .interface => (t.interfaces.resolve frm name).map (Entry.widen .interface)
  | .class => (t.classes.resolve frm name).map (Entry.widen .class)
  | .trait => (t.traits.resolve frm name).map (Entry.widen .trait)
  | .delta => (t.deltas.resolve frm name).map (Entry.widen .delta)
  | .product => (t.products.resolve frm name).map (Entry.widen .product)

namespace Model

variable {m : Model}

/-- What a name means among all entries of a kind it means in the namespace of that kind. -/
theorem resolve_filter_eq_resolve_narrow {α : Type} {f : Decl → Option α} {g : α → Decl}
    {kind : DeclKind} (inverse : ∀ d a, f d = some a ↔ d = g a)
    (ofKind : ∀ d, (f d).isSome = (d.kind == kind)) (m : Model) (frm : Option String)
    (name : String) :
    Namespace.resolve (m.entries.filter (·.decl.kind == kind)) frm name =
      (Namespace.resolve (m.entries.filterMap (Entry.narrow f)) frm name).map (Entry.widen g) := by
  have widened : m.entries.filter (·.decl.kind == kind) =
      (m.entries.filterMap (Entry.narrow f)).map (Entry.widen g) := by
    rw [List.map_filterMap, ← List.filterMap_eq_filter]
    refine List.filterMap_congr fun e _ => ?_
    obtain ⟨path, module, name, d⟩ := e
    rw [Option.guard_apply, ← ofKind, Entry.narrow]
    cases found : f d with
    | none => rfl
    | some a =>
      obtain rfl := (inverse d a).1 found
      rfl
  rw [widened]
  exact Namespace.resolve_map (g := Entry.widen g) (fun _ => rfl) (fun _ => rfl) frm name

theorem resolve_filter_eq_resolveKind (m : Model) (kind : DeclKind) (frm : Option String)
    (name : String) :
    Namespace.resolve (m.entries.filter (·.decl.kind == kind)) frm name =
      (SymbolTable.ofModel m).resolveKind kind frm name := by
  cases kind with
  | interface =>
    exact resolve_filter_eq_resolve_narrow (fun _ _ => interface?_eq_some_iff)
      (fun d => by cases d <;> rfl) m frm name
  | «class» =>
    exact resolve_filter_eq_resolve_narrow (fun _ _ => class?_eq_some_iff)
      (fun d => by cases d <;> rfl) m frm name
  | trait =>
    exact resolve_filter_eq_resolve_narrow (fun _ _ => trait?_eq_some_iff)
      (fun d => by cases d <;> rfl) m frm name
  | delta =>
    exact resolve_filter_eq_resolve_narrow (fun _ _ => delta?_eq_some_iff)
      (fun d => by cases d <;> rfl) m frm name
  | product =>
    exact resolve_filter_eq_resolve_narrow (f := Decl.product?) (g := Decl.product)
      (fun d _ => by cases d <;> simp [Decl.product?]) (fun d => by cases d <;> rfl) m frm name

end Model

/-- An ambiguous name is plain, and the modules that declare it are listed in ascending order. -/
theorem Namespace.eq_sortNames_of_ambiguous {α : Type} {ns : Namespace α} {frm : Option String}
    {name : String} {owners : List String}
    (h : ns.resolve frm name = .error (.ambiguous owners)) :
    owners = sortNames ((ns.filter (·.name == name)).map (·.module)) := by
  by_cases plain : PlainName name
  · simp only [resolve, splitQualified_eq_of_plainName plain] at h
    split at h
    · cases h
    · split at h
      · cases h
      · cases h
      · exact (LookupError.ambiguous.inj (Except.error.inj h)).symm
  · obtain ⟨module, simple, split⟩ := exists_splitQualified_of_not_plainName plain
    simp only [resolve, split] at h
    split at h <;> cases h

namespace Model

/-- A scan for a declaration of some kind and a lookup in the namespace of that kind agree from
every module: they find the same declaration, at its place in the model, or fail for the same
reason.  If the name is ambiguous, both list the modules that declare it in ascending order. -/
theorem locate_eq_resolveKind (m : Model) (kind : DeclKind) (name module : String) :
    let found := (SymbolTable.ofModel m).resolveKind kind (some module) name
    m.locate kind name module = found.map Entry.path ∧
      (∀ e, found = .ok e → m.entry? e.path = some e ∧ e.decl.kind = kind) ∧
      ∀ owners, found = .error (.ambiguous owners) → owners.Pairwise (· < ·) ∧
        ∀ owner, owner ∈ owners ↔
          ∃ e ∈ m.entries, e.decl.kind = kind ∧ e.name = name ∧ e.module = owner := by
  intro found
  have resolved := m.resolve_filter_eq_resolveKind kind (some module) name
  refine ⟨?_, fun e ok => ?_, fun owners ambiguous => ?_⟩
  · rw [locate_eq_resolve_filter, resolved]
  · have mem := List.mem_filter.1 (Namespace.mem_of_resolve_eq_ok (resolved.trans ok))
    exact ⟨mem_entries_iff.1 mem.1, beq_iff_eq.1 mem.2⟩
  · rw [Namespace.eq_sortNames_of_ambiguous (resolved.trans ambiguous)]
    refine ⟨pairwise_sortNames _, fun owner => ?_⟩
    simp only [mem_sortNames, List.mem_map, List.mem_filter, beq_iff_eq, and_assoc]

/-- Two texts that both have a module `A`, with an interface that they repeat and one of a module
`A.B`. -/
def repeatingModel : Model :=
  let i (name : String) : Decl := .interface ⟨name, [], [], none⟩
  ⟨[⟨none, [⟨"A", [i "J", i "I"], none⟩, ⟨"A.B", [i "I"], none⟩]⟩,
    ⟨none, [⟨"A", [i "I", i "I", i "K"], none⟩]⟩]⟩

theorem locate_eq_resolveKind_repeatingModel :
    repeatingModel.locate .interface "I" "A.B" = .ok ⟨0, 1, 0⟩ ∧
    repeatingModel.locate .interface "A.I" "A.B" = .ok ⟨0, 0, 1⟩ ∧
    repeatingModel.locate .interface "K" "A.B" = .ok ⟨1, 0, 2⟩ ∧
    repeatingModel.locate .interface "B.I" "A" = .error .unresolved ∧
    repeatingModel.locate .interface "I" "C" = .error (.ambiguous ["A", "A.B"]) ∧
    ["A", "A.B"].Pairwise (· < ·) := by
  have agree := locate_eq_resolveKind repeatingModel .interface
  exact ⟨(agree "I" "A.B").1.trans (by decide +kernel),
    (agree "A.I" "A.B").1.trans (by decide +kernel), (agree "K" "A.B").1.trans (by decide +kernel),
    (agree "B.I" "A").1.trans (by decide +kernel), (agree "I" "C").1.trans (by decide +kernel),
    ((agree "I" "C").2.2 ["A", "A.B"] rfl).1⟩

end Model

end DeltaLang
