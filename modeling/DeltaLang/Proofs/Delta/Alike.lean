import DeltaLang.Proofs.Delta.Applied
import DeltaLang.Proofs.Delta.Locality
import DeltaLang.Proofs.Delta.Related

/-!
# Models alike up to applied clauses

Two models are alike if they only differ in classes that are the same with their clauses applied.
Deltas that leave the traits alone keep them alike, and composing them yields the same product.
-/

namespace DeltaLang

/-- The same declaration, or two classes that are the same with their clauses applied. -/
inductive Decl.Alike (t : SymbolTable) (r : Resolver) (module : String) : Decl → Decl → Prop
  | same (d : Decl) : Alike t r module d d
  | applied {c c' : ClassDecl} (distinct : (c.methods.map (·.name)).Nodup)
      (distinct' : (c'.methods.map (·.name)).Nodup)
      (same : t.applied module r c = t.applied module r c') :
      Alike t r module (.class c) (.class c')

/-- The same module with declarations that are alike. -/
structure Module.Alike (t : SymbolTable) (r : Resolver) (a b : Module) : Prop where
  name : a.name = b.name
  loc : a.loc = b.loc
  decls : List.Forall₂ (Decl.Alike t r a.name) a.decls b.decls

variable {t : SymbolTable} {r : Resolver}

theorem Decl.Alike.kind {module : String} {d d' : Decl} (h : Decl.Alike t r module d d') :
    d.kind = d'.kind := by
  cases h <;> rfl

theorem Decl.Alike.name {module : String} {d d' : Decl} (h : Decl.Alike t r module d d') :
    d.name = d'.name := by
  cases h with
  | same => rfl
  | applied _ _ same => exact congrArg (·.rest.name) same

namespace Module.Alike

variable {a b : Module} (h : Module.Alike t r a b)

include h

theorem position? (kind : DeclKind) (name : String) :
    a.position? kind name = b.position? kind name :=
  findIdx?_eq_of_forall₂ h.decls fun d d' alike => by rw [alike.kind, alike.name]

theorem append (d : Decl) :
    Module.Alike t r { a with decls := a.decls ++ [d] } { b with decls := b.decls ++ [d] } :=
  ⟨h.name, h.loc, List.rel_append h.decls (.cons (.same d) .nil)⟩

end Module.Alike

namespace Model

variable {m m' : Model} {path : DeclPath} {delta module : String}

/-! ## Edits at a place -/

/-- The models only differ in classes that are the same with their clauses applied. -/
def Alike (t : SymbolTable) (r : Resolver) (m m' : Model) : Prop :=
  m.Related (Module.Alike t r) m'

theorem Alike.exists_entry (h : m.Alike t r m') {e : Entry Decl}
    (found : m.entry? path = some e) :
    ∃ d, m'.entry? path = some ⟨path, e.module, d.name, d⟩ ∧ Decl.Alike t r e.module e.decl d :=
  Related.exists_entry h (fun _ _ alike => alike.name) (fun _ _ alike => alike.decls) found

/-- Declarations that are alike can replace those at a place. -/
theorem Alike.setDecl (h : m.Alike t r m') {e : Entry Decl} (found : m.entry? path = some e)
    {d d' : Decl} (alike : Decl.Alike t r e.module d d') :
    (m.modifyDecl path fun _ => d).Alike t r (m'.modifyDecl path fun _ => d') :=
  Related.setDecl h found fun _ _ named related =>
    ⟨related.name, related.loc, forall₂_modify related.decls fun _ _ _ _ _ => named ▸ alike⟩

theorem Alike.eraseDecl (h : m.Alike t r m') (path : DeclPath) :
    (m.eraseDecl path).Alike t r (m'.eraseDecl path) :=
  Related.modifyModule h fun _ _ _ _ related =>
    ⟨related.name, related.loc, forall₂_eraseIdx related.decls path.decl⟩

theorem Alike.locate (h : m.Alike t r m') (kind : DeclKind) (name preferred : String) :
    m.locate kind name preferred = m'.locate kind name preferred :=
  Related.locate h (fun _ _ alike => alike.name) (fun _ _ alike => alike.position? kind)
    name preferred

/-- Models that are alike declare the same, apart from classes. -/
theorem Alike.unplaced_entries (h : m.Alike t r m') {α : Type} {f : Decl → Option α}
    (notClass : ∀ c, f (.class c) = none) :
    (m.entries.filterMap (Entry.narrow f)).map Entry.unplaced =
      (m'.entries.filterMap (Entry.narrow f)).map Entry.unplaced := by
  rw [Model.unplaced_entries, Model.unplaced_entries]
  refine flatMap_eq_of_forall₂ (Related.modules h) fun a b alike => ?_
  refine filterMap_eq_of_forall₂ alike.decls fun d d' same => ?_
  rw [alike.name]
  cases same with
  | same => rfl
  | applied => rw [notClass, notClass, Option.map_none, Option.map_none]

theorem Alike.sameTraits (h : m.Alike t r m') :
    (SymbolTable.ofModel m).SameTraits (.ofModel m') := h.unplaced_entries fun _ => rfl

/-! ## Operations of a delta -/

theorem addDecl_agree (h : m.Alike t r m') (d : Decl) :
    Agree (Alike t r) (m.addDecl delta module d) (m'.addDecl delta module d) := by
  have targets := Related.module? h (fun _ _ alike => alike.name) module
  rw [addDecl, addDecl]
  generalize m.module? module = a, m'.module? module = b at targets
  cases targets with
  | none => exact .ok h
  | some alike =>
    dsimp only
    rw [alike.position?]
    split
    · exact .error _
    · exact .ok (Related.appendTo h (fun _ _ alike => alike.name) fun _ _ _ alike => alike.append d)

theorem removeDecl_agree (h : m.Alike t r m') (kind : DeclKind) (name : String)
    (loc : Option Location) :
    Agree (Alike t r) (m.removeDecl delta module kind name loc)
      (m'.removeDecl delta module kind name loc) := by
  rw [removeDecl, removeDecl, h.locate]
  cases m'.locate kind name module with
  | error err => exact .error _
  | ok path => exact .ok (h.eraseDecl path)

theorem modifyInterface_reported (h : m.Alike t r m') (delta module : String)
    (mod : InterfaceModifier) :
    Reported (Alike t r) (m.modifyInterface delta module mod)
      (m'.modifyInterface delta module mod) := by
  rw [modifyInterface, modifyInterface, ← h.locate]
  cases located : m.locate .interface mod.name module with
  | error err => exact ⟨h, rfl⟩
  | ok path =>
    obtain ⟨d, found, kind, -⟩ := exists_of_locate located
    obtain ⟨owner, entry⟩ := exists_entry_of_decl? found
    obtain ⟨d', entry', alike⟩ := h.exists_entry entry
    cases alike with
    | same =>
      cases d with
      | interface i =>
        simp only [found, decl?_of_entry?_eq_some entry']
        exact ⟨h.setDecl entry (.same _), rfl⟩
      | _ => cases kind
    | applied => cases kind

/-- A class can be modified before or after its clauses are applied. -/
theorem modifyClass_reported (settled : t.Settled) (ready : r.Ready t) (h : m.Alike t r m')
    (traits : (SymbolTable.ofModel m).SameTraits t) (delta module : String)
    (mod : ClassModifier) :
    Reported (Alike t r) (m.modifyClass delta module mod) (m'.modifyClass delta module mod) := by
  have traits' : (SymbolTable.ofModel m').SameTraits t := h.sameTraits.symm.trans traits
  rw [modifyClass, modifyClass, ← h.locate]
  cases located : m.locate .class mod.name module with
  | error err => exact ⟨h, rfl⟩
  | ok path =>
    obtain ⟨d, found, kind, -⟩ := exists_of_locate located
    obtain ⟨owner, entry⟩ := exists_entry_of_decl? found
    obtain ⟨d', entry', alike⟩ := h.exists_entry entry
    cases alike with
    | same =>
      cases d with
      | «class» c =>
        simp only [entry, entry', traits.modifyClass, traits'.modifyClass]
        exact ⟨h.setDecl entry (.same _), rfl⟩
      | _ => cases kind
    | @applied c c' distinct distinct' same =>
      obtain ⟨kept, modified⟩ := SymbolTable.applied_modifyClass settled ready distinct delta mod
      obtain ⟨kept', modified'⟩ := SymbolTable.applied_modifyClass settled ready distinct' delta mod
      rw [same, ← modified', Prod.mk.injEq] at modified
      simp only [entry, entry', traits.modifyClass, traits'.modifyClass]
      exact ⟨h.setDecl entry (.applied kept kept' modified.1), modified.2⟩

/-- An operation that leaves the traits alone keeps models alike. -/
theorem applyOp_reported (settled : t.Settled) (ready : r.Ready t) {op : DeltaOp}
    (leaves : op.target.1 ≠ .trait) {st st' : Model × Diagnostics}
    (h : Reported (Alike t r) st st') (traits : (SymbolTable.ofModel st.1).SameTraits t) :
    Reported (Alike t r) (applyOp delta module st op) (applyOp delta module st' op) := by
  cases op with
  | addInterface i | addClass c => exact (addDecl_agree h.1 _).attempt h
  | removeInterface name loc | removeClass name loc =>
    exact (removeDecl_agree h.1 _ name loc).attempt h
  | addTrait t | removeTrait name loc | modifyTrait name expr loc => cases leaves rfl
  | modifyInterface mod =>
    have modified := modifyInterface_reported h.1 delta module mod
    exact ⟨modified.1, congrArg₂ _ h.2 modified.2⟩
  | modifyClass mod =>
    have modified := modifyClass_reported settled ready h.1 traits delta module mod
    exact ⟨modified.1, congrArg₂ _ h.2 modified.2⟩

/-! ## Deltas -/

/-- A delta that leaves the traits alone keeps models alike, and their traits. -/
theorem applyDelta_reported (settled : t.Settled) (ready : r.Ready t) {d : DeltaDecl}
    (leaves : d.LeavesTraits) (h : m.Alike t r m')
    (traits : (SymbolTable.ofModel m).SameTraits t) (module : String) :
    Reported (Alike t r) (m.applyDelta module d) (m'.applyDelta module d) ∧
      (SymbolTable.ofModel (m.applyDelta module d).1).SameTraits t := by
  let Q (st st' : Model × Diagnostics) : Prop :=
    Reported (Alike t r) st st' ∧ (SymbolTable.ofModel st.1).SameTraits t
  have targets := Related.module? h (fun _ _ alike => alike.name) (d.uses.getD module)
  have start : m.missingModule d (d.uses.getD module) =
      m'.missingModule d (d.uses.getD module) := by
    rw [missingModule, missingModule]
    generalize m.module? _ = a, m'.module? _ = b at targets
    cases targets <;> rfl
  refine List.foldl_rel (r := Q) ⟨⟨h, start⟩, traits⟩ fun op mem st st' related => ?_
  have leaves := leaves op mem
  exact ⟨applyOp_reported settled ready leaves related.1 related.2,
    (sameTraits_applyOp leaves st).trans related.2⟩

/-- Deltas that leave the traits alone keep models alike. -/
theorem applyDeltas_agree (settled : t.Settled) (ready : r.Ready t)
    {es es' : List (Entry DeltaDecl)} (same : es.map Entry.unplaced = es'.map Entry.unplaced)
    (leaves : ∀ e ∈ es, e.decl.LeavesTraits) (h : m.Alike t r m')
    (traits : (SymbolTable.ofModel m).SameTraits t) :
    Agree (fun n n' => n.Alike t r n' ∧ (SymbolTable.ofModel n).SameTraits t)
      (m.applyDeltas es) (m'.applyDeltas es') := by
  induction es generalizing es' m m' with
  | nil =>
    obtain rfl := List.map_eq_nil_iff.1 same.symm
    exact .ok ⟨h, traits⟩
  | cons e es ih =>
    cases es' with
    | nil => cases same
    | cons e' es' =>
      rw [List.map_cons, List.map_cons, List.cons.injEq] at same
      have module : e.module = e'.module := (congrArg Entry.module same.1 :)
      have decl : e.decl = e'.decl := (congrArg Entry.decl same.1 :)
      obtain ⟨⟨alike, findings⟩, traits⟩ :=
        applyDelta_reported settled ready (leaves e List.mem_cons_self) h traits e.module
      rw [applyDeltas, applyDeltas, ← module, ← decl]
      dsimp only
      rw [← findings]
      split
      · exact ih same.2 (fun e' mem => leaves e' (List.mem_cons_of_mem e mem)) alike traits
      · exact .error _

/-! ## Composition -/

theorem Alike.mapModules_compose (h : m.Alike t r m') :
    m.mapModules (Module.compose t r) = m'.mapModules (Module.compose t r) := by
  refine congrArg Model.mk (map_eq_of_forall₂ h fun u u' related => ?_)
  refine congrArg₂ CompilationUnit.mk related.1 (map_eq_of_forall₂ related.2 fun a b alike => ?_)
  rw [Module.compose, Module.compose, alike.name, alike.loc]
  refine congrArg (Module.mk b.name · b.loc) (map_eq_of_forall₂ alike.decls fun d d' same => ?_)
  cases same with
  | same => rfl
  | applied _ _ same =>
    rw [alike.name] at same
    exact congrArg Decl.class (SymbolTable.composedClass_congr same)

/-- The findings made when each class is composed are those of one another. -/
theorem Alike.classFindings (h : m.Alike t r m') :
    (m.classEntries.flatMap fun e => (t.composeClass e.module e.decl r).findings) =
      m'.classEntries.flatMap fun e => (t.composeClass e.module e.decl r).findings := by
  let f (e : Entry ClassDecl) : Diagnostics := (t.composeClass e.module e.decl r).findings
  have related : List.Forall₂ (fun e e' => f e = f e') (m.classEntries.map Entry.unplaced)
      (m'.classEntries.map Entry.unplaced) := by
    rw [classEntries, classEntries, Model.unplaced_entries, Model.unplaced_entries]
    refine List.rel_flatMap (Related.modules h) fun a b alike => ?_
    refine List.rel_filterMap (fun d d' same => ?_) alike.decls
    cases same with
    | same =>
      rw [alike.name]
      cases d.class? with
      | none => exact .none
      | some c => exact .some rfl
    | @applied c c' _ _ same =>
      have composed : t.composeClass a.name c r = t.composeClass b.name c' r :=
        (SymbolTable.composeClass_congr same).trans (by rw [alike.name])
      exact .some (congrArg Resolved.findings composed)
  have findings := flatMap_eq_of_forall₂ related fun _ _ => id
  rw [List.flatMap_map, List.flatMap_map] at findings
  exact findings

/-- Composing models that are alike yields the same model and findings. -/
theorem Alike.composeClasses (h : m.Alike t (resolveTraits t .fresh).1 m')
    (traits : (SymbolTable.ofModel m).SameTraits t) : m.composeClasses = m'.composeClasses := by
  have traits' : (SymbolTable.ofModel m').SameTraits t := h.sameTraits.symm.trans traits
  rw [composeClasses_eq_of_sameTraits traits, composeClasses_eq_of_sameTraits traits',
    h.mapModules_compose, h.classFindings]

end Model

end DeltaLang
