import DeltaLang.Proofs.Delta.Kept
import DeltaLang.Proofs.Program.Distinct
import DeltaLang.Proofs.Reading.Names
import DeltaLang.Proofs.Typing.Isolation
import DeltaLang.Proofs.Typing.Logged

/-!
# Nodes told apart

A node is referred to by its class, its body and its number there.  In a model that is derived from
texts, where modules and the classes of a module have distinct names, classes have distinct
qualified names and the bodies of a class have distinct names.  So no two expressions have the same
node, and no two local variables.
-/

namespace DeltaLang

/-! ## Names of bodies -/

/-- Numbers are written in different ways. -/
theorem toString_nat_injective : Function.Injective (toString : Nat → String) := fun i j same => by
  have digits := congrArg (fun s => Nat.ofDigitChars 10 s.toList 0) same
  simpa [Nat.toString_eq_ofList_toDigits] using digits

namespace SymbolTable

theorem toList_versionBody (name : String) (i : Nat) :
    (versionBody name i).toList =
      name.toList ++ if i = 0 then [] else "#original".toList ++ (toString i).toList := by
  rw [versionBody]
  split <;> simp

/-- Versions of methods with words as names have distinct bodies. -/
theorem versionBody_injective {name name' : String} (word : Word name) (word' : Word name')
    {i i' : Nat} (same : versionBody name i = versionBody name' i') : name = name' ∧ i = i' := by
  have start {name : String} (word : Word name) (i : Nat) :
      (versionBody name i).toList.takeWhile (· ≠ '#') = name.toList := by
    have pass : ∀ c ∈ name.toList, decide (c ≠ '#') = true := fun c mem =>
      decide_eq_true fun eq => word.not_mem (c := '#') (by decide) (eq ▸ mem)
    rw [toList_versionBody, List.takeWhile_append_of_pos pass]
    split <;> simp
  have names : name = name' := String.toList_inj.1 (by rw [← start word i, same, start word'])
  subst names
  refine ⟨rfl, ?_⟩
  have rest := congrArg String.toList same
  rw [toList_versionBody, toList_versionBody, List.append_cancel_left_eq] at rest
  split at rest <;> split at rest
  · simp_all
  · simp at rest
  · simp at rest
  · exact toString_nat_injective (String.toList_inj.1 (List.append_cancel_left rest))

/-- The body of a method is not that of the initial or the recovery block. -/
theorem not_mem_versionBody {name : String} (word : Word name) (i : Nat) :
    '<' ∉ (versionBody name i).toList := by
  have digits : '<' ∉ Nat.toDigits 10 i := fun mem =>
    absurd (Nat.isDigit_of_mem_toDigits (by decide) (by decide) mem) (by decide)
  have bare : '<' ∉ name.toList := word.not_mem (by decide)
  rw [toList_versionBody]
  split
  · simpa using bare
  · simp [bare, digits]

end SymbolTable

/-! ## Bodies of a class -/

theorem nodup_flatMap_of_key {α β κ : Type} {l : List α} {f : α → List β} {key : α → κ}
    (key' : β → κ) (distinct : (l.map key).Nodup) (each : ∀ a ∈ l, (f a).Nodup)
    (keyed : ∀ a ∈ l, ∀ b ∈ f a, key' b = key a) : (l.flatMap f).Nodup := by
  refine List.nodup_flatMap.2 ⟨each, (List.pairwise_map.1 distinct).imp_of_mem ?_⟩
  intro a a' mem mem' differ b hb hb'
  exact differ ((keyed a mem b hb).symm.trans (keyed a' mem' b hb'))

/-- A well-named class with methods of distinct names has bodies of distinct names. -/
theorem ClassDecl.nodup_bodies {c : ClassDecl} (h : c.WellNamed)
    (distinct : (c.methods.map (·.name)).Nodup) : (c.bodies.map Prod.fst).Nodup := by
  let names (m : Method) : List String :=
    m.versions.zipIdx.map fun s => SymbolTable.versionBody s.1.name s.2
  have bodies : c.bodies.map Prod.fst =
      SymbolTable.initBody :: (c.methods.flatMap names ++
        c.recover.toList.map fun _ => SymbolTable.recoverBody) := by
    simp only [ClassDecl.bodies, List.map_append, List.map_cons, List.map_flatMap, List.map_map,
      List.cons_append]
    rfl
  have versions (m : Method) (mem : m ∈ c.methods) :
      names m = (List.range m.versions.length).map (SymbolTable.versionBody m.name) := by
    rw [List.range_eq_range', ← List.zipIdx_map_snd 0 m.versions, List.map_map]
    refine List.map_congr_left fun s hs => ?_
    have named := (h.methods m mem).versions s.1
      (List.mem_of_getElem? (List.mem_zipIdx_iff_getElem?.1 hs))
    exact congrArg (SymbolTable.versionBody · s.2) named
  have base {m : Method} (mem : m ∈ c.methods) {name : String} (hname : name ∈ names m) :
      ∃ i, name = SymbolTable.versionBody m.name i := by
    rw [versions m mem] at hname
    obtain ⟨i, -, rfl⟩ := List.mem_map.1 hname
    exact ⟨i, rfl⟩
  have methods : (c.methods.flatMap names).Nodup := by
    refine List.nodup_flatMap.2 ⟨fun m mem => ?_, ?_⟩
    · rw [versions m mem]
      exact List.nodup_range.map fun i i' same =>
        (SymbolTable.versionBody_injective (h.methods m mem).word (h.methods m mem).word same).2
    · refine (List.pairwise_map.1 distinct).imp_of_mem fun {m m'} mem mem' differ name hm hm' => ?_
      obtain ⟨i, rfl⟩ := base mem hm
      obtain ⟨i', same⟩ := base mem' hm'
      exact differ (SymbolTable.versionBody_injective (h.methods m mem).word
        (h.methods m' mem').word same).1
  have others {name : String} (bracket : '<' ∈ name.toList) : name ∉ c.methods.flatMap names :=
    fun listed => by
      obtain ⟨m, mem, hm⟩ := List.mem_flatMap.1 listed
      obtain ⟨i, rfl⟩ := base mem hm
      exact SymbolTable.not_mem_versionBody (h.methods m mem).word i bracket
  have recover : (c.recover.toList.map fun _ => SymbolTable.recoverBody).Nodup := by
    cases c.recover <;> simp
  rw [bodies, List.nodup_cons, List.nodup_append]
  refine ⟨?_, methods, recover, ?_⟩
  · rw [List.mem_append, not_or]
    refine ⟨others (by decide), fun mem => ?_⟩
    obtain ⟨_, -, same⟩ := List.mem_map.1 mem
    exact absurd same (by decide)
  · rintro name mem _ mem' rfl
    obtain ⟨_, -, rfl⟩ := List.mem_map.1 mem'
    exact others (by decide) mem

/-! ## Nodes of a body -/

def Sight.exprNode? : Sight → Option NodeRef
  | .expr node _ => some node
  | .stmt .. => none

def Sight.localNode? : Sight → Option NodeRef
  | .expr .. => none
  | .stmt _ _ _ declared => declared

/-- The class and the body of the node of an expression or a local variable. -/
def NodeRef.place (n : NodeRef) : List String := n.key.2.1.take 2

/-- The number of the node in its body. -/
def NodeRef.number (n : NodeRef) : Nat := n.key.2.2

section

variable {cls body : String}

/-- The expressions of a body are numbered one after the other. -/
theorem exprNodes_numbered (i j : Nat) (os : List Occurrence) :
    (numbered cls body i j os).filterMap Sight.exprNode? =
      (List.range' i (os.countP Occurrence.isExpr)).map (.expr cls body) := by
  induction os generalizing i j with
  | nil => rfl
  | cons o os ih =>
    rw [numbered]
    cases o with
    | expr e =>
      rw [List.countP_cons_of_pos rfl, List.range'_succ, List.map_cons, ← ih]
      rfl
    | stmt s =>
      rw [List.countP_cons_of_neg (by simp [Occurrence.isExpr]), ← ih]
      rfl

/-- The local variables of a body are numbered one after the other. -/
theorem numbers_localNodes_numbered (i j : Nat) (os : List Occurrence) :
    ((numbered cls body i j os).filterMap Sight.localNode?).map NodeRef.number =
      List.range' j (os.countP Occurrence.declares) := by
  induction os generalizing i j with
  | nil => rfl
  | cons o os ih =>
    rw [numbered]
    cases o with
    | expr e =>
      rw [List.countP_cons_of_neg (by simp [Occurrence.declares]), ← ih]
      rfl
    | stmt s =>
      cases declared : s.declared? with
      | none =>
        have skips : (Occurrence.stmt s).declares = false := by simp [Occurrence.declares, declared]
        have unseen : ((Occurrence.stmt s).sight cls body i j).localNode? = none := by
          simp [Occurrence.sight, Sight.localNode?, declared]
        rw [List.countP_cons_of_neg (by simp [skips]), List.filterMap_cons_none unseen, ih]
        simp [skips]
      | some name =>
        have declares : (Occurrence.stmt s).declares = true := by
          simp [Occurrence.declares, declared]
        have seen : ((Occurrence.stmt s).sight cls body i j).localNode? =
            some (.local cls body name j) := by simp [Occurrence.sight, Sight.localNode?, declared]
        rw [List.countP_cons_of_pos declares, List.range'_succ, List.filterMap_cons_some seen,
          List.map_cons, ih, if_pos declares]
        rfl

theorem place_localNodes_numbered {i j : Nat} {os : List Occurrence} :
    ∀ node ∈ (numbered cls body i j os).filterMap Sight.localNode?, node.place = [cls, body] := by
  induction os generalizing i j with
  | nil => exact fun _ mem => absurd mem List.not_mem_nil
  | cons o os ih =>
    intro node mem
    rw [numbered, List.filterMap_cons] at mem
    cases seen : (o.sight cls body i j).localNode? with
    | none => exact ih node (by simpa [seen] using mem)
    | some node' =>
      simp only [seen, List.mem_cons] at mem
      rcases mem with rfl | mem
      · cases o with
        | expr e => cases seen
        | stmt s =>
          obtain ⟨name, -, rfl⟩ := Option.map_eq_some_iff.1 seen
          rfl
      · exact ih node mem

end

/-! ## Classes told apart -/

/-- The classes of a module have distinct names. -/
def Module.DistinctClasses (mod : Module) : Prop := (mod.classes.map (·.name)).Nodup

namespace Module

/-- The name of the declaration, if it is a class. -/
def className? (d : Decl) : Option String := d.class?.map (·.name)

variable {mod : Module}

theorem distinctClasses_iff : mod.DistinctClasses ↔ (mod.decls.filterMap className?).Nodup := by
  rw [DistinctClasses, classes, List.map_filterMap]
  rfl

theorem className?_eq_some {d : Decl} {name : String} (h : className? d = some name) :
    d.kind = .class ∧ d.name = name := by
  cases d with
  | «class» c => exact ⟨rfl, Option.some.inj h⟩
  | _ => cases h

theorem DistinctClasses.append (h : mod.DistinctClasses) {d : Decl}
    (new : mod.position? d.kind d.name = none) :
    DistinctClasses { mod with decls := mod.decls ++ [d] } := by
  rw [distinctClasses_iff] at h ⊢
  rw [List.filterMap_append]
  cases named : className? d with
  | none => simpa [named] using h
  | some name =>
    obtain ⟨kind, rfl⟩ := className?_eq_some named
    rw [List.filterMap_cons_some named, List.filterMap_nil, List.nodup_append]
    refine ⟨h, List.nodup_singleton _, ?_⟩
    rintro _ old _ last rfl
    rw [List.mem_singleton] at last
    obtain ⟨d', mem, named'⟩ := List.mem_filterMap.1 old
    obtain ⟨kind', name'⟩ := className?_eq_some named'
    simpa [kind, kind', name', last] using List.findIdx?_eq_none_iff.1 new d' mem

end Module

/-- An operation does not change the names of classes. -/
theorem DeltaOp.Changes.className?_eq {delta : String} {op : DeltaOp} {d d' : Decl}
    (h : op.Changes delta d d') : Module.className? d' = Module.className? d := by
  cases h with
  | trait name expr loc t => rfl
  | interface mod i => rfl
  | «class» mod t module c => exact congrArg some (t.name_modifyClass module delta mod c)

theorem DeltaOp.preserves_distinctClasses (delta target : String) (op : DeltaOp) :
    op.Preserves Module.DistinctClasses delta target where
  append _ _ _ _ new distinct := distinct.append new
  erase _ _ distinct := by
    rw [Module.distinctClasses_iff] at distinct ⊢
    exact distinct.sublist ((List.eraseIdx_sublist _ _).filterMap _)
  modify mod i f edits distinct := by
    rw [Module.distinctClasses_iff] at distinct ⊢
    have kept : (mod.decls.modify i f).map Module.className? = mod.decls.map Module.className? :=
      map_modify_of_eq fun d here => by
        obtain same | changed := edits d here
        · rw [same]
        · exact changed.className?_eq
    have names (l : List Decl) :
        l.filterMap Module.className? = (l.map Module.className?).filterMap id := by
      rw [List.filterMap_map, Function.id_comp]
    rw [Module.modifyDecl, names, kept, ← names]
    exact distinct

/-! ## Nodes of a model -/

namespace Model

variable {m m' : Model}

/-- Where bodies are told apart, so are the nodes of expressions. -/
theorem nodup_exprNodes (distinct : (m.bodies.map fun b => [b.1, b.2.1]).Nodup) :
    (m.sights.filterMap Sight.exprNode?).Nodup := by
  rw [sights, List.filterMap_flatMap]
  refine nodup_flatMap_of_key NodeRef.place distinct (fun b _ => ?_) fun b _ node mem => ?_
  · rw [exprNodes_numbered]
    exact (List.nodup_range' ..).map fun i j same => (NodeRef.expr.inj same).2.2
  · rw [exprNodes_numbered] at mem
    obtain ⟨i, -, rfl⟩ := List.mem_map.1 mem
    rfl

/-- Where bodies are told apart, so are the nodes of local variables. -/
theorem nodup_localNodes (distinct : (m.bodies.map fun b => [b.1, b.2.1]).Nodup) :
    (m.sights.filterMap Sight.localNode?).Nodup := by
  rw [sights, List.filterMap_flatMap]
  refine nodup_flatMap_of_key NodeRef.place distinct (fun b _ => ?_) fun b _ node mem => ?_
  · refine List.Nodup.of_map NodeRef.number ?_
    rw [numbers_localNodes_numbered]
    exact List.nodup_range' ..
  · exact place_localNodes_numbered node mem

/-- The classes of a model have distinct qualified names if they have words as names. -/
theorem nodup_qualifiedNames (modules : (m.modules.map Module.name).Nodup)
    (classes : ∀ mod ∈ m.modules, mod.DistinctClasses)
    (words : ∀ e ∈ m.classEntries, Word e.name) :
    (m.classEntries.map Entry.qualifiedName).Nodup := by
  have keys : (m.classEntries.map fun e => (e.module, e.name)).Nodup := by
    refine nodup_entryKeys modules fun mod hmod => ?_
    have names : (mod.decls.filter fun d => d.class?.isSome).map Decl.name =
        mod.decls.filterMap Module.className? := by
      rw [← List.filterMap_eq_map, List.filterMap_filter]
      refine List.filterMap_congr fun d _ => ?_
      cases d <;> rfl
    rw [names, ← Module.distinctClasses_iff]
    exact classes mod hmod
  refine List.Nodup.map_on (fun e mem e' mem' same => ?_) (List.Nodup.of_map _ keys)
  refine List.inj_on_of_nodup_map keys mem mem' ?_
  have split := splitQualified_qualifiedName (words e mem).plainName
  rw [same, splitQualified_qualifiedName (words e' mem').plainName, Prod.mk.injEq,
    Option.some.injEq] at split
  exact Prod.ext split.1.symm split.2.symm

/-- The bodies of a composed model are told apart by their classes and names. -/
theorem nodup_bodies_composeClasses (wellNamed : m.WellNamed)
    (modules : (m.modules.map Module.name).Nodup)
    (classes : ∀ mod ∈ m.modules, mod.DistinctClasses) :
    (m.composeClasses.model.bodies.map fun b => [b.1, b.2.1]).Nodup := by
  have words (e : Entry ClassDecl) (mem : e ∈ m.classEntries) : Word e.name := by
    have entry := mem_classEntries_iff.1 mem
    rw [show e.name = e.decl.name from name_of_mem_entries entry]
    exact ClassDecl.WellNamed.word
      (AllDecls.of_mem_entries (P := fun _ => Decl.WellNamed) wellNamed entry)
  have bodies : (m.composeClasses.model.bodies.map fun b => [b.1, b.2.1]) =
      m.classEntries.flatMap fun e =>
        ((m.composedClass e).bodies.map Prod.fst).map fun name => [e.qualifiedName, name] := by
    simp only [Model.bodies, classEntries_composeClasses, List.flatMap_map, List.map_flatMap,
      List.map_map]
    rfl
  rw [bodies]
  refine nodup_flatMap_of_key (fun place => place.headD "")
    (nodup_qualifiedNames modules classes words) (fun e mem => ?_) fun e _ place mem => ?_
  · have distinct := ClassDecl.nodup_bodies (wellNamed.composedClass mem)
      (m.composition e).set.distinct
    exact distinct.map fun name name' same => (List.cons.inj (List.cons.inj same).2).1
  · obtain ⟨name, -, rfl⟩ := List.mem_map.1 mem
    rfl

/-! ## The traversal of a product -/

/-- Type checking a product of a model that is read from texts, while extensions keep logs, is type
checking it, and every extension logs the same visits: one for each occurrence in the bodies of the
classes, in the order of the occurrences, with expressions and declared variables numbered in each
body.  Neither two expressions nor two local variables have the same node. -/
theorem typeCheck_flatten_visits {σ : Type} {config : ProductConfig} {f : Flattened}
    {r : Registry σ} {c : Checked}
    (parsed : ∀ u ∈ m.units, ∃ file text, parseUnit file text = .ok u)
    (modules : (m.modules.map Module.name).Nodup)
    (classes : ∀ mod ∈ m.modules, (mod.classes.map (·.name)).Nodup)
    (flat : m.flatten config = .ok f) (ok : (typeCheck f.model r).1 = .ok c) :
    ∃ visits, typeCheck f.model (r.logged []) = (.ok c, (typeCheck f.model r).2.logged visits) ∧
      (typeCheck f.model r).2.names = r.names ∧ sightsOf visits = f.model.sights ∧
      (f.model.sights.filterMap Sight.exprNode?).Nodup ∧
      (f.model.sights.filterMap Sight.localNode?).Nodup := by
  have wellNamed : m.WellNamed := fun mod hmod d hd => by
    obtain ⟨u, hu, hm⟩ := List.mem_flatMap.1 hmod
    obtain ⟨file, text, read⟩ := parsed u hu
    exact wellNamed_parseUnit read mod hm d hd
  obtain ⟨product, names⟩ := config
  obtain ⟨es, d, valid, applied, rfl⟩ := exists_derived_of_flatten flat
  have derived : d.WellNamed := wellNamed.applyDeltas (fun e mem =>
    AllDecls.of_mem_entries (P := fun _ => Decl.WellNamed) wellNamed
      (mem_deltaEntries_iff.1 (mem_deltaEntries_of_valid valid mem))) applied
  have distinct := nodup_bodies_composeClasses derived
    ((names_modules_applyDeltas applied).symm ▸ modules)
    (forall_modules_applyDeltas (P := Module.DistinctClasses) classes
      (fun _ _ op _ => op.preserves_distinctClasses _ _) applied)
  refine ⟨_, typeCheck_logged ok, names_typeCheck _ r, ?_, nodup_exprNodes distinct,
    nodup_localNodes distinct⟩
  rw [sightsOf_visitsOf, sightsOf_walkModel]

/-- A program with a delta that modifies a method. -/
def nestedText : String :=
  "module M; class C { Int k = 1; Int m() { return this.k; } } " ++
    "delta D { modifies class C { modifies Int m() { Int x = original(); return x; } } }"

theorem typeCheck_flatten_visits_nestedText :
    ∃ u f, parseUnit none nestedText = .ok u ∧ (Model.mk [u]).flatten ⟨none, ["D"]⟩ = .ok f ∧
      f.model.sights.length = 8 ∧
      ∃ c, (typeCheck f.model [Extension.counter "count"]).1 = .ok c ∧
        ∃ visits, typeCheck f.model (Registry.logged [] [Extension.counter "count"]) =
            (.ok c, (typeCheck f.model [Extension.counter "count"]).2.logged visits) ∧
          sightsOf visits = f.model.sights ∧
          (f.model.sights.filterMap Sight.exprNode?).Nodup := by
  obtain ⟨u, read, outcome⟩ : ∃ u, parseUnit none nestedText = .ok u ∧
      ((Model.mk [u]).modules.map Module.name,
        (Model.mk [u]).modules.map fun mod => mod.classes.map (·.name),
        ((Model.mk [u]).flatten ⟨none, ["D"]⟩).toOption.map (·.model.sights.length)) =
        (["M"], [["C"]], some 8) :=
    exists_of_map_toOption (by decide +kernel)
  simp only [Prod.mk.injEq] at outcome
  obtain ⟨modules, classes, sights⟩ := outcome
  obtain ⟨f, flat, count⟩ := exists_of_map_toOption sights
  obtain ⟨c, ok⟩ := exists_typeCheck (m := f.model) (r := [Extension.counter "count"])
    (List.nodup_singleton _) (by simp [Extension.counter, Except.isOk, Except.toBool])
  have parsed : ∀ u' ∈ (Model.mk [u]).units, ∃ file text, parseUnit file text = .ok u' :=
    List.forall_mem_singleton.2 ⟨none, nestedText, read⟩
  have distinct : ∀ mod ∈ (Model.mk [u]).modules, (mod.classes.map (·.name)).Nodup :=
    fun mod mem => by
      have listed : mod.classes.map (·.name) ∈ [["C"]] :=
        classes ▸ List.mem_map_of_mem (f := fun mod : Module => mod.classes.map (·.name)) mem
      rw [List.mem_singleton.1 listed]
      exact List.nodup_singleton _
  obtain ⟨visits, checked, -, seen, nodes, -⟩ :=
    typeCheck_flatten_visits parsed (modules ▸ List.nodup_singleton _) distinct flat ok
  exact ⟨u, f, read, flat, count, c, ok, visits, checked, seen, nodes⟩

end Model

end DeltaLang
