import DeltaLang.Proofs.Names.Checked
import DeltaLang.Proofs.Program.Merged

/-!
# Checking models put together

Checking looks names up, walks along interface extension and compares the names of modules.  So a
model that is checked without findings can be put in front of one that mentions none of its names:
the two together are checked with the findings of the second.
-/

namespace DeltaLang

/-! ## References -/

/-- The names that are looked up when the declaration is checked. -/
def Decl.references : Decl → List String
  | .interface i => i.parents
  | .class c => c.implements ++ (c.uses.filterMap TraitUse.expr?).flatMap TraitExpr.references
  | .trait d => d.expr.references
  | .delta d => d.after ++ d.before
  | .product _ => []

theorem TraitExpr.references_subset (e : TraitExpr) : e.references ⊆ e.mentions := by
  induction e with
  | ref name loc => exact List.Subset.refl _
  | set ms => exact List.nil_subset _
  | adds base extra ihBase ihExtra | modifies base extra ihBase ihExtra =>
    exact List.append_subset.2 ⟨List.subset_append_of_subset_left _ ihBase,
      List.subset_append_of_subset_right _ ihExtra⟩
  | removes base sigs ih => exact ih

theorem Decl.references_subset (d : Decl) : d.references ⊆ d.mentions := by
  intro n mem
  cases d with
  | interface i => exact List.mem_cons_of_mem _ (List.mem_append_left _ mem)
  | «class» c =>
    have within : c.Within (· ∈ c.mentions) := ClassDecl.within_iff.2 fun _ => id
    rcases List.mem_append.1 mem with mem | mem
    · exact within.implements n mem
    · obtain ⟨e, he, hn⟩ := List.mem_flatMap.1 mem
      obtain ⟨u, hu, used⟩ := List.mem_filterMap.1 he
      have clause := TraitUse.over_within_iff.1 (within.members.uses u hu)
      cases u with
      | adds e | modifies e =>
        obtain rfl := Option.some.inj used
        exact clause n (e.references_subset hn)
      | removes sigs => cases used
  | trait t => exact List.mem_cons_of_mem _ (t.expr.references_subset mem)
  | delta d => exact List.mem_cons_of_mem _ (List.mem_append_left _ mem)
  | product p => cases mem

theorem ClassDecl.references_of_uses {c : ClassDecl} {u : TraitUse} (hu : u ∈ c.uses)
    {x : TraitExpr} (hx : x ∈ u.expr?) : x.references ⊆ (Decl.class c).references := fun _ hn =>
  List.mem_append_right _ (List.mem_flatMap.2 ⟨x, List.mem_filterMap.2 ⟨u, hu, hx⟩, hn⟩)

namespace Check

open SymbolTable

variable {t t' : SymbolTable} {S : String → Prop} {f : DeclPath → DeclPath}

theorem reference_embeds {α : Type} {ns ns' : Namespace α} (h : ns.Embeds S f ns')
    (module what : String) (loc : Option Location) {name : String} (named : S (simpleName name)) :
    reference ns' module what loc name = reference ns module what loc name := by
  rw [reference, reference, h.resolve _ name named]
  cases ns.resolve (some module) name <;> rfl

theorem traitReferences_embeds (h : t.Embeds S f t') (module : String) (loc : Option Location)
    {e : TraitExpr} (named : ∀ n ∈ e.references, S (simpleName n)) :
    traitReferences t' module loc e = traitReferences t module loc e := by
  rw [TraitExpr.references_eq_map, List.forall_mem_map] at named
  exact List.flatMap_congr fun r mem => reference_embeds h.traits module _ _ (named r mem)

/-- References are checked alike where they are to names that mean the same. -/
theorem references_embeds (h : t.Embeds S f t') (module : String) {d : Decl}
    (named : ∀ n ∈ d.references, S (simpleName n))
    (modules : ∀ e, d.delta? = some e → ∀ name ∈ e.uses,
      (t'.module? name).isNone = (t.module? name).isNone) :
    references t' module d = references t module d := by
  cases d with
  | interface i =>
    exact List.flatMap_congr fun n mem => reference_embeds h.interfaces module _ _ (named n mem)
  | «class» c =>
    rw [Decl.references, List.forall_mem_append, List.forall_mem_flatMap] at named
    exact congrArg₂ (· ++ ·)
      (List.flatMap_congr fun n mem => reference_embeds h.interfaces module _ _ (named.1 n mem))
      (List.flatMap_congr fun e mem => traitReferences_embeds h module _ (named.2 e mem))
  | trait d => exact traitReferences_embeds h module _ named
  | delta d =>
    refine congrArg₂ (· ++ ·)
      (List.flatMap_congr fun n mem => reference_embeds h.deltas module _ _ (named n mem)) ?_
    exact congrArg (List.map _)
      (List.filter_congr fun n mem => modules d rfl n (Option.mem_toList.1 mem))
  | product p => rfl

/-! ## Signatures -/

theorem interfaceSignatures_embeds (h : t.Embeds S f t') (parentsIn : t.ParentsIn S)
    (placed : t.Placed) {i : Entry InterfaceDecl} (mem : i ∈ t.interfaces) :
    interfaceSignatures t' (i.move f) = interfaceSignatures t i := by
  simp only [interfaceSignatures, h.interfaceMethods parentsIn placed mem, Entry.move_name,
    Entry.move_decl]

/-! ## Cycles -/

/-- The searches reported the same, and are finished with the same interfaces. -/
structure CycleSearch.Alike (f : DeclPath → DeclPath) (st st' : CycleSearch) : Prop where
  findings : st'.findings = st.findings
  finished : ∀ p, f p ∈ st'.finished ↔ p ∈ st.finished

section

variable (h : t.Embeds S f t')

include h

theorem cycleNames_move (path : List (Entry InterfaceDecl)) (p : Entry InterfaceDecl) :
    cycleNames (path.map (Entry.move f)) (p.move f) = cycleNames path p := by
  have rest : (path.map (Entry.move f)).dropWhile (·.path ≠ f p.path) =
      (path.dropWhile (·.path ≠ p.path)).map (Entry.move f) := by
    rw [List.dropWhile_map]
    refine congrArg (fun q => (path.dropWhile q).map (Entry.move f)) (funext fun i => ?_)
    simp only [Function.comp_apply, Entry.move_path, ne_eq, h.injective.eq_iff]
  rw [cycleNames, cycleNames, Entry.move_path, rest, List.map_map]
  rfl

theorem follow_embeds {depth depth' : Nat} {path : List (Entry InterfaceDecl)}
    {p : Entry InterfaceDecl} {st st' : CycleSearch} (alike : CycleSearch.Alike f st st')
    (search : path.any (·.path == p.path) = false →
      CycleSearch.Alike f (searchFrom t depth path p st)
        (searchFrom t' depth' (path.map (Entry.move f)) (p.move f) st'))
    (loc : Option Location) :
    CycleSearch.Alike f (follow t depth path loc st p)
      (follow t' depth' (path.map (Entry.move f)) loc st' (p.move f)) := by
  unfold follow
  rw [Entry.move_path, h.any_path, cycleNames_move h]
  by_cases closes : path.any (·.path == p.path) = true
  · rw [if_pos closes, if_pos closes, alike.findings]
    exact ⟨rfl, alike.finished⟩
  · rw [if_neg closes, if_neg closes]
    by_cases old : p.path ∈ st.finished
    · rw [if_pos old, if_pos ((alike.finished _).2 old)]
      exact alike
    · rw [if_neg old, if_neg (mt (alike.finished _).1 old)]
      exact search (Bool.eq_false_iff.2 closes)

variable (parentsIn : t.ParentsIn S)

include parentsIn

theorem searchFrom_embeds (depth : Nat) (path : List (Entry InterfaceDecl))
    {i : Entry InterfaceDecl} (mem : i ∈ t.interfaces) {st st' : CycleSearch}
    (alike : CycleSearch.Alike f st st') :
    CycleSearch.Alike f (searchFrom t depth path i st)
      (searchFrom t' depth (path.map (Entry.move f)) (i.move f) st') := by
  induction depth generalizing path i st st' with
  | zero => exact alike
  | succ depth ih =>
    have longer : path.map (Entry.move f) ++ [i.move f] = (path ++ [i]).map (Entry.move f) := by
      rw [List.map_append, List.map_singleton]
    rw [searchFrom_succ, searchFrom_succ, h.parents parentsIn mem, List.foldl_map, longer]
    have below := List.foldl_rel (r := CycleSearch.Alike f) alike
      (f := follow t depth (path ++ [i]) i.decl.loc)
      (g := fun st p => follow t' depth ((path ++ [i]).map (Entry.move f)) i.decl.loc st
        (Entry.move f p)) (l := t.parents i) fun p edge st st' alike =>
          follow_embeds h alike (fun _ => ih _ (mem_interfaces_of_mem_parents edge) alike) _
    refine ⟨below.findings, fun p => ?_⟩
    rw [List.mem_cons, List.mem_cons, Entry.move_path, h.injective.eq_iff]
    exact or_congr_right (below.finished p)

/-- From interface to interface the searches go on alike. -/
theorem foldl_follow_embeds {is : List (Entry InterfaceDecl)}
    (known : is ⊆ t.interfaces) {st st' : CycleSearch} (alike : CycleSearch.Alike f st st') :
    CycleSearch.Alike f (is.foldl (follow t (t.interfaces.length + 1) [] none) st)
      ((is.map (Entry.move f)).foldl (follow t' (t'.interfaces.length + 1) [] none) st') := by
  have le : t.interfaces.length + 1 ≤ t'.interfaces.length + 1 :=
    Nat.succ_le_succ h.interfaces.length_le
  rw [List.foldl_map]
  refine List.foldl_rel alike fun i mem st st' alike => ?_
  refine follow_embeds h alike (fun _ => ?_) none
  rw [← searchFrom_eq_of_le le (List.nil_subset _) .nil (by simp) (known mem) List.not_mem_nil]
  exact searchFrom_embeds h parentsIn _ [] (known mem) alike

end

/-- The search is only finished with interfaces. -/
def FinishedKnown (t : SymbolTable) (st : CycleSearch) : Prop :=
  st.finished ⊆ t.interfaces.map (·.path)

theorem FinishedKnown.follow {depth : Nat} {path : List (Entry InterfaceDecl)}
    {p : Entry InterfaceDecl} {st : CycleSearch} (known : FinishedKnown t st)
    (search : FinishedKnown t (searchFrom t depth path p st)) (loc : Option Location) :
    FinishedKnown t (Check.follow t depth path loc st p) := by
  unfold Check.follow
  split
  · exact known
  · split
    · exact known
    · exact search

theorem FinishedKnown.searchFrom (depth : Nat) (path : List (Entry InterfaceDecl))
    {i : Entry InterfaceDecl} (mem : i ∈ t.interfaces) {st : CycleSearch}
    (known : FinishedKnown t st) : FinishedKnown t (Check.searchFrom t depth path i st) := by
  induction depth generalizing path i st with
  | zero => exact known
  | succ depth ih =>
    have below := List.foldlRecOn (motive := FinishedKnown t) (t.parents i)
      (Check.follow t depth (path ++ [i]) i.decl.loc) known fun st known p edge =>
        known.follow (ih _ (mem_interfaces_of_mem_parents edge) known) _
    rw [searchFrom_succ]
    exact List.cons_subset.2 ⟨List.mem_map_of_mem mem, below⟩

/-! ## Repeated elements -/

section

variable {α κ : Type} [DecidableEq κ] {key : α → κ} {seen seen' : List κ} {xs ys : List α}

theorem repeated_congr (same : ∀ x ∈ xs, key x ∈ seen ↔ key x ∈ seen') :
    repeated key seen xs = repeated key seen' xs := by
  induction xs generalizing seen seen' with
  | nil => rfl
  | cons x xs ih =>
    rw [List.forall_mem_cons] at same
    rw [repeated, repeated]
    by_cases taken : key x ∈ seen
    · rw [if_pos taken, if_pos (same.1.1 taken), ih same.2]
    · rw [if_neg taken, if_neg (mt same.1.2 taken)]
      exact ih fun y mem => by rw [List.mem_cons, List.mem_cons, same.2 y mem]

/-- Elements with other keys in front do not matter, if none of them is repeated. -/
theorem repeated_append (none : repeated key seen xs = [])
    (apart : ∀ x ∈ xs, ∀ y ∈ ys, key y ≠ key x) :
    repeated key seen (xs ++ ys) = repeated key seen ys := by
  induction xs generalizing seen with
  | nil => rfl
  | cons x xs ih =>
    rw [List.forall_mem_cons] at apart
    rw [repeated] at none
    rw [List.cons_append, repeated]
    by_cases taken : key x ∈ seen
    · rw [if_pos taken] at none
      cases none
    · rw [if_neg taken] at none ⊢
      rw [ih none apart.2]
      refine repeated_congr fun y mem => ?_
      rw [List.mem_cons]
      exact or_iff_right (apart.1 y mem)

end

end Check

namespace Model

variable {v m : Model}

/-! ## Models put together -/

theorem Ignores.parentsIn (h : m.Ignores v) :
    (SymbolTable.ofModel m).ParentsIn fun s => ¬v.Declares s := fun i mem n hn =>
  h.decl (mem_interfaceEntries_iff.1 mem) n
    (Decl.references_subset (.interface i.decl) hn)

/-- The names that a declaration refers to are declared if they mean something. -/
theorem declares_of_resolves {module : String} {d : Decl} (h : d.Resolves (.ofModel v) module) :
    ∀ n ∈ d.references, v.Declares (simpleName n) := by
  have declared {α : Type} {f : Decl → Option α} {n : String} {frm : Option String}
      (found : ∃ e, Namespace.resolve (v.entries.filterMap (Entry.narrow f)) frm n = .ok e) :
      v.Declares (simpleName n) := found.elim fun _ => declares_of_resolve
  intro n mem
  cases d with
  | interface i => exact declared (h n mem)
  | «class» c =>
    rcases List.mem_append.1 mem with mem | mem
    · exact declared (h.1 n mem)
    · obtain ⟨e, he, hn⟩ := List.mem_flatMap.1 mem
      exact declared (h.2 e he n hn)
  | trait t => exact declared (h n mem)
  | delta d => exact declared (h.1 n mem)
  | product p => cases mem

theorem Valid.parentsIn (h : v.Valid) : (SymbolTable.ofModel v).ParentsIn v.Declares :=
  fun i mem n hn => declares_of_resolves (d := .interface i.decl) (h.parents i mem) n hn

theorem module?_append {name : String} (other : ∀ mod ∈ v.modules, mod.name ≠ name) :
    (v.append m).module? name = m.module? name := by
  rw [module?, modules_append, List.find?_append,
    List.find?_eq_none.2 fun mod mem => by simpa using other mod mem]
  rfl

/-- The interfaces of the second model are searched for cycles as they are without the first. -/
theorem interfaceCycles_append (valid : v.Valid) (ignores : m.Ignores v)
    (clean : Check.interfaceCycles (.ofModel v) = []) :
    Check.interfaceCycles (.ofModel (v.append m)) = Check.interfaceCycles (.ofModel m) := by
  have split : (SymbolTable.ofModel (v.append m)).interfaces =
      (SymbolTable.ofModel v).interfaces.map (Entry.move id) ++
        (SymbolTable.ofModel m).interfaces.map (Entry.move (.shift v.units.length)) :=
    (narrow_entries_append _ v m).trans (congrArg (· ++ _) (List.map_id _).symm)
  have fresh : Check.CycleSearch.Alike id ⟨[], []⟩ ⟨[], []⟩ := ⟨rfl, fun _ => Iff.rfl⟩
  have first := Check.foldl_follow_embeds ignores.embeds valid.parentsIn (List.Subset.refl _) fresh
  have known : Check.FinishedKnown (.ofModel v) _ := List.foldlRecOn
    (motive := Check.FinishedKnown (.ofModel v)) (SymbolTable.ofModel v).interfaces
    (Check.follow (.ofModel v) ((SymbolTable.ofModel v).interfaces.length + 1) [] none)
    (b := ⟨[], []⟩) (List.nil_subset _) fun st known i mem =>
      known.follow (known.searchFrom _ [] mem) none
  -- What the search in the first model is finished with is none of the second one's interfaces.
  have start : Check.CycleSearch.Alike (.shift v.units.length) ⟨[], []⟩
      (((SymbolTable.ofModel v).interfaces.map (Entry.move id)).foldl
        (Check.follow (.ofModel (v.append m))
          ((SymbolTable.ofModel (v.append m)).interfaces.length + 1) [] none) ⟨[], []⟩) := by
    refine ⟨first.findings.trans ((Check.interfaceCycles_eq _).symm.trans clean), fun p => ?_⟩
    refine iff_of_false (fun mem => ?_) List.not_mem_nil
    obtain ⟨i, hi, same⟩ := List.mem_map.1 (known ((first.finished _).1 mem))
    have below := path_unit_lt (mem_interfaceEntries_iff.1 hi)
    rw [same] at below
    exact absurd below (Nat.not_lt.2 (Nat.le_add_left _ _))
  have second := Check.foldl_follow_embeds (embeds_shift v m) ignores.parentsIn
    (List.Subset.refl _) start
  rw [Check.interfaceCycles_eq, Check.interfaceCycles_eq, ← second.findings, ← List.foldl_append,
    ← split]

/-- A delta uses modules of the model that declares it. -/
theorem mem_mentionedModules {mod : Module} {d : DeltaDecl} (hmod : mod ∈ m.modules)
    (hd : .delta d ∈ mod.decls) {name : String} (used : name ∈ d.uses) :
    name ∈ m.mentionedModules :=
  List.mem_append_right _ <| List.mem_flatMap.2
    ⟨d, List.mem_flatMap.2 ⟨mod, hmod, List.mem_filterMap.2 ⟨_, hd, rfl⟩⟩, Option.mem_toList.2 used⟩

/-- References of the first model are checked as they are without the second. -/
theorem references_front (valid : v.Valid) (ignores : m.Ignores v) (plain : v.deltas = [])
    {mod : Module} (hmod : mod ∈ v.modules) {d : Decl} (hd : d ∈ mod.decls) :
    Check.references (.ofModel (v.append m)) mod.name d =
      Check.references (.ofModel v) mod.name d := by
  have resolves := forall_resolves_iff.2
    ⟨valid.parents, valid.implements, valid.uses, valid.traits, valid.deltas⟩
  refine Check.references_embeds ignores.embeds mod.name
    (declares_of_resolves (resolves mod hmod d hd)) fun e isDelta => ?_
  have listed : e ∈ v.deltas :=
    List.mem_flatMap.2 ⟨mod, hmod, List.mem_filterMap.2 ⟨d, hd, isDelta⟩⟩
  rw [plain] at listed
  cases listed

/-- References of the second model are checked as they are without the first. -/
theorem references_back (apart : v.Apart m) {mod : Module} (hmod : mod ∈ m.modules) {d : Decl}
    (hd : d ∈ mod.decls) :
    Check.references (.ofModel (v.append m)) mod.name d =
      Check.references (.ofModel m) mod.name d := by
  refine Check.references_embeds (embeds_shift v m) mod.name
    (fun n mem => apart.ignores mod hmod d hd n (d.references_subset mem))
    fun e isDelta name used => ?_
  cases d with
  | delta d =>
    obtain rfl := Option.some.inj isDelta
    have other : ∀ mod' ∈ v.modules, mod'.name ≠ name := fun mod' hmod' same =>
      apart.modules mod' hmod' (same ▸ mem_mentionedModules hmod hd used)
    exact congrArg Option.isNone (module?_append other)
  | _ => cases isDelta

theorem duplicateModules_append (apart : v.Apart m) (distinct : Check.duplicateModules v = []) :
    Check.duplicateModules (v.append m) = Check.duplicateModules m := by
  rw [Check.duplicateModules, List.map_eq_nil_iff] at distinct
  rw [Check.duplicateModules, modules_append, Check.repeated_append distinct]
  · rfl
  · exact fun mod hmod mod' hmod' same => apart.modules mod hmod
      (List.mem_append_left _ (same ▸ List.mem_map_of_mem hmod'))

/-- The signatures of the second model's interfaces are as distinct as without the first. -/
theorem interfaceSignatures_append (valid : v.Valid) (ignores : m.Ignores v)
    (clean : ∀ i ∈ (SymbolTable.ofModel v).interfaces,
      Check.interfaceSignatures (.ofModel v) i = []) :
    (SymbolTable.ofModel (v.append m)).interfaces.flatMap
        (Check.interfaceSignatures (.ofModel (v.append m))) =
      (SymbolTable.ofModel m).interfaces.flatMap (Check.interfaceSignatures (.ofModel m)) := by
  have split : (SymbolTable.ofModel (v.append m)).interfaces = _ :=
    narrow_entries_append Decl.interface? v m
  rw [split, List.flatMap_append, List.flatMap_map]
  refine (congrArg₂ (· ++ ·) (List.flatMap_eq_nil_iff.2 fun i mem => ?_)
    (List.flatMap_congr fun i mem => ?_)).trans (List.nil_append _)
  · exact (Check.interfaceSignatures_embeds ignores.embeds valid.parentsIn
      (SymbolTable.placed_ofModel v) mem).trans (clean i mem)
  · exact Check.interfaceSignatures_embeds (embeds_shift v m) ignores.parentsIn
      (SymbolTable.placed_ofModel m) mem

/-- A model that is checked without findings does not show in the findings about a model that
ignores what it declares. -/
theorem checkModel_append (apart : v.Apart m) (plain : v.deltas = [])
    (clean : checkModel v = []) : checkModel (v.append m) = checkModel m := by
  have valid : v.Valid := checkModel_clean_iff.1 (by rw [clean]; rfl)
  have ignores := apart.ignores
  simp only [checkModel, List.append_eq_nil_iff, List.flatMap_eq_nil_iff] at clean
  obtain ⟨⟨⟨distinct, decls⟩, acyclic⟩, signatures⟩ := clean
  have front : v.modules.flatMap (fun mod => Check.duplicateDeclarations mod ++
      mod.decls.flatMap (Check.references (.ofModel (v.append m)) mod.name)) = [] := by
    simp only [List.flatMap_eq_nil_iff, List.append_eq_nil_iff]
    exact fun mod hmod => ⟨(decls mod hmod).1, fun d hd =>
      (references_front valid ignores plain hmod hd).trans ((decls mod hmod).2 d hd)⟩
  have back : m.modules.flatMap (fun mod => Check.duplicateDeclarations mod ++
        mod.decls.flatMap (Check.references (.ofModel (v.append m)) mod.name)) =
      m.modules.flatMap (fun mod => Check.duplicateDeclarations mod ++
        mod.decls.flatMap (Check.references (.ofModel m) mod.name)) :=
    List.flatMap_congr fun mod hmod => congrArg (_ ++ ·) <|
      List.flatMap_congr fun d hd => references_back apart hmod hd
  simp only [checkModel]
  rw [duplicateModules_append apart distinct, modules_append, List.flatMap_append, front, back,
    List.nil_append, interfaceSignatures_append valid ignores signatures,
    interfaceCycles_append valid ignores acyclic]

end Model

end DeltaLang
