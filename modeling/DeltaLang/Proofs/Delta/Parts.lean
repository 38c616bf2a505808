import DeltaLang.Names.Lookup
import Mathlib.Data.List.Forall2

/-!
# Parts of a model

A part of a model has the same units and modules, but only the declarations that pass a test.
Where all declarations that a name can mean pass it, the name means in the part what it means in
the model, and editing the declaration in the part yields the part of the edited model.  Editing a
declaration that does not pass the test leaves the part as it is.
-/

namespace DeltaLang

/-! ## Selecting from a list -/

section

variable {α : Type} {p q : α → Bool} {f : α → α} {l : List α} {i : Nat} {a : α}

theorem findIdx?_filter (sub : ∀ a, q a = true → p a = true) (l : List α) :
    (l.filter p).findIdx? q = (l.findIdx? q).map fun i => (l.take i).countP p := by
  induction l with
  | nil => rfl
  | cons a l ih =>
    rw [List.findIdx?_cons]
    cases ha : q a with
    | true =>
      rw [List.filter_cons_of_pos (sub a ha), List.findIdx?_cons, ha]
      rfl
    | false =>
      rw [if_neg (by simp), Option.map_map]
      cases hp : p a with
      | true =>
        rw [List.filter_cons_of_pos hp, List.findIdx?_cons, ha, if_neg (by simp), ih,
          Option.map_map]
        congr 1
        funext i
        simp [hp]
      | false =>
        rw [List.filter_cons_of_neg (by simp [hp]), ih]
        congr 1
        funext i
        simp [hp]

theorem exists_eq_append (h : l[i]? = some a) :
    ∃ front back, l = front ++ a :: back ∧ front.length = i := by
  obtain ⟨hi, rfl⟩ := List.getElem?_eq_some_iff.1 h
  refine ⟨l.take i, l.drop (i + 1), ?_, List.length_take_of_le (Nat.le_of_lt hi)⟩
  rw [← List.drop_eq_getElem_cons hi, List.take_append_drop]

theorem modify_length_append (front back : List α) (a : α) (f : α → α) :
    (front ++ a :: back).modify front.length f = front ++ f a :: back := by
  induction front with
  | nil => rfl
  | cons b front ih => simp [ih]

theorem getElem?_filter (h : l[i]? = some a) (ha : p a = true) :
    (l.filter p)[(l.take i).countP p]? = some a := by
  obtain ⟨front, back, rfl, rfl⟩ := exists_eq_append h
  simp [ha, List.countP_eq_length_filter]

theorem filter_eraseIdx (h : l[i]? = some a) (ha : p a = true) :
    (l.eraseIdx i).filter p = (l.filter p).eraseIdx ((l.take i).countP p) := by
  obtain ⟨front, back, rfl, rfl⟩ := exists_eq_append h
  simp [ha, List.countP_eq_length_filter, List.eraseIdx_append_of_length_le]

theorem filter_modify (h : l[i]? = some a) (ha : p a = true) (hf : p (f a) = true) :
    (l.modify i f).filter p = (l.filter p).modify ((l.take i).countP p) f := by
  obtain ⟨front, back, rfl, rfl⟩ := exists_eq_append h
  simp [ha, hf, List.countP_eq_length_filter, modify_length_append]

theorem filter_eraseIdx_of_neg (h : l[i]? = some a) (ha : p a = false) :
    (l.eraseIdx i).filter p = l.filter p := by
  obtain ⟨front, back, rfl, rfl⟩ := exists_eq_append h
  simp [ha, List.eraseIdx_append_of_length_le]

theorem filter_modify_of_neg (h : l[i]? = some a) (ha : p a = false) (hf : p (f a) = false) :
    (l.modify i f).filter p = l.filter p := by
  obtain ⟨front, back, rfl, rfl⟩ := exists_eq_append h
  simp [ha, hf, modify_length_append]

/-- A test that implies another one selects the same from what passes that. -/
theorem filter_filter_of_imp (sub : ∀ a, p a = true → q a = true) (l : List α) :
    (l.filter q).filter p = l.filter p := by
  rw [List.filter_filter]
  refine List.filter_congr fun a _ => ?_
  cases hp : p a with
  | true => rw [sub a hp, Bool.and_self]
  | false => rw [Bool.false_and]

theorem map_modify {β : Type} {g : α → β} {f' : β → β}
    (h : ∀ a, l[i]? = some a → g (f a) = f' (g a)) :
    (l.modify i f).map g = (l.map g).modify i f' := by
  induction l generalizing i with
  | nil => simp
  | cons b l ih =>
    cases i with
    | zero => simp [h b (by simp)]
    | succ i => simpa using ih fun a ha => h a (by simpa using ha)

theorem map_modify_of_eq {β : Type} {g : α → β} (h : ∀ a, l[i]? = some a → g (f a) = g a) :
    (l.modify i f).map g = l.map g :=
  Eq.trans (map_modify h) (List.modify_id i _)

theorem modify_eq_self (h : ∀ a, l[i]? = some a → f a = a) : l.modify i f = l := by
  simpa using map_modify_of_eq (g := id) h

end

/-! ## The part of a model -/

namespace Module

/-- The module with the declarations that pass the test. -/
def restrict (p : Decl → Bool) (m : Module) : Module := { m with decls := m.decls.filter p }

end Module

namespace Model

variable {m : Model} {p : Decl → Bool} {path : DeclPath}

/-- The model with the declarations that pass the test. -/
def restrict (p : Decl → Bool) (m : Model) : Model :=
  ⟨m.units.map fun u => { u with modules := u.modules.map (Module.restrict p) }⟩

/-- The module at a place. -/
def moduleAt? (m : Model) (unit module : Nat) : Option Module :=
  m.units[unit]?.bind fun u => u.modules[module]?

/-- The place in the part of a declaration of the model that passes the test. -/
def within (p : Decl → Bool) (m : Model) (path : DeclPath) : DeclPath :=
  { path with
    decl := match m.moduleAt? path.unit path.module with
      | some module => (module.decls.take path.decl).countP p
      | none => path.decl }

theorem entry?_eq (m : Model) (path : DeclPath) :
    m.entry? path = (m.moduleAt? path.unit path.module).bind fun module =>
      module.decls[path.decl]?.map fun d => ⟨path, module.name, d.name, d⟩ := by
  simp only [ entry?, moduleAt?, Option.bind_assoc, Option.map_eq_bind]
  rfl

theorem decl?_eq (m : Model) (path : DeclPath) :
    m.decl? path = (m.moduleAt? path.unit path.module).bind (·.decls[path.decl]?) := by
  rw [moduleAt?, Option.bind_assoc]
  rfl

theorem moduleAt?_restrict (p : Decl → Bool) (m : Model) (unit module : Nat) :
    (m.restrict p).moduleAt? unit module = (m.moduleAt? unit module).map (Module.restrict p) := by
  simp only [moduleAt?, restrict, List.getElem?_map, Option.bind_map, Option.map_bind]
  congr 1
  funext u
  simp

theorem modifyModule_restrict {unit module : Nat} {f g : Module → Module}
    (h : ∀ mod, m.moduleAt? unit module = some mod →
      (f mod).restrict p = g (mod.restrict p)) :
    (m.modifyModule unit module f).restrict p = (m.restrict p).modifyModule unit module g := by
  refine congrArg Model.mk (map_modify fun u hu => ?_)
  refine congrArg (CompilationUnit.mk u.file) (map_modify fun mod hmod => h mod ?_)
  rw [moduleAt?, hu]
  exact hmod

theorem modifyModule_restrict_of_eq {unit module : Nat} {f : Module → Module}
    (h : ∀ mod, m.moduleAt? unit module = some mod → (f mod).restrict p = mod.restrict p) :
    (m.modifyModule unit module f).restrict p = m.restrict p := by
  refine congrArg Model.mk (map_modify_of_eq fun u hu => ?_)
  refine congrArg (CompilationUnit.mk u.file) (map_modify_of_eq fun mod hmod => h mod ?_)
  rw [moduleAt?, hu]
  exact hmod

theorem restrict_restrict {q : Decl → Bool} (sub : ∀ d, p d = true → q d = true) (m : Model) :
    (m.restrict q).restrict p = m.restrict p := by
  rw [restrict, restrict, restrict, List.map_map]
  refine congrArg Model.mk (List.map_congr_left fun u _ => ?_)
  refine congrArg (CompilationUnit.mk u.file) ?_
  rw [List.map_map]
  exact List.map_congr_left fun mod _ =>
    congrArg (Module.mk mod.name · mod.loc) (filter_filter_of_imp sub mod.decls)

/-! ## Editing a part -/

theorem exists_moduleAt?_of_decl? {d : Decl} (h : m.decl? path = some d) :
    ∃ mod, m.moduleAt? path.unit path.module = some mod ∧ mod.decls[path.decl]? = some d := by
  rw [decl?_eq, Option.bind_eq_some_iff] at h
  exact h

variable {d : Decl} {f : Decl → Decl}

theorem within_eq {mod : Module} (h : m.moduleAt? path.unit path.module = some mod) :
    m.within p path = ⟨path.unit, path.module, (mod.decls.take path.decl).countP p⟩ := by
  rw [within, h]

theorem exists_entry_of_decl? (h : m.decl? path = some d) :
    ∃ module, m.entry? path = some ⟨path, module, d.name, d⟩ := by
  obtain ⟨mod, hmod, hdecl⟩ := exists_moduleAt?_of_decl? h
  exact ⟨mod.name, by rw [entry?_eq, hmod, Option.bind_some, hdecl, Option.map_some]⟩

theorem decl?_of_entry?_eq_some {e : Entry Decl} (h : m.entry? path = some e) :
    m.decl? path = some e.decl := by
  rw [entry?_eq, Option.bind_eq_some_iff] at h
  obtain ⟨mod, hmod, h⟩ := h
  obtain ⟨d, hdecl, rfl⟩ := Option.map_eq_some_iff.1 h
  rw [decl?_eq, hmod]
  exact hdecl

theorem entry?_restrict {e : Entry Decl} (h : m.entry? path = some e) (he : p e.decl = true) :
    Model.entry? (m.restrict p) (m.within p path) = some { e with path := m.within p path } := by
  rw [entry?_eq, Option.bind_eq_some_iff] at h
  obtain ⟨mod, hmod, h⟩ := h
  obtain ⟨d, hdecl, rfl⟩ := Option.map_eq_some_iff.1 h
  rw [within_eq hmod, entry?_eq, moduleAt?_restrict, hmod]
  simp [Module.restrict, getElem?_filter hdecl he]

theorem decl?_restrict (h : m.decl? path = some d) (hd : p d = true) :
    (m.restrict p).decl? (m.within p path) = some d := by
  obtain ⟨mod, hmod, hdecl⟩ := exists_moduleAt?_of_decl? h
  rw [within_eq hmod, decl?_eq, moduleAt?_restrict, hmod]
  exact getElem?_filter hdecl hd

theorem modifyDecl_restrict (h : m.decl? path = some d) (hd : p d = true)
    (hf : p (f d) = true) :
    (m.restrict p).modifyDecl (m.within p path) f = (m.modifyDecl path f).restrict p := by
  obtain ⟨mod, hmod, hdecl⟩ := exists_moduleAt?_of_decl? h
  rw [within_eq hmod, modifyDecl, modifyDecl]
  refine (modifyModule_restrict fun mod' hmod' => ?_).symm
  obtain rfl : mod = mod' := Option.some.inj (hmod.symm.trans hmod')
  exact congrArg (Module.mk mod.name · mod.loc) (filter_modify hdecl hd hf)

theorem modifyDecl_restrict_of_neg (h : m.decl? path = some d) (hd : p d = false)
    (hf : p (f d) = false) : (m.modifyDecl path f).restrict p = m.restrict p := by
  obtain ⟨mod, hmod, hdecl⟩ := exists_moduleAt?_of_decl? h
  refine modifyModule_restrict_of_eq fun mod' hmod' => ?_
  obtain rfl : mod = mod' := Option.some.inj (hmod.symm.trans hmod')
  exact congrArg (Module.mk mod.name · mod.loc) (filter_modify_of_neg hdecl hd hf)

theorem eraseDecl_restrict (h : m.decl? path = some d) (hd : p d = true) :
    (m.restrict p).eraseDecl (m.within p path) = (m.eraseDecl path).restrict p := by
  obtain ⟨mod, hmod, hdecl⟩ := exists_moduleAt?_of_decl? h
  rw [within_eq hmod, eraseDecl, eraseDecl]
  refine (modifyModule_restrict fun mod' hmod' => ?_).symm
  obtain rfl : mod = mod' := Option.some.inj (hmod.symm.trans hmod')
  exact congrArg (Module.mk mod.name · mod.loc) (filter_eraseIdx hdecl hd)

theorem eraseDecl_restrict_of_neg (h : m.decl? path = some d) (hd : p d = false) :
    (m.eraseDecl path).restrict p = m.restrict p := by
  obtain ⟨mod, hmod, hdecl⟩ := exists_moduleAt?_of_decl? h
  refine modifyModule_restrict_of_eq fun mod' hmod' => ?_
  obtain rfl : mod = mod' := Option.some.inj (hmod.symm.trans hmod')
  exact congrArg (Module.mk mod.name · mod.loc) (filter_eraseIdx_of_neg hdecl hd)

/-! ## Adding to a part -/

theorem appendToFirst_restrict (name : String) (hd : p d = true) (ms : List Module) :
    (appendToFirst name d ms).map (Module.restrict p) =
      appendToFirst name d (ms.map (Module.restrict p)) := by
  induction ms with
  | nil => rfl
  | cons mod ms ih =>
    rw [appendToFirst, List.map_cons, appendToFirst]
    split
    · rw [if_pos (by assumption)]
      simp [Module.restrict, hd]
    · rw [if_neg (by assumption), List.map_cons, ih]

theorem appendToFirst_restrict_of_neg (name : String) (hd : p d = false) (ms : List Module) :
    (appendToFirst name d ms).map (Module.restrict p) = ms.map (Module.restrict p) := by
  induction ms with
  | nil => rfl
  | cons mod ms ih =>
    rw [appendToFirst]
    split
    · simp [Module.restrict, hd]
    · rw [List.map_cons, List.map_cons, ih]

theorem appendTo_restrict (m : Model) (name : String) (hd : p d = true) :
    (m.restrict p).appendTo name d = (m.appendTo name d).restrict p := by
  obtain ⟨units⟩ := m
  rw [restrict, restrict, appendTo, appendTo, Model.mk.injEq]
  induction units with
  | nil => rfl
  | cons u us ih =>
    have named : (u.modules.map (Module.restrict p)).any (·.name == name) =
        u.modules.any (·.name == name) := List.any_map
    rw [List.map_cons, appendToUnits, appendToUnits, named]
    split
    · rw [List.map_cons, ← appendToFirst_restrict name hd]
    · rw [List.map_cons, ih]

theorem appendTo_restrict_of_neg (m : Model) (name : String) (hd : p d = false) :
    (m.appendTo name d).restrict p = m.restrict p := by
  obtain ⟨units⟩ := m
  rw [restrict, restrict, appendTo, Model.mk.injEq]
  induction units with
  | nil => rfl
  | cons u us ih =>
    rw [appendToUnits]
    split
    · rw [List.map_cons, List.map_cons, appendToFirst_restrict_of_neg name hd]
    · rw [List.map_cons, List.map_cons, ih]

/-! ## Names in a part -/

theorem modules_restrict (p : Decl → Bool) (m : Model) :
    (m.restrict p).modules = m.modules.map (Module.restrict p) := by
  rw [modules, modules, restrict, List.map_flatMap, List.flatMap_map]

theorem module?_restrict (p : Decl → Bool) (m : Model) (name : String) :
    (m.restrict p).module? name = (m.module? name).map (Module.restrict p) := by
  rw [module?, modules_restrict]
  exact List.find?_map

theorem position?_restrict {kind : DeclKind} {name : String}
    (sub : ∀ d : Decl, d.kind = kind → d.name = name → p d = true) (mod : Module) :
    (mod.restrict p).position? kind name =
      (mod.position? kind name).map fun i => (mod.decls.take i).countP p :=
  findIdx?_filter (fun d hd => sub d (by simp_all) (by simp_all)) mod.decls

theorem sightings_restrict {kind : DeclKind} {simple : String}
    (sub : ∀ d : Decl, d.kind = kind → d.name = simple → p d = true) (m : Model)
    (qualifier : Option String) :
    (m.restrict p).sightings kind qualifier simple =
      (m.sightings kind qualifier simple).map fun s => (s.1, m.within p s.2) := by
  have units : (m.restrict p).units.zipIdx = m.units.zipIdx.map fun s =>
      ({ s.1 with modules := s.1.modules.map (Module.restrict p) }, s.2) := List.zipIdx_map
  rw [sightings, sightings, units, List.flatMap_map, List.map_flatMap]
  refine List.flatMap_congr fun ⟨u, i⟩ hu => ?_
  have modules : (u.modules.map (Module.restrict p)).zipIdx = u.modules.zipIdx.map fun s =>
      (s.1.restrict p, s.2) := List.zipIdx_map
  simp only [modules, List.filterMap_map, List.map_filterMap]
  refine List.filterMap_congr fun ⟨mod, j⟩ hmod => ?_
  have here : m.moduleAt? i j = some mod := by
    rw [moduleAt?, List.mem_zipIdx_iff_getElem?.1 hu]
    exact List.mem_zipIdx_iff_getElem?.1 hmod
  simp only [Function.comp, position?_restrict sub]
  rw [Module.restrict]
  split
  · rw [Option.map_map, Option.map_map]
    congr 1
    funext d
    rw [Function.comp, Function.comp, within_eq here]
  · rfl

/-- What a name means follows from where its simple name is declared. -/
theorem locate_of_sightings {m' : Model} {kind : DeclKind} {name : String}
    {f : DeclPath → DeclPath}
    (moved : m'.sightings kind (splitQualified name).1 (splitQualified name).2 =
      (m.sightings kind (splitQualified name).1 (splitQualified name).2).map fun s => (s.1, f s.2))
    (preferred : String) :
    m'.locate kind name preferred = (m.locate kind name preferred).map f := by
  simp only [locate, moved]
  generalize m.sightings kind (splitQualified name).1 (splitQualified name).2 = found
  have names : (found.map fun s => (s.1, f s.2)).map Prod.fst = found.map Prod.fst := by
    rw [List.map_map]
    rfl
  have preferred : (found.map fun s => (s.1, f s.2)).find?
        (fun s => (splitQualified name).1.isNone && s.1 == preferred) =
      (found.find? fun s => (splitQualified name).1.isNone && s.1 == preferred).map
        fun s => (s.1, f s.2) := List.find?_map
  rw [preferred, names]
  cases found.find? _ with
  | some s => rfl
  | none => rcases found with _ | ⟨s, ss⟩ <;> rcases sortNames _ with _ | ⟨_, _ | _⟩ <;> rfl

theorem locate_restrict {kind : DeclKind} {name : String}
    (sub : ∀ d : Decl, d.kind = kind → d.name = (splitQualified name).2 → p d = true)
    (m : Model) (preferred : String) :
    (m.restrict p).locate kind name preferred =
      (m.locate kind name preferred).map (m.within p) :=
  locate_of_sightings (sightings_restrict sub m _) preferred

theorem exists_of_mem_sightings {kind : DeclKind} {qualifier : Option String}
    {simple module : String} (h : (module, path) ∈ m.sightings kind qualifier simple) :
    ∃ d, m.decl? path = some d ∧ d.kind = kind ∧ d.name = simple := by
  rw [sightings, List.mem_flatMap] at h
  obtain ⟨⟨u, i⟩, hu, h⟩ := h
  obtain ⟨⟨mod, j⟩, hmod, h⟩ := List.mem_filterMap.1 h
  simp only [Option.ite_none_right_eq_some, Option.map_eq_some_iff] at h
  obtain ⟨-, k, position, eq⟩ := h
  cases eq
  obtain ⟨hk, found, -⟩ := List.findIdx?_eq_some_iff_getElem.1 position
  have unit : m.units[i]? = some u := List.mem_zipIdx_iff_getElem?.1 hu
  have module : u.modules[j]? = some mod := List.mem_zipIdx_iff_getElem?.1 hmod
  refine ⟨mod.decls[k], ?_, by simpa using found⟩
  rw [decl?_eq, moduleAt?, unit, Option.bind_some, module, Option.bind_some]
  exact List.getElem?_eq_getElem hk

/-- A name means a declaration of that kind and simple name. -/
theorem exists_of_locate {kind : DeclKind} {name preferred : String}
    (h : m.locate kind name preferred = .ok path) :
    ∃ d, m.decl? path = some d ∧ d.kind = kind ∧ d.name = (splitQualified name).2 := by
  simp only [locate] at h
  split at h
  · rename_i found
    obtain rfl := Except.ok.inj h
    exact exists_of_mem_sightings (List.mem_of_find?_eq_some found)
  · split at h
    · cases h
    · rename_i found _
      obtain rfl := Except.ok.inj h
      exact exists_of_mem_sightings (found ▸ List.mem_cons_self)
    · cases h

end Model

end DeltaLang
