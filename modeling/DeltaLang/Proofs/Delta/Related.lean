import DeltaLang.Proofs.Delta.Composition
import DeltaLang.Proofs.Delta.Parts

/-!
# Models related module by module

Two models of the same units whose modules are related one by one.  Where related modules have the
same name and the same positions of declarations, names mean declarations at the same places, and
edits that keep modules related keep the models related.
-/

namespace DeltaLang

/-! ## Lists related one by one -/

section

variable {α β γ : Type} {R : α → β → Prop} {l : List α} {l' : List β}

theorem forall₂_getElem? (h : List.Forall₂ R l l') (i : Nat) : Option.Rel R l[i]? l'[i]? := by
  induction h generalizing i with
  | nil => exact .none
  | cons related _ ih =>
    cases i with
    | zero => exact .some related
    | succ i => exact ih i

theorem forall₂_modify (h : List.Forall₂ R l l') {i : Nat} {f : α → α} {g : β → β}
    (step : ∀ a b, l[i]? = some a → l'[i]? = some b → R a b → R (f a) (g b)) :
    List.Forall₂ R (l.modify i f) (l'.modify i g) := by
  induction h generalizing i with
  | nil =>
    rw [List.modify_nil, List.modify_nil]
    exact .nil
  | cons related rest ih =>
    cases i with
    | zero => exact .cons (step _ _ rfl rfl related) rest
    | succ i => exact .cons related (ih step)

theorem forall₂_eraseIdx (h : List.Forall₂ R l l') (i : Nat) :
    List.Forall₂ R (l.eraseIdx i) (l'.eraseIdx i) := by
  induction h generalizing i with
  | nil => exact .nil
  | cons related rest ih =>
    cases i with
    | zero => exact rest
    | succ i => exact .cons related (ih i)

theorem forall₂_zipIdx (h : List.Forall₂ R l l') (k : Nat) :
    List.Forall₂ (fun s s' => R s.1 s'.1 ∧ s.2 = s'.2) (l.zipIdx k) (l'.zipIdx k) := by
  induction h generalizing k with
  | nil => exact .nil
  | cons related _ ih => exact .cons ⟨related, rfl⟩ (ih (k + 1))

theorem forall₂_find? (h : List.Forall₂ R l l') {p : α → Bool} {q : β → Bool}
    (same : ∀ a b, R a b → p a = q b) : Option.Rel R (l.find? p) (l'.find? q) := by
  induction h with
  | nil => exact .none
  | @cons a b _ _ related _ ih =>
    rw [List.find?_cons, List.find?_cons, same a b related]
    cases q b with
    | true => exact .some related
    | false => exact ih

theorem any_eq_of_forall₂ (h : List.Forall₂ R l l') {p : α → Bool} {q : β → Bool}
    (same : ∀ a b, R a b → p a = q b) : l.any p = l'.any q := by
  induction h with
  | nil => rfl
  | @cons a b _ _ related _ ih => rw [List.any_cons, List.any_cons, same a b related, ih]

theorem findIdx?_eq_of_forall₂ (h : List.Forall₂ R l l') {p : α → Bool} {q : β → Bool}
    (same : ∀ a b, R a b → p a = q b) : l.findIdx? p = l'.findIdx? q := by
  induction h with
  | nil => rfl
  | @cons a b _ _ related _ ih => rw [List.findIdx?_cons, List.findIdx?_cons, same a b related, ih]

theorem map_eq_of_forall₂ (h : List.Forall₂ R l l') {f : α → γ} {g : β → γ}
    (same : ∀ a b, R a b → f a = g b) : l.map f = l'.map g := by
  induction h with
  | nil => rfl
  | @cons a b _ _ related _ ih => rw [List.map_cons, List.map_cons, same a b related, ih]

theorem filterMap_eq_of_forall₂ (h : List.Forall₂ R l l') {f : α → Option γ} {g : β → Option γ}
    (same : ∀ a b, R a b → f a = g b) : l.filterMap f = l'.filterMap g := by
  induction h with
  | nil => rfl
  | @cons a b _ _ related _ ih =>
    rw [List.filterMap_cons, List.filterMap_cons, same a b related, ih]

theorem flatMap_eq_of_forall₂ (h : List.Forall₂ R l l') {f : α → List γ} {g : β → List γ}
    (same : ∀ a b, R a b → f a = g b) : l.flatMap f = l'.flatMap g := by
  rw [List.flatMap_def, List.flatMap_def, map_eq_of_forall₂ h same]

theorem perm_flatMap_of_forall₂ (h : List.Forall₂ R l l') {f : α → List γ} {g : β → List γ}
    (same : ∀ a b, R a b → (f a).Perm (g b)) : (l.flatMap f).Perm (l'.flatMap g) := by
  induction h with
  | nil => exact .refl _
  | cons related _ ih =>
    rw [List.flatMap_cons, List.flatMap_cons]
    exact (same _ _ related).append ih

end

theorem forall₂_of_map_eq {α γ δ : Type} {f : α → γ} {g : α → δ} {R : α → α → Prop}
    {l l' : List α} (hf : l.map f = l'.map f) (hg : l.map g = l'.map g)
    (h : ∀ a b, f a = f b → g a = g b → R a b) : List.Forall₂ R l l' := by
  induction l generalizing l' with
  | nil =>
    cases l' with
    | nil => exact .nil
    | cons b l' => cases hf
  | cons a l ih =>
    cases l' with
    | nil => cases hf
    | cons b l' =>
      rw [List.map_cons, List.map_cons, List.cons.injEq] at hf hg
      exact .cons (h a b hf.1 hg.1) (ih hf.2 hg.2)

/-! ## Related models -/

/-- The same units, the modules of each related one by one. -/
def Model.Related (R : Module → Module → Prop) (m m' : Model) : Prop :=
  List.Forall₂ (fun u u' => u.file = u'.file ∧ List.Forall₂ R u.modules u'.modules)
    m.units m'.units

theorem Model.related_self_iff {R : Module → Module → Prop} {m : Model} :
    m.Related R m ↔ ∀ mod ∈ m.modules, R mod mod := by
  rw [Related, List.forall₂_same, modules]
  simp only [List.forall₂_same, true_and, List.mem_flatMap]
  constructor
  · rintro h mod ⟨u, hu, hmod⟩
    exact h u hu mod hmod
  · exact fun h u hu mod hmod => h mod ⟨u, hu, hmod⟩

theorem Model.related_mapModules {R : Module → Module → Prop} {m : Model} {f : Module → Module}
    (step : ∀ mod ∈ m.modules, R mod (f mod)) : m.Related R (m.mapModules f) := by
  rw [Related, mapModules, List.forall₂_map_right_iff, List.forall₂_same]
  refine fun u hu => ⟨rfl, ?_⟩
  rw [List.forall₂_map_right_iff, List.forall₂_same]
  exact fun mod hmod => step mod (List.mem_flatMap.2 ⟨u, hu, hmod⟩)

namespace Model.Related

variable {R : Module → Module → Prop} {m m' : Model} (h : m.Related R m')

include h

theorem modules : List.Forall₂ R m.modules m'.modules := by
  unfold Related at h
  rw [Model.modules, Model.modules]
  generalize m.units = us, m'.units = us' at h
  induction h with
  | nil => exact .nil
  | cons hu _ ih => exact List.rel_append hu.2 ih

theorem mapModules {S : Module → Module → Prop} {f g : Module → Module}
    (step : ∀ a b, R a b → S (f a) (g b)) : (m.mapModules f).Related S (m'.mapModules g) := by
  rw [Related, Model.mapModules, Model.mapModules, List.forall₂_map_left_iff,
    List.forall₂_map_right_iff]
  refine h.imp fun u u' related => ⟨related.1, ?_⟩
  rw [List.forall₂_map_left_iff, List.forall₂_map_right_iff]
  exact related.2.imp step

theorem moduleAt? (unit module : Nat) :
    Option.Rel R (m.moduleAt? unit module) (m'.moduleAt? unit module) := by
  have units := forall₂_getElem? h unit
  rw [Model.moduleAt?, Model.moduleAt?]
  generalize m.units[unit]? = u, m'.units[unit]? = u' at units
  cases units with
  | none => exact .none
  | some related => exact forall₂_getElem? related.2 module

theorem modifyModule {unit module : Nat} {f g : Module → Module}
    (step : ∀ a b, m.moduleAt? unit module = some a → m'.moduleAt? unit module = some b → R a b →
      R (f a) (g b)) :
    (m.modifyModule unit module f).Related R (m'.modifyModule unit module g) := by
  refine forall₂_modify h fun u u' hu hu' related => ⟨related.1, ?_⟩
  refine forall₂_modify related.2 fun a b ha hb => step a b ?_ ?_
  · rw [Model.moduleAt?, hu]
    exact ha
  · rw [Model.moduleAt?, hu']
    exact hb

/-- Declarations that can replace those at a place in related modules can do so in the models. -/
theorem setDecl {path : DeclPath} {e : Entry Decl} (found : m.entry? path = some e) {d d' : Decl}
    (set : ∀ a b, a.name = e.module → R a b →
      R (a.modifyDecl path.decl fun _ => d) (b.modifyDecl path.decl fun _ => d')) :
    (m.modifyDecl path fun _ => d).Related R (m'.modifyDecl path fun _ => d') := by
  refine Related.modifyModule h fun a b ha _ related => set a b ?_ related
  rw [entry?_eq, ha, Option.bind_some] at found
  obtain ⟨_, -, rfl⟩ := Option.map_eq_some_iff.1 found
  rfl

variable (names : ∀ a b, R a b → a.name = b.name)

include names

theorem module? (name : String) : Option.Rel R (m.module? name) (m'.module? name) :=
  forall₂_find? h.modules fun a b related => by rw [names a b related]

/-- Where related modules have related declarations, so are those at a place. -/
theorem exists_entry {D : String → Decl → Decl → Prop}
    (decls : ∀ a b, R a b → List.Forall₂ (D a.name) a.decls b.decls) {path : DeclPath}
    {e : Entry Decl} (found : m.entry? path = some e) :
    ∃ d, m'.entry? path = some ⟨path, e.module, d.name, d⟩ ∧ D e.module e.decl d := by
  have modules := Related.moduleAt? h path.unit path.module
  rw [entry?_eq] at found ⊢
  generalize m.moduleAt? path.unit path.module = a, m'.moduleAt? path.unit path.module = b
    at modules found ⊢
  cases modules with
  | none => cases found
  | @some a b related =>
    have paired := forall₂_getElem? (decls a b related) path.decl
    rw [Option.bind_some] at found ⊢
    generalize a.decls[path.decl]? = d, b.decls[path.decl]? = d' at paired found ⊢
    cases paired with
    | none => cases found
    | @some d d' same =>
      obtain rfl := Option.some.inj found
      exact ⟨d', by rw [names a b related]; rfl, same⟩

/-- Declarations that can be added to related modules of the name can be added to the models. -/
theorem appendTo {name : String} {d d' : Decl}
    (append : ∀ a b, a.name = name → R a b →
      R { a with decls := a.decls ++ [d] } { b with decls := b.decls ++ [d'] }) :
    (m.appendTo name d).Related R (m'.appendTo name d') := by
  have first {ms ms' : List Module} (related : List.Forall₂ R ms ms') :
      List.Forall₂ R (appendToFirst name d ms) (appendToFirst name d' ms') := by
    induction related with
    | nil => exact .nil
    | @cons a b _ _ related rest ih =>
      rw [appendToFirst, appendToFirst]
      by_cases named : a.name = name
      · rw [if_pos named, if_pos ((names a b related).symm.trans named)]
        exact .cons (append a b named related) rest
      · rw [if_neg named, if_neg fun named' => named ((names a b related).trans named')]
        exact .cons related ih
  obtain ⟨units⟩ := m
  obtain ⟨units'⟩ := m'
  unfold Related at h ⊢
  dsimp only [Model.appendTo] at h ⊢
  induction h with
  | nil => exact .nil
  | @cons u u' us us' related rest ih =>
    have named : u.modules.any (·.name == name) = u'.modules.any (·.name == name) :=
      any_eq_of_forall₂ related.2 fun a b related => by rw [names a b related]
    rw [appendToUnits, appendToUnits, named]
    split
    · exact .cons ⟨related.1, first related.2⟩ rest
    · exact .cons related ih

theorem locate {kind : DeclKind} (positions : ∀ a b, R a b → ∀ name,
      a.position? kind name = b.position? kind name) (name preferred : String) :
    m.locate kind name preferred = m'.locate kind name preferred := by
  have sightings (qualifier : Option String) (simple : String) :
      m.sightings kind qualifier simple = m'.sightings kind qualifier simple := by
    refine flatMap_eq_of_forall₂ (forall₂_zipIdx h 0) fun s s' same => ?_
    obtain ⟨u, i⟩ := s
    obtain ⟨u', j⟩ := s'
    obtain ⟨related, rfl⟩ := same
    refine filterMap_eq_of_forall₂ (forall₂_zipIdx related.2 0) fun s s' same => ?_
    obtain ⟨a, i⟩ := s
    obtain ⟨b, j⟩ := s'
    obtain ⟨related, rfl⟩ := same
    dsimp only
    rw [names a b related, positions a b related]
  simp only [Model.locate, sightings]

end Model.Related

end DeltaLang
