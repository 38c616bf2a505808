import DeltaLang.Proofs.Delta.Staged

/-!
# The histories of methods

The methods of a class are a list of names in order, each with the versions it had, newest first.
Operations on a class act on that list: a new method is appended, a modification puts new versions
in front of those of the same name, and a removal forgets all versions.  So the methods of a
derived product are what these operations make of the methods that a class was composed of at
first, whether they edit the class or append clauses to it.
-/

namespace DeltaLang

/-! ## Histories -/

/-- Methods in order, each with its name and its versions, newest first. -/
abbrev History := List Method

namespace History

/-- A method of a new name is appended; a name that is taken keeps what it has. -/
def add (h : History) (m : Method) : History :=
  if m.name ∈ h.map (·.name) then h else h ++ [m]

theorem add_of_mem {h : History} {m : Method} (mem : m.name ∈ h.map (·.name)) : h.add m = h :=
  if_pos mem

theorem add_of_not_mem {h : History} {m : Method} (new : m.name ∉ h.map (·.name)) :
    h.add m = h ++ [m] :=
  if_neg new

/-- The versions of a method come in front of those of its name; a new name is appended. -/
def modify (h : History) (m : Method) : History :=
  if m.name ∈ h.map (·.name) then
    h.map fun old => if old.name = m.name then ⟨m.toVersion, m.earlier ++ old.versions⟩ else old
  else h ++ [m]

theorem modify_of_mem {h : History} {m : Method} (mem : m.name ∈ h.map (·.name)) :
    h.modify m =
      h.map fun old =>
        if old.name = m.name then ⟨m.toVersion, m.earlier ++ old.versions⟩ else old :=
  if_pos mem

theorem modify_of_not_mem {h : History} {m : Method} (new : m.name ∉ h.map (·.name)) :
    h.modify m = h ++ [m] :=
  if_neg new

/-- The name is forgotten with all its versions. -/
def remove (h : History) (name : String) : History := h.filter (·.name ≠ name)

/-- Where so much is known of the traits, a clause of a class of the module adds, modifies or
removes the methods of a set one by one. -/
def use (t : SymbolTable) (r : Resolver) (module : String) (h : History) : TraitUse → History
  | .adds e => (t.resolveExpr (some module) e r).set.methods.foldl add h
  | .modifies e => (t.resolveExpr (some module) e r).set.methods.foldl modify h
  | .removes sigs => sigs.foldl (fun h sig => h.remove sig.name) h

/-- What an operation on a class of the module makes of the history of its methods. -/
def record (t : SymbolTable) (r : Resolver) (module : String) (h : History) : ClassOp → History
  | .addMethod m => h.add m
  | .modifyMethod m => h.modify m
  | .removeMethod sig => h.remove sig.name
  | .addUse u => h.use t r module u
  | .addField _ | .removeField _ _ => h

end History

namespace MethodSet

variable {s : MethodSet}

/-- Method sets are histories on which the operators of the trait algebra act as one expects. -/
theorem methods_addAll (base extra : MethodSet) :
    (base.addAll extra).1.methods = extra.methods.foldl History.add base.methods := by
  rw [addAll]
  generalize extra.methods = ms
  induction ms generalizing base with
  | nil => rfl
  | cons m ms ih =>
    rw [insertAll, List.foldl_cons]
    by_cases mem : m.name ∈ base.names
    · rw [insert?_of_mem mem, History.add_of_mem mem, ← ih]
    · rw [insert?_of_not_mem mem, History.add_of_not_mem mem]
      exact ih _

theorem methods_modify_eq (s : MethodSet) (m : Method) :
    (s.modify m).methods = History.modify s.methods m := by
  rw [modify]
  cases found : s.get? m.name with
  | none =>
    have new : m.name ∉ s.names := get?_eq_none_iff.1 found
    rw [History.modify_of_not_mem new]
    exact congrArg methods (dif_neg new)
  | some old =>
    have present : m.name ∈ s.names := mem_names_iff.2 (by rw [found]; rfl)
    have name : old.name = m.name := by simpa using List.find?_some found
    rw [History.modify_of_mem present]
    refine (congrArg methods (dif_pos present)).trans (List.map_congr_left fun old' mem => ?_)
    by_cases same : old'.name = m.name
    · -- Only one method has the name.
      obtain rfl : old' = old := List.inj_on_of_nodup_map s.distinct mem
        (List.mem_of_find?_eq_some found) (same.trans name.symm)
      rw [if_pos same]
      exact if_pos same
    · rw [if_neg same]
      exact if_neg same

theorem methods_modifyAll (base extra : MethodSet) :
    (base.modifyAll extra).methods = extra.methods.foldl History.modify base.methods := by
  rw [modifyAll]
  generalize extra.methods = ms
  induction ms generalizing base with
  | nil => rfl
  | cons m ms ih => rw [List.foldl_cons, List.foldl_cons, ih, methods_modify_eq]

theorem methods_removeAll (s : MethodSet) (sigs : List Signature) :
    (s.removeAll sigs).1.methods =
      sigs.foldl (fun h sig => History.remove h sig.name) s.methods := by
  induction sigs generalizing s with
  | nil => rfl
  | cons sig sigs ih =>
    rw [removeAll, List.foldl_cons]
    by_cases mem : s.contains sig.name = true
    · rw [if_pos mem, ih]
      rfl
    · have absent : History.remove s.methods sig.name = s.methods :=
        List.filter_eq_self.2 fun m hm => decide_eq_true fun same => mem <|
          contains_iff.2 (same ▸ List.mem_map_of_mem hm)
      rw [if_neg mem, absent, ← ih]

end MethodSet

/-! ## Steps without findings -/

section

variable {σ τ ω : Type}

theorem exists_findings_attempt (step : σ → Except Diagnostic σ) (st : σ × Diagnostics) :
    ∃ ds, (attempt step st).2 = st.2 ++ ds := by
  rw [attempt]
  cases step st.1 with
  | ok s => exact ⟨[], (List.append_nil _).symm⟩
  | error d => exact ⟨[d], rfl⟩

theorem eq_ok_of_attempt_eq {step : σ → Except Diagnostic σ} {s s' : σ}
    (clean : attempt step (s, []) = (s', [])) : step s = .ok s' := by
  rw [attempt] at clean
  cases done : step s with
  | ok s => simp_all
  | error d => simp [done] at clean

/-- Where steps only add to the findings and nothing is reported, no step reports anything, so that
steps which keep a relation keep it to the end. -/
theorem foldl_of_clean (R : σ → τ → Prop) (step : σ × Diagnostics → ω → σ × Diagnostics)
    (next : τ → ω → τ) (adds : ∀ st op, ∃ ds, (step st op).2 = st.2 ++ ds) {ops : List ω}
    (keeps : ∀ op ∈ ops, ∀ s s' x, R s x → step (s, []) op = (s', []) → R s' (next x op))
    (st : σ × Diagnostics) {x : τ} (related : R st.1 x) (clean : (ops.foldl step st).2 = []) :
    R (ops.foldl step st).1 (ops.foldl next x) ∧ st.2 = [] := by
  induction ops generalizing st x with
  | nil => exact ⟨related, clean⟩
  | cons op ops ih =>
    -- The findings of the first step are found again at the end.
    have kept (st : σ × Diagnostics) : ∃ ds, (ops.foldl step st).2 = st.2 ++ ds := by
      clear ih clean keeps
      induction ops generalizing st with
      | nil => exact ⟨[], (List.append_nil _).symm⟩
      | cons op ops ih =>
        obtain ⟨ds, first⟩ := adds st op
        obtain ⟨ds', rest⟩ := ih (step st op)
        exact ⟨ds ++ ds', by rw [List.foldl_cons, rest, first, List.append_assoc]⟩
    rw [List.foldl_cons] at clean ⊢
    obtain ⟨ds, rest⟩ := kept (step st op)
    obtain ⟨ds', first⟩ := adds st op
    have after : (step st op).2 = [] := (List.append_eq_nil_iff.1 (rest.symm.trans clean)).1
    have before : st.2 = [] := (List.append_eq_nil_iff.1 (first.symm.trans after)).1
    obtain ⟨s, findings⟩ := st
    obtain rfl : findings = [] := before
    have stepped := keeps op List.mem_cons_self s (step (s, []) op).1 x related
      (Prod.ext rfl after)
    exact ⟨(ih (fun op mem => keeps op (List.mem_cons_of_mem _ mem)) _ stepped clean).1, rfl⟩

end

/-! ## Editing a class -/

namespace ClassEdit

variable {t : SymbolTable} {module delta : String} {r : Resolver} {e e' : ClassEdit} {h : History}

/-- The methods of the class under edit, once composed, have the given history. -/
structure Records (t : SymbolTable) (module : String) (r : Resolver) (e : ClassEdit)
    (h : History) : Prop where
  distinct : (e.cls.methods.map (·.name)).Nodup
  methods : (t.applyUses module e.cls r).set.methods = h

theorem refreshed_refresh (t : SymbolTable) (module : String) (e : ClassEdit) :
    (e.refresh t module).Refreshed := by
  intro none
  rw [ClassEdit.refresh] at none
  have names := (Option.or_eq_none_iff.1 none).2
  by_contra clauses
  change ¬ e.cls.uses = [] at clauses
  rw [SymbolTable.composedNames, if_neg (by simpa using clauses)] at names
  cases names

end ClassEdit

namespace SymbolTable

variable {t : SymbolTable} {module : String} {r : Resolver}

/-- The clauses of a class leave what is known of the traits as it is. -/
theorem applyUses_resolver_of_full (full : r.Full t) (module : String) (c : ClassDecl) :
    (t.applyUses module c r).resolver = r :=
  composeClass_resolver_of_full full module c

/-- A clause acts on the history of the methods before it. -/
theorem methods_applyUse {acc : Resolved} (known : acc.resolver = r) (u : TraitUse) :
    (t.applyUse module acc u).set.methods = History.use t r module acc.set.methods u := by
  subst known
  cases u with
  | adds e => exact MethodSet.methods_addAll _ _
  | modifies e => exact MethodSet.methods_modifyAll _ _
  | removes sigs => exact MethodSet.methods_removeAll _ _

end SymbolTable

namespace ClassEdit

variable {t : SymbolTable} {module delta : String} {r : Resolver} {e e' : ClassEdit} {h : History}

/-- A further clause acts on the history. -/
theorem Records.withUse (full : r.Full t) (records : e.Records t module r h) (u : TraitUse)
    (known : Option (List String)) :
    Records t module r ⟨{ e.cls with uses := e.cls.uses ++ [u] }, known⟩
      (h.use t r module u) where
  distinct := records.distinct
  methods := by
    rw [SymbolTable.applyUses_append,
      SymbolTable.methods_applyUse (SymbolTable.applyUses_resolver_of_full full module e.cls),
      records.methods]

/-- Without clauses the methods of the class are the history. -/
theorem Records.methods_eq (records : e.Records t module r h) (refreshed : e.Refreshed)
    (known : e.known = none) : h = e.cls.methods := by
  rw [← records.methods, SymbolTable.applyUses_of_plain (refreshed known) records.distinct]

theorem Records.inPlace (refreshed : e.Refreshed) (known : e.known = none) (s : MethodSet) :
    (e.withMethods s.methods).Records t module r s.methods :=
  ⟨s.distinct, congrArg (·.set.methods) (SymbolTable.applyUses_of_plain
    (c := (e.withMethods s.methods).cls) (refreshed known) s.distinct)⟩

/-- What is not about methods and clauses leaves the history as it is. -/
theorem Records.of_eq (records : e.Records t module r h) (methods : e'.cls.methods = e.cls.methods)
    (uses : e'.cls.uses = e.cls.uses) (name : e'.cls.name = e.cls.name) :
    e'.Records t module r h := by
  refine ⟨methods ▸ records.distinct, ?_⟩
  rw [← records.methods, SymbolTable.applyUses, SymbolTable.applyUses, methods, uses, name]

/-- Each operation that takes effect acts on the history. -/
theorem Records.apply (full : r.Full t) (records : e.Records t module r h)
    (refreshed : e.Refreshed) {op : ClassOp} (ok : e.apply delta op = .ok e') :
    e'.Records t module r (h.record t r module op) := by
  cases op with
  | addMethod m =>
    simp only [ClassEdit.apply, addMethod] at ok
    split at ok
    · cases ok
    · rename_i new
      split at ok
      · obtain rfl := Except.ok.inj ok
        exact records.withUse full (.adds (.set [m])) _
      · rename_i known
        obtain rfl := Except.ok.inj ok
        obtain rfl := records.methods_eq refreshed known
        have absent : m.name ∉ e.cls.methods.map (·.name) := by
          simpa [hasMethod, known, ClassDecl.method?] using new
        rw [History.record, History.add_of_not_mem absent]
        exact Records.inPlace refreshed known ⟨_, MethodSet.nodup_append records.distinct absent⟩
  | modifyMethod m =>
    obtain rfl := Except.ok.inj ok
    rw [modifyMethod]
    split
    · exact records.withUse full (.modifies (.set [m])) _
    · rename_i known
      obtain rfl := records.methods_eq refreshed known
      rw [History.record, ← MethodSet.methods_modify records.distinct,
        ← MethodSet.methods_modify_eq ⟨_, records.distinct⟩]
      exact Records.inPlace refreshed known _
  | removeMethod sig =>
    simp only [ClassEdit.apply, removeMethod] at ok
    split at ok
    · split at ok
      · obtain rfl := Except.ok.inj ok
        exact records.withUse full (.removes [sig]) _
      · rename_i known
        obtain rfl := Except.ok.inj ok
        obtain rfl := records.methods_eq refreshed known
        rw [← MethodSet.methods_erase records.distinct]
        exact Records.inPlace refreshed known _
    · cases ok
  | addField f =>
    simp only [ClassEdit.apply, addField] at ok
    split at ok <;> cases ok
    exact records.of_eq rfl rfl rfl
  | removeField name loc =>
    simp only [ClassEdit.apply, removeField] at ok
    split at ok <;> cases ok
    exact records.of_eq rfl rfl rfl
  | addUse u =>
    obtain rfl := Except.ok.inj ok
    exact records.withUse full u none

end ClassEdit

namespace SymbolTable

variable {t : SymbolTable} {module delta : String} {r : Resolver} {c : ClassDecl}
  {mod : ClassModifier}

/-- A modifier that takes effect makes of the history of a class what its operations do. -/
theorem records_modifyClass (full : r.Full t) (distinct : (c.methods.map (·.name)).Nodup)
    (clean : (t.modifyClass module delta mod c).2 = []) :
    ClassEdit.Records t module r ⟨(t.modifyClass module delta mod c).1, none⟩
      (mod.ops.foldl (History.record t r module) (t.applyUses module c r).set.methods) := by
  let R (e : ClassEdit) (h : History) : Prop := e.Records t module r h
  have start : R ⟨c, none⟩ (t.applyUses module c r).set.methods := ⟨distinct, rfl⟩
  have extended : R (mod.addImplements.foldl
      (fun st name => attempt (fun e => e.addInterface delta mod.loc name) st)
      ((⟨c, none⟩ : ClassEdit), [])).1 (t.applyUses module c r).set.methods := by
    refine foldl_preserves (P := fun e => R e (t.applyUses module c r).set.methods)
      (fun st name => attempt_preserves (P := fun e => R e (t.applyUses module c r).set.methods)
        (fun e e' ok related => ?_) st) mod.addImplements _ start
    unfold ClassEdit.addInterface at ok
    split at ok <;> cases ok
    exact related.of_eq rfl rfl rfl
  let step (st : ClassEdit × Diagnostics) (op : ClassOp) : ClassEdit × Diagnostics :=
    attempt (fun e => e.apply delta op) (st.1.refresh t module, st.2)
  have edited := (foldl_of_clean R step (History.record t r module)
    (fun st op => exists_findings_attempt (fun e => e.apply delta op) (st.1.refresh t module, st.2))
    (fun op _ e e' h related clean =>
      have refreshed : R (e.refresh t module) h := related.of_eq rfl rfl rfl
      refreshed.apply full (ClassEdit.refreshed_refresh t module e) (eq_ok_of_attempt_eq clean))
    _ extended clean).1
  exact edited.of_eq rfl rfl rfl

end SymbolTable

/-! ## Recording deltas -/

namespace Model

section

variable (t : SymbolTable) (r : Resolver) (module : String)

/-- The model without the declaration that the name means in the module. -/
def forget (m : Model) (kind : DeclKind) (name : String) : Model :=
  match m.locate kind name module with
  | .ok path => m.eraseDecl path
  | .error _ => m

/-- The model with the operations of a modifier recorded in the methods of the class that it
names. -/
def recordModifier (m : Model) (mod : ClassModifier) : Model :=
  match m.locate .class mod.name module with
  | .ok path =>
    match m.entry? path with
    | some ⟨_, owner, _, .class c⟩ =>
      m.modifyDecl path fun _ =>
        .class { c with methods := mod.ops.foldl (History.record t r owner) c.methods }
    | _ => m
  | .error _ => m

/-- What an operation of a delta makes of a model that is a record of methods: each class has the
history of its methods, and other declarations only have their names. -/
def recordOp (m : Model) : DeltaOp → Model
  | .addInterface i => m.appendTo module (.interface i)
  | .addClass c => m.appendTo module (.class (t.composedClass r module c))
  | .addTrait d => m.appendTo module (.trait d)
  | .removeInterface name _ => m.forget module .interface name
  | .removeClass name _ => m.forget module .class name
  | .removeTrait name _ => m.forget module .trait name
  | .modifyClass mod => m.recordModifier t r module mod
  | .modifyInterface _ | .modifyTrait _ _ _ => m

end

/-- What a list of deltas makes of the composed model, as a record of methods. -/
def recorded (m : Model) (es : List (Entry DeltaDecl)) : Model :=
  es.foldl (fun n e =>
      e.decl.ops.foldl (recordOp (.ofModel m) m.resolver (e.decl.uses.getD e.module)) n)
    m.composeClasses.model

/-- The history of each class of the model in order, with the names of its module and its own. -/
def histories (m : Model) : List (String × String × History) :=
  m.modules.flatMap fun mod => mod.classes.map fun c => (mod.name, c.name, c.methods)

end Model

/-- A declaration and its record: of the same name, and if it is a class then the record has the
history of its methods once they are composed. -/
inductive Decl.Recorded (t : SymbolTable) (r : Resolver) (module : String) : Decl → Decl → Prop
  | other {d d' : Decl} (kind : d.kind = d'.kind) (name : d.name = d'.name)
      (notClass : d.kind ≠ .class) : Recorded t r module d d'
  | class {c c' : ClassDecl} (name : c.name = c'.name)
      (distinct : (c.methods.map (·.name)).Nodup)
      (methods : (t.applyUses module c r).set.methods = c'.methods) :
      Recorded t r module (.class c) (.class c')

/-- A module and its record. -/
structure Module.Recorded (t : SymbolTable) (r : Resolver) (a b : Module) : Prop where
  name : a.name = b.name
  decls : List.Forall₂ (Decl.Recorded t r a.name) a.decls b.decls

section

variable {t : SymbolTable} {r : Resolver}

theorem Decl.Recorded.kind {module : String} {d d' : Decl} (h : Decl.Recorded t r module d d') :
    d.kind = d'.kind := by
  cases h with
  | other kind => exact kind
  | «class» => rfl

theorem Decl.Recorded.name {module : String} {d d' : Decl} (h : Decl.Recorded t r module d d') :
    d.name = d'.name := by
  cases h with
  | other _ name => exact name
  | «class» name => exact name

theorem Module.Recorded.position? {a b : Module} (h : Module.Recorded t r a b) (kind : DeclKind)
    (name : String) : a.position? kind name = b.position? kind name :=
  findIdx?_eq_of_forall₂ h.decls fun d d' same => by rw [same.kind, same.name]

/-- Composing a class with methods of distinct names records it. -/
theorem Decl.recorded_mapClass (module : String) {d : Decl}
    (distinct : ∀ c, d = .class c → (c.methods.map (·.name)).Nodup) :
    Decl.Recorded t r module d (d.mapClass (t.composedClass r module)) := by
  cases d with
  | «class» c => exact .class rfl (distinct c rfl) rfl
  | _ => exact .other rfl rfl (by simp [Decl.kind])

end

namespace Model

variable {t : SymbolTable} {r : Resolver} {m m' n : Model} {delta module : String}

theorem appendTo_of_missing (missing : m.module? module = none) (d : Decl) :
    m.appendTo module d = m := by
  have absent : ∀ u ∈ m.units, ¬ u.modules.any (·.name == module) = true := by
    simpa [module?, modules] using missing
  clear missing
  obtain ⟨units⟩ := m
  refine congrArg Model.mk ?_
  induction units with
  | nil => rfl
  | cons u us ih =>
    rw [appendToUnits, if_neg (absent u List.mem_cons_self)]
    exact congrArg (u :: ·) (ih fun u mem => absent u (List.mem_cons_of_mem _ mem))

/-- Replacing a declaration by itself. -/
theorem modifyDecl_self {path : DeclPath} {d : Decl} (found : m.decl? path = some d) :
    (m.modifyDecl path fun _ => d) = m := by
  refine congrArg Model.mk (modify_eq_self fun u hu => ?_)
  refine congrArg (CompilationUnit.mk u.file) (modify_eq_self fun mod hmod => ?_)
  refine congrArg (Module.mk mod.name · mod.loc) (modify_eq_self fun d' hd => ?_)
  rw [decl?_eq, moduleAt?, hu, Option.bind_some, hmod, Option.bind_some, hd] at found
  exact (Option.some.inj found).symm

/-- The second model is a record of the first one. -/
def Recorded (t : SymbolTable) (r : Resolver) (m n : Model) : Prop :=
  m.Related (Module.Recorded t r) n

namespace Recorded

theorem locate (h : m.Recorded t r n) (kind : DeclKind) (name preferred : String) :
    m.locate kind name preferred = n.locate kind name preferred :=
  Related.locate h (fun _ _ same => same.name) (fun _ _ same => same.position? kind) name preferred

theorem module? (h : m.Recorded t r n) (name : String) :
    Option.Rel (Module.Recorded t r) (m.module? name) (n.module? name) :=
  Related.module? h (fun _ _ same => same.name) name

theorem exists_entry (h : m.Recorded t r n) {path : DeclPath} {e : Entry Decl}
    (found : m.entry? path = some e) :
    ∃ d, n.entry? path = some ⟨path, e.module, d.name, d⟩ ∧
      Decl.Recorded t r e.module e.decl d :=
  Related.exists_entry h (fun _ _ same => same.name) (fun _ _ same => same.decls) found

theorem setDecl (h : m.Recorded t r n) {path : DeclPath} {e : Entry Decl}
    (found : m.entry? path = some e) {d d' : Decl} (same : Decl.Recorded t r e.module d d') :
    (m.modifyDecl path fun _ => d).Recorded t r (n.modifyDecl path fun _ => d') :=
  Related.setDecl h found fun _ _ named related =>
    ⟨related.name, forall₂_modify related.decls fun _ _ _ _ _ => named ▸ same⟩

theorem append (h : m.Recorded t r n) {d d' : Decl} (same : Decl.Recorded t r module d d') :
    (m.appendTo module d).Recorded t r (n.appendTo module d') :=
  Related.appendTo h (fun _ _ same => same.name) fun _ _ named related =>
    ⟨related.name, List.rel_append related.decls (.cons (named ▸ same) .nil)⟩

theorem addDecl (h : m.Recorded t r n) {d d' : Decl} (same : Decl.Recorded t r module d d')
    (ok : m.addDecl delta module d = .ok m') : m'.Recorded t r (n.appendTo module d') := by
  rw [Model.addDecl] at ok
  split at ok
  · rename_i missing
    obtain rfl := Except.ok.inj ok
    rw [← appendTo_of_missing missing d]
    exact h.append same
  · split at ok
    · cases ok
    · obtain rfl := Except.ok.inj ok
      exact h.append same

theorem forget (h : m.Recorded t r n) {kind : DeclKind} {name : String} {loc : Option Location}
    (ok : m.removeDecl delta module kind name loc = .ok m') :
    m'.Recorded t r (n.forget module kind name) := by
  rw [removeDecl, h.locate] at ok
  rw [Model.forget]
  cases located : n.locate kind name module with
  | error err => simp [located] at ok
  | ok path =>
    rw [located] at ok
    obtain rfl := Except.ok.inj ok
    exact Related.modifyModule h fun _ _ _ _ same =>
      ⟨same.name, forall₂_eraseIdx same.decls path.decl⟩

theorem modifyInterface (h : m.Recorded t r n) (delta module : String) (mod : InterfaceModifier) :
    (m.modifyInterface delta module mod).1.Recorded t r n := by
  rw [Model.modifyInterface]
  split
  · exact h
  · rename_i path located
    split
    · rename_i i found
      obtain ⟨owner, entry⟩ := exists_entry_of_decl? found
      obtain ⟨d, entry', same⟩ := h.exists_entry entry
      cases same with
      | other kind name notClass =>
        rw [← modifyDecl_self (decl?_of_entry?_eq_some entry')]
        exact h.setDecl entry
          (.other kind ((InterfaceDecl.name_modify delta mod i).trans name) (by simp [Decl.kind]))
    · exact h

theorem modifyClass (full : r.Full t) (traits : (SymbolTable.ofModel m).SameTraits t)
    (h : m.Recorded t r n) {mod : ClassModifier}
    (clean : (m.modifyClass delta module mod).2 = []) :
    (m.modifyClass delta module mod).1.Recorded t r (n.recordModifier t r module mod) := by
  rw [Model.modifyClass] at clean ⊢
  rw [recordModifier, ← h.locate]
  cases located : m.locate .class mod.name module with
  | error err => simp [located] at clean
  | ok path =>
    obtain ⟨d, found, kind, -⟩ := exists_of_locate located
    obtain ⟨owner, entry⟩ := exists_entry_of_decl? found
    obtain ⟨d', entry', same⟩ := h.exists_entry entry
    cases same with
    | other _ _ notClass => exact absurd kind notClass
    | «class» name distinct methods =>
      simp only [located, entry, traits.modifyClass] at clean
      simp only [entry, entry', traits.modifyClass]
      have records := SymbolTable.records_modifyClass full distinct clean
      have named := (t.name_modifyClass owner delta mod _).trans name
      refine h.setDecl entry (.class named records.distinct ?_)
      rw [← methods]
      exact records.methods

/-- An operation that makes no finding and leaves the traits alone is recorded. -/
theorem applyOp (full : r.Full t) (traits : (SymbolTable.ofModel m).SameTraits t)
    (h : m.Recorded t r n) {op : DeltaOp} (leaves : op.target.1 ≠ .trait)
    (distinct : ∀ c, op = .addClass c → (c.methods.map (·.name)).Nodup)
    (done : applyOp delta module (m, []) op = (m', [])) :
    m'.Recorded t r (n.recordOp t r module op) := by
  cases op with
  | addInterface i =>
    rw [Model.applyOp] at done
    exact h.addDecl (.other rfl rfl (by simp [Decl.kind])) (eq_ok_of_attempt_eq done)
  | addClass c =>
    rw [Model.applyOp] at done
    exact h.addDecl (.class (c := c) rfl (distinct c rfl) rfl) (eq_ok_of_attempt_eq done)
  | removeInterface name loc | removeClass name loc =>
    rw [Model.applyOp] at done
    exact h.forget (eq_ok_of_attempt_eq done)
  | addTrait d | removeTrait name loc | modifyTrait name expr loc => cases leaves rfl
  | modifyInterface mod =>
    have same : (m.modifyInterface delta module mod).1 = m' := congrArg Prod.fst done
    exact same ▸ h.modifyInterface delta module mod
  | modifyClass mod =>
    have same : (m.modifyClass delta module mod).1 = m' := congrArg Prod.fst done
    exact same ▸ h.modifyClass full traits (congrArg Prod.snd done)

end Recorded

theorem exists_findings_applyOp (delta module : String) (st : Model × Diagnostics) (op : DeltaOp) :
    ∃ ds, (applyOp delta module st op).2 = st.2 ++ ds := by
  cases op with
  | modifyInterface mod | modifyClass mod => exact ⟨_, rfl⟩
  | _ => exact exists_findings_attempt _ st

/-- What a list of deltas that make no finding and leave the traits alone derives is recorded. -/
theorem Recorded.applyDeltas (full : r.Full t) {es : List (Entry DeltaDecl)}
    (traits : (SymbolTable.ofModel m).SameTraits t) (h : m.Recorded t r n)
    (leaves : ∀ e ∈ es, e.decl.LeavesTraits)
    (distinct : ∀ e ∈ es, ∀ c, .addClass c ∈ e.decl.ops → (c.methods.map (·.name)).Nodup)
    (applied : m.applyDeltas es = .ok m') :
    (SymbolTable.ofModel m').SameTraits t ∧ m'.Recorded t r (es.foldl (fun n e =>
      e.decl.ops.foldl (recordOp t r (e.decl.uses.getD e.module)) n) n) := by
  let R (m n : Model) : Prop := (SymbolTable.ofModel m).SameTraits t ∧ m.Recorded t r n
  induction es generalizing m n with
  | nil =>
    obtain rfl := Except.ok.inj applied
    exact ⟨traits, h⟩
  | cons e es ih =>
    rw [Model.applyDeltas] at applied
    dsimp only at applied
    split at applied
    · rename_i clean
      have first := (foldl_of_clean R _ (recordOp t r (e.decl.uses.getD e.module))
        (exists_findings_applyOp e.decl.name (e.decl.uses.getD e.module))
        (fun op mem s s' x related done => by
          have leaves := leaves e List.mem_cons_self op mem
          refine ⟨?_, related.2.applyOp full related.1 leaves
            (fun c eq => distinct e List.mem_cons_self c (eq ▸ mem)) done⟩
          have kept : (SymbolTable.ofModel
              (Model.applyOp e.decl.name (e.decl.uses.getD e.module) (s, []) op).1).SameTraits
              (.ofModel s) := sameTraits_applyOp leaves (s, [])
          rw [done] at kept
          exact kept.trans related.1)
        (m, m.missingModule e.decl (e.decl.uses.getD e.module)) ⟨traits, h⟩
        (List.isEmpty_iff.1 clean)).1
      exact ih first.1 first.2 (fun e mem => leaves e (List.mem_cons_of_mem _ mem))
        (fun e mem => distinct e (List.mem_cons_of_mem _ mem)) applied
    · cases applied

/-- The record of a model has the histories of its classes once they are composed. -/
theorem Recorded.histories (h : m.Recorded t r n) :
    (m.mapModules (Module.compose t r)).histories = n.histories := by
  have composed : (m.mapModules (Module.compose t r)).modules =
      m.modules.map (Module.compose t r) := by
    rw [modules, modules, mapModules, List.flatMap_map, List.map_flatMap]
  rw [Model.histories, Model.histories, composed, List.flatMap_map]
  refine flatMap_eq_of_forall₂ (Related.modules h) fun a b same => ?_
  rw [Module.classes, Module.classes, Module.compose, List.filterMap_map, List.map_filterMap,
    List.map_filterMap]
  refine filterMap_eq_of_forall₂ same.decls fun d d' recorded => ?_
  rw [same.name] at recorded ⊢
  cases recorded with
  | other kind _ notClass =>
    cases d <;> cases d' <;> first | rfl | exact absurd rfl notClass | cases kind
  | @«class» c c' name _ methods =>
    change some (b.name, c.name, (t.applyUses b.name c r).set.methods) = _
    rw [name, methods]
    rfl

/-- The methods of the classes of a product are what its deltas make of the methods that the classes
of the model are composed of at first. -/
theorem flatten_histories {names : List String} {product : Option String} {f : Flattened}
    {es : List (Entry DeltaDecl)} (flat : m.flatten ⟨product, names⟩ = .ok f)
    (valid : m.validateDeltas names = .ok es) (leaves : ∀ e ∈ es, e.decl.LeavesTraits)
    (distinct : ∀ c ∈ m.classes, (c.methods.map (·.name)).Nodup)
    (added : ∀ e ∈ es, ∀ c, .addClass c ∈ e.decl.ops → (c.methods.map (·.name)).Nodup) :
    f.model.histories = (m.recorded es).histories := by
  obtain ⟨es', d, valid', applied, rfl⟩ := exists_derived_of_flatten flat
  obtain rfl : es = es' := Except.ok.inj (valid.symm.trans valid')
  have start : m.Recorded (.ofModel m) m.resolver m.composeClasses.model := by
    rw [composeClasses_eq_of_sameTraits (m := m) (t := .ofModel m) rfl]
    refine related_mapModules fun mod hmod => ⟨rfl, ?_⟩
    rw [Module.compose, List.forall₂_map_right_iff, List.forall₂_same]
    refine fun decl hdecl => Decl.recorded_mapClass mod.name fun c eq => distinct c ?_
    exact List.mem_flatMap.2 ⟨mod, hmod, List.mem_filterMap.2 ⟨decl, hdecl, by rw [eq]; rfl⟩⟩
  obtain ⟨traits, recorded⟩ := start.applyDeltas m.resolver_full rfl leaves added applied
  rw [composeClasses_eq_of_sameTraits traits]
  exact recorded.histories

/-- A class that uses a trait and whose method is then modified has two versions of the method. -/
theorem flatten_histories_stagedModel :
    ∃ f es, stagedModel.flatten ⟨none, ["A", "B"]⟩ = .ok f ∧
      stagedModel.validateDeltas ["A", "B"] = .ok es ∧
      f.model.histories = (stagedModel.recorded es).histories ∧
      (stagedModel.recorded es).histories =
        [("M", "C", [⟨(default : Method).toVersion, [(default : Method).toVersion]⟩])] := by
  obtain ⟨f, flat⟩ : ∃ f, stagedModel.flatten ⟨none, ["A", "B"]⟩ = .ok f :=
    exists_of_isOk (by decide +kernel)
  obtain ⟨es, valid⟩ : ∃ es, stagedModel.validateDeltas ["A", "B"] = .ok es :=
    exists_of_isOk (by decide +kernel)
  have leaves : ∀ e ∈ stagedModel.deltaEntries, e.decl.LeavesTraits := by
    unfold DeltaDecl.LeavesTraits
    decide +kernel
  have distinct : ∀ c ∈ stagedModel.classes, (c.methods.map (·.name)).Nodup := by decide +kernel
  have added : ∀ e ∈ stagedModel.deltaEntries, ∀ op ∈ e.decl.ops, op.added = none := by
    decide +kernel
  have recorded := flatten_histories flat valid
    (fun e mem => leaves e (mem_deltaEntries_of_valid valid mem)) distinct
    (fun e mem c here => nomatch added e (mem_deltaEntries_of_valid valid mem) _ here)
  refine ⟨f, es, flat, valid, recorded, recorded ▸ ?_⟩
  have histories : (stagedModel.flatten ⟨none, ["A", "B"]⟩).toOption.map (·.model.histories) =
      some [("M", "C", [⟨(default : Method).toVersion, [(default : Method).toVersion]⟩])] := by
    decide +kernel
  rw [flat] at histories
  exact Option.some.inj histories

end Model

end DeltaLang
