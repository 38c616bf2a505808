import DeltaLang.Proofs.Typing.Classes
import DeltaLang.Proofs.Typing.Occurrences

/-!
# Declarations that hold references

Fields, parameters and local variables may hold references.  At some visits of the traversal such
declarations come into scope: those of a class when it is entered, the parameters of a method when
its body is entered, and a local variable when its declaration was visited.  What comes into scope
along the traversal, each time looked up by its name, is what the program declares.
-/

namespace DeltaLang

/-! ## Declarations of a program -/

/-- The local variables that are declared among some occurrences, in order. -/
def localsOf (os : List Occurrence) : List (String × TypeUse) :=
  os.filterMap fun
    | .stmt (.decl type name _ _) => some (name, type)
    | _ => none

namespace SymbolTable

variable (t : SymbolTable)

/-- The node, if it is declared with a type of references. -/
def reference? (module : String) (type : TypeUse) (node : NodeRef) : Option NodeRef :=
  if (t.typeOr module type).isReference then some node else none

/-- The parameters and fields of a class that hold references. -/
def memberReferences (c : Entry ClassDecl) : List NodeRef :=
  (c.decl.params.filterMap fun p =>
    t.reference? c.module p.type (.classParam c.qualifiedName p.name)) ++
    c.decl.fields.filterMap fun f => t.reference? c.module f.type (.field c.qualifiedName f.name)

/-- The parameters in a body that hold references.  Of parameters of one name it is the last that
the name means. -/
def paramReferences (module cls body : String) (sig : Signature) : List NodeRef :=
  sig.params.filterMap fun p => (sig.params.reverse.find? (·.name == p.name)).bind fun q =>
    t.reference? module q.type (.param cls body p.name)

/-- The local variables among some occurrences in a body that hold references; all local variables
are numbered from `j` on. -/
def localReferences (module cls body : String) (j : Nat) (os : List Occurrence) : List NodeRef :=
  ((localsOf os).zipIdx j).filterMap fun ((name, type), i) =>
    t.reference? module type (.local cls body name i)

/-- The parameters and local variables of a version of a method that hold references. -/
def versionReferences (c : Entry ClassDecl) (v : Version) (i : Nat) : List NodeRef :=
  t.paramReferences c.module c.qualifiedName (versionBody v.name i) v.sig ++
    t.localReferences c.module c.qualifiedName (versionBody v.name i) 0
      (Stmt.allOccurrences v.body)

/-- The declarations of a class that hold references: its parameters and fields, the local variables
of its initial block, what every version of its methods declares, and the local variables of its
recovery block. -/
def references (c : Entry ClassDecl) : List NodeRef :=
  t.memberReferences c ++
    t.localReferences c.module c.qualifiedName initBody 0
      (Stmt.allOccurrences (c.decl.init.getD [])) ++
    (c.decl.methods.flatMap fun m => m.versions.zipIdx.flatMap fun (v, i) =>
      t.versionReferences c v i) ++
    c.decl.recover.toList.flatMap fun block =>
      t.localReferences c.module c.qualifiedName recoverBody 0 (Stmt.allOccurrences block)

end SymbolTable

/-- The declarations of a model that hold references. -/
def Model.references (m : Model) : List NodeRef :=
  m.classEntries.flatMap (SymbolTable.ofModel m).references

/-! ## Declarations that come into scope -/

/-- The node of what is bound, if that holds references. -/
def Binding.reference? (b : Binding) : Option NodeRef :=
  if b.type.isReference then some b.node else none

/-- The declarations holding references that come into scope at a visit. -/
def Visit.declared (cx : Context) : Visit → List NodeRef
  | .beforeClass => cx.fields.filterMap Binding.reference?
  | .beforeBody _ => cx.version?.toList.flatMap fun v =>
    v.sig.params.filterMap fun p => (cx.lookup p.name).bind Binding.reference?
  | .stmt (.decl _ name _ _) _ => ((cx.lookup name).bind Binding.reference?).toList
  | _ => []

def Event.declared : Event → List NodeRef
  | .visit (some cx) v => v.declared cx
  | _ => []

/-- The declarations holding references that come into scope along some events. -/
def declaredIn (es : List Event) : List NodeRef := es.flatMap Event.declared

theorem declaredIn_append (es es' : List Event) :
    declaredIn (es ++ es') = declaredIn es ++ declaredIn es' := List.flatMap_append

theorem declaredIn_findings (ds : Diagnostics) : declaredIn (ds.map .finding) = [] :=
  List.flatMap_eq_nil_iff.2 fun _ mem => by
    obtain ⟨d, -, rfl⟩ := List.mem_map.1 mem
    rfl

theorem declaredIn_flatMap {α : Type} (l : List α) (f : α → List Event) :
    declaredIn (l.flatMap f) = l.flatMap fun a => declaredIn (f a) := List.flatMap_assoc

mutual

/-- Expressions bring nothing into scope. -/
theorem declaredIn_events (cx : Context) : (e : TypedExpr) → declaredIn (e.events cx) = []
  | .mk _ _ _ _ ds parts => by
    rw [TypedExpr.events, declaredIn_append, declaredIn_append, declaredIn_findings,
      declaredIn_eventsOfAll cx parts]
    rfl

theorem declaredIn_eventsOfAll (cx : Context) :
    (es : List TypedExpr) → declaredIn (TypedExpr.eventsOfAll cx es) = []
  | [] => rfl
  | e :: es => by
    rw [TypedExpr.eventsOfAll, declaredIn_append, declaredIn_events cx e,
      declaredIn_eventsOfAll cx es]
    rfl

end

namespace SymbolTable

variable {t : SymbolTable} {cx : Context}

/-! ## Local variables -/

theorem length_localsOf (os : List Occurrence) :
    (localsOf os).length = os.countP Occurrence.declares := by
  induction os with
  | nil => rfl
  | cons o os ih =>
    rw [List.countP_cons, ← ih, localsOf]
    cases o with
    | expr e => rfl
    | stmt s => cases s <;> rfl

theorem localReferences_append (module cls body : String) (j : Nat) (os os' : List Occurrence) :
    t.localReferences module cls body j (os ++ os') =
      t.localReferences module cls body j os ++
        t.localReferences module cls body (j + os.countP Occurrence.declares) os' := by
  have split : localsOf (os ++ os') = localsOf os ++ localsOf os' :=
    List.filterMap_append
  rw [localReferences, split, List.zipIdx_append, List.filterMap_append, length_localsOf]
  rfl

/-- Where no variable is declared none holds references. -/
theorem localReferences_eq_nil {module cls body : String} {j : Nat} {os : List Occurrence}
    (none : os.countP Occurrence.declares = 0) :
    t.localReferences module cls body j os = [] := by
  rw [← length_localsOf, List.length_eq_zero_iff] at none
  rw [localReferences, none]
  rfl

/-- From a state on, the traversal of a part of a body brings into scope what the occurrences
declare. -/
structure Declares (t : SymbolTable) (cx : Context) (st : BodyState) (os : List Occurrence)
    (r : BodyState × List Event) : Prop
    extends Traverses cx.className cx.bodyName st os r where
  declared : declaredIn r.2 =
    t.localReferences cx.module cx.className cx.bodyName st.nextLocal os

namespace Declares

variable {st st' st'' : BodyState} {os os' : List Occurrence} {es es' : List Event}

theorem nil : t.Declares cx st [] (st, []) := ⟨.nil, rfl⟩

theorem append (h : t.Declares cx st os (st', es)) (h' : t.Declares cx st' os' (st'', es')) :
    t.Declares cx st (os ++ os') (st'', es ++ es') where
  toTraverses := h.toTraverses.append h'.toTraverses
  declared := by
    rw [declaredIn_append, localReferences_append, ← h.nextLocal, ← h.declared, ← h'.declared]

theorem withFindings (h : t.Declares cx st os (st', es)) (ds : Diagnostics) :
    t.Declares cx st os (st', ds.map .finding ++ es) where
  toTraverses := h.toTraverses.withFindings ds
  declared := by
    rw [declaredIn_append, declaredIn_findings, List.nil_append]
    exact h.declared

theorem inScope (h : t.Declares cx st.enter os (st', es)) :
    t.Declares cx st os (st'.leave, es) where
  toTraverses := h.toTraverses.inScope
  declared := h.declared

end Declares

theorem declares_typeIn (t : SymbolTable) (cx : Context) (st : BodyState) (e : Expr)
    (ds : Diagnostics) :
    t.Declares cx st e.occurrences
      ((t.typeIn cx st e).2, evaluated cx (t.typeIn cx st e).2 (t.typeIn cx st e).1 ds) where
  toTraverses := traverses_typeIn t cx st e ds
  declared := by
    have none := (shows_typeExpr t (cx.withScopes st.scopes) (cx.withScopes st.scopes)
      st.nextExpr e).declares
    rw [localReferences_eq_nil none, evaluated, declaredIn_append, declaredIn_findings,
      declaredIn_events]
    rfl

/-- A statement that declares nothing brings nothing into scope. -/
theorem declares_visited {s : Stmt} (plain : s.declared? = none) (st : BodyState)
    (value : Option TypedExpr) :
    t.Declares cx st [.stmt s] (st, [visited cx st s value]) where
  toTraverses := traverses_visited plain st value
  declared := by
    have none : [Occurrence.stmt s].countP Occurrence.declares = 0 := by
      simp [Occurrence.declares, plain]
    rw [localReferences_eq_nil none]
    cases s with
    | decl => cases plain
    | _ => rfl

/-- The declaration of a local variable brings this variable into scope. -/
theorem declares_bind {type : TypeUse} {name : String} {init : Option Expr}
    {loc : Option Location} (inBody : cx.body.isSome) (st : BodyState)
    (inScope : st.scopes ≠ []) (value : Option TypedExpr) {ty : Ty}
    (typed : ty = t.typeOr cx.module type) :
    t.Declares cx st [.stmt (.decl type name init loc)]
      (st.bind ⟨name, .local cx.className cx.bodyName name st.nextLocal, ty⟩,
        [visited cx (st.bind ⟨name, .local cx.className cx.bodyName name st.nextLocal, ty⟩)
          (.decl type name init loc) value]) where
  toTraverses := traverses_bind rfl inBody st inScope ty value
  declared := by
    have bound := lookup_bind inBody inScope
      ⟨name, .local cx.className cx.bodyName name st.nextLocal, ty⟩
    subst typed
    simp only [declaredIn, visited, List.flatMap_cons, List.flatMap_nil, Event.declared,
      Visit.declared, bound, Option.bind_some, List.append_nil, Binding.reference?,
      localReferences, localsOf, List.filterMap_cons, List.filterMap_nil, List.zipIdx_cons,
      List.zipIdx_nil, reference?]
    split <;> rfl

mutual

/-- The traversal of a statement brings the local variables in it into scope. -/
theorem declares_walkStmt (t : SymbolTable) {cx : Context} (inBody : cx.body.isSome) (ret : Ty)
    (st : BodyState) (inScope : st.scopes ≠ []) : (s : Stmt) →
      t.Declares cx st s.occurrences (t.walkStmt cx ret st s)
  | .skip _ => by
    rw [walkStmt, Stmt.occurrences]
    exact declares_visited rfl st none
  | .ret value _ | .eval value _ | .assign _ value _ => by
    rw [walkStmt, Stmt.occurrences]
    exact (declares_typeIn t cx st value _).append (declares_visited rfl _ _)
  | .decl _ _ none _ => by
    rw [walkStmt, Stmt.occurrences]
    exact (declares_bind inBody st inScope none (fst_checkType ..)).withFindings _
  | .decl _ _ (some value) _ => by
    rw [walkStmt, Stmt.occurrences]
    exact ((declares_typeIn t cx st value _).withFindings _).append
      (declares_bind inBody (t.typeIn cx st value).2 inScope _ (fst_checkType ..))
  | .ite cond yes none _ => by
    rw [walkStmt, Stmt.occurrences]
    have branch := declares_walkStmts t inBody ret (t.typeIn cx st cond).2.enter
      (List.cons_ne_nil _ _) yes
    exact ((declares_typeIn t cx st cond _).append branch.inScope).append
      (declares_visited rfl _ _)
  | .ite cond yes (some no) _ => by
    rw [walkStmt, Stmt.occurrences]
    have branch := declares_walkStmts t inBody ret (t.typeIn cx st cond).2.enter
      (List.cons_ne_nil _ _) yes
    have other := declares_walkStmts t inBody ret
      (t.walkStmts cx ret (t.typeIn cx st cond).2.enter yes).1.leave.enter
      (List.cons_ne_nil _ _) no
    exact (((declares_typeIn t cx st cond _).append branch.inScope).append other.inScope).append
      (declares_visited rfl _ _)
  | .loop cond body _ => by
    rw [walkStmt, Stmt.occurrences]
    have round := declares_walkStmts t inBody ret (t.typeIn cx st cond).2.enter
      (List.cons_ne_nil _ _) body
    exact ((declares_typeIn t cx st cond _).append round.inScope).append
      (declares_visited rfl _ _)

theorem declares_walkStmts (t : SymbolTable) {cx : Context} (inBody : cx.body.isSome) (ret : Ty)
    (st : BodyState) (inScope : st.scopes ≠ []) : (ss : List Stmt) →
      t.Declares cx st (Stmt.allOccurrences ss) (t.walkStmts cx ret st ss)
  | [] => .nil
  | s :: ss => by
    have first := declares_walkStmt t inBody ret st inScope s
    have inScope' : (t.walkStmt cx ret st s).1.scopes ≠ [] := by
      rw [← List.length_pos_iff_ne_nil, first.depth, List.length_pos_iff_ne_nil]
      exact inScope
    exact first.append (declares_walkStmts t inBody ret _ inScope' ss)

end

/-! ## Bodies -/

/-- The traversal of a body brings into scope the parameters that it starts with, then the local
variables. -/
theorem declaredIn_walkBody (t : SymbolTable) (cx : Context) (name : String)
    (version : Option Version) (ret : Ty) (params : List Binding) (prelude block : Block) :
    declaredIn (t.walkBody cx name version ret params prelude block) =
      (Visit.beforeBody block).declared (cx.inBody name version ret params) ++
        t.localReferences cx.module cx.className name 0
          (Stmt.allOccurrences (prelude ++ block)) := by
  let cx' := cx.inBody name version ret params
  have inBody : cx'.body.isSome := rfl
  have outer := declares_walkStmts t inBody ret ⟨[params], 0, 0⟩ (List.cons_ne_nil _ _) prelude
  have inner := declares_walkStmts t inBody ret
    (t.walkStmts cx' ret ⟨[params], 0, 0⟩ prelude).1.enter (List.cons_ne_nil _ _) block
  have within := (outer.append inner.inScope).declared
  rw [Stmt.allOccurrences_append]
  change declaredIn (([.visit cx' (.beforeBody block)] ++
    (t.walkStmts cx' ret ⟨[params], 0, 0⟩ prelude).2) ++
      (t.walkStmts cx' ret (t.walkStmts cx' ret ⟨[params], 0, 0⟩ prelude).1.enter block).2 ++
        [.visit cx' (.afterBody block)]) = _
  rw [List.append_assoc [_], declaredIn_append, declaredIn_append, within]
  exact (List.append_nil _).trans (congrArg (· ++ _) (List.append_nil _))

/-- Where a body starts, the name of a parameter means the last parameter of that name. -/
theorem find?_params (t : SymbolTable) (cx : Context) (body name : String) (params : List Param) :
    (params.map (t.paramBinding cx body)).reverse.find? (·.name == name) =
      (params.reverse.find? (·.name == name)).map (t.paramBinding cx body) := by
  rw [← List.map_reverse, List.find?_map]
  rfl

theorem reference?_paramBinding (t : SymbolTable) (cx : Context) (body : String) (p : Param) :
    (t.paramBinding cx body p).reference? =
      t.reference? cx.module p.type (.param cx.className body p.name) := rfl

theorem declared_beforeBody (t : SymbolTable) (cx : Context) (body : String) (v : Version)
    (ret : Ty) (block : Block) :
    (Visit.beforeBody block).declared
        (cx.inBody body (some v) ret (v.sig.params.map (t.paramBinding cx body)).reverse) =
      t.paramReferences cx.module cx.className body v.sig := by
  change v.sig.params.filterMap _ ++ [] = _
  rw [List.append_nil, paramReferences]
  refine List.filterMap_congr fun p mem => ?_
  have scopes : (cx.inBody body (some v) ret
      (v.sig.params.map (t.paramBinding cx body)).reverse).scopes.flatten =
        (v.sig.params.map (t.paramBinding cx body)).reverse := List.append_nil _
  rw [Context.lookup_eq, scopes, find?_params]
  cases found : v.sig.params.reverse.find? (·.name == p.name) with
  | none =>
    exact absurd (List.find?_eq_none.1 found p (List.mem_reverse.2 mem)) (by simp)
  | some q =>
    have named : q.name = p.name := by simpa using List.find?_some found
    rw [Option.map_some, Option.some_or, Option.bind_some, reference?_paramBinding, named]
    rfl

theorem declaredIn_walkVersion (t : SymbolTable) (c : Entry ClassDecl) (v : Version) (i : Nat) :
    declaredIn (t.walkVersion (t.classContext c) v i) = t.versionReferences c v i := by
  simp only [walkVersion, bindParams_eq, fst_checkType, declaredIn_append, declaredIn_findings,
    List.nil_append]
  rw [declaredIn_walkBody, declared_beforeBody]
  rfl

/-! ## Classes -/

theorem countP_declares_fieldInits (t : SymbolTable) (c : Entry ClassDecl) :
    (Stmt.allOccurrences (fieldInits c.decl)).countP Occurrence.declares = 0 := by
  rw [fieldInits]
  induction c.decl.fields with
  | nil => rfl
  | cons f fields ih =>
    cases value : f.value with
    | none => simpa only [List.filterMap_cons, value, Option.map_none] using ih
    | some e =>
      have none := (shows_typeExpr t (t.classContext c) (t.classContext c) 0 e).declares
      simp only [List.filterMap_cons, value, Option.map_some, Stmt.allOccurrences,
        Stmt.occurrences, List.countP_append, none, ih]
      rfl

/-- The initial values of fields declare no local variables. -/
theorem declaredIn_initBody (t : SymbolTable) (c : Entry ClassDecl) :
    declaredIn (t.walkBody (t.classContext c) initBody none .unit [] (fieldInits c.decl)
      (c.decl.init.getD [])) = t.localReferences c.module c.qualifiedName initBody 0
        (Stmt.allOccurrences (c.decl.init.getD [])) := by
  have none := countP_declares_fieldInits t c
  rw [declaredIn_walkBody, Stmt.allOccurrences_append, localReferences_append, none,
    localReferences_eq_nil none]
  rfl

theorem filterMap_bindFields (t : SymbolTable) (c : Entry ClassDecl) :
    (t.bindFields c).1.filterMap Binding.reference? = t.memberReferences c := by
  rw [fst_bindFields, List.filterMap_append, List.filterMap_map, List.filterMap_map]
  rfl

/-- The traversal of a class brings into scope what the class declares. -/
theorem declaredIn_walkClass (t : SymbolTable) (c : Entry ClassDecl) :
    declaredIn (t.walkClass c) = t.references c := by
  have before : declaredIn [.visit (t.classContext c) .beforeClass] = t.memberReferences c :=
    (List.append_nil _).trans (filterMap_bindFields t c)
  have after : declaredIn [.visit (t.classContext c) .afterClass] = [] := rfl
  have recover (block : Block) :
      declaredIn (t.walkBody (t.classContext c) recoverBody none .unit [] [] block) =
        t.localReferences c.module c.qualifiedName recoverBody 0 (Stmt.allOccurrences block) :=
    declaredIn_walkBody t (t.classContext c) recoverBody none .unit [] [] block
  change declaredIn ((t.bindFields c).2.map Event.finding ++
    [.visit (t.classContext c) .beforeClass] ++
    (t.missingMethods (t.classContext c)).map Event.finding ++
    t.walkBody (t.classContext c) initBody none .unit [] (fieldInits c.decl)
      (c.decl.init.getD []) ++
    (c.decl.methods.flatMap fun m => m.versions.zipIdx.flatMap fun x =>
      t.walkVersion (t.classContext c) x.1 x.2) ++
    (c.decl.recover.toList.flatMap fun block =>
      t.walkBody (t.classContext c) recoverBody none .unit [] [] block) ++
    [.visit (t.classContext c) .afterClass]) = _
  simp only [declaredIn_append, declaredIn_findings, declaredIn_flatMap, declaredIn_initBody,
    declaredIn_walkVersion, before, after, recover, List.nil_append, List.append_nil]
  rfl

end SymbolTable

/-- The traversal of a model brings into scope what the model declares. -/
theorem declaredIn_walkModel (m : Model) :
    declaredIn ((SymbolTable.ofModel m).walkModel m) = m.references := by
  have last : declaredIn [.visit none .finish] = [] := rfl
  have interfaces (is : List (Entry InterfaceDecl)) :
      declaredIn (is.flatMap (SymbolTable.ofModel m).walkInterface) = [] := by
    rw [declaredIn_flatMap]
    exact List.flatMap_eq_nil_iff.2 fun _ _ => declaredIn_findings _
  simp only [SymbolTable.walkModel, declaredIn_append, interfaces, last, declaredIn_flatMap,
    SymbolTable.declaredIn_walkClass, List.nil_append, List.append_nil]
  exact flatMap_ofModule m Decl.class? _

end DeltaLang
