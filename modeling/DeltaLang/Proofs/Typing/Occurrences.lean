import DeltaLang.Proofs.Typing.Quiet

/-!
# What the traversal visits

An expression occurs in a body once for each time it is written there, and so does a statement.
In the order of the traversal the parts of an expression come from left to right before the
expression, and the expressions and statements of a statement before the statement.  The traversal
visits every occurrence once in this order, and numbers the expressions of a body, and the local
variables it declares, one after the other.
-/

namespace DeltaLang

/-! ## Occurrences -/

inductive Occurrence where
  | expr (e : Expr)
  | stmt (s : Stmt)

/-- The variable that the statement declares, if it declares one. -/
def Stmt.declared? : Stmt → Option String
  | decl _ name _ _ => some name
  | _ => none

namespace Occurrence

def isExpr : Occurrence → Bool
  | expr _ => true
  | stmt _ => false

/-- Whether a local variable is declared. -/
def declares : Occurrence → Bool
  | expr _ => false
  | stmt s => s.declared?.isSome

end Occurrence

mutual

/-- What occurs in the expression, itself last. -/
def Expr.occurrences : Expr → List Occurrence
  | e@(.bool ..) | e@(.int ..) | e@(.str ..) | e@(.null _) | e@(.this _) | e@(.var ..)
  | e@(.field ..) => [.expr e]
  | e@(.unary _ operand _) => operand.occurrences ++ [.expr e]
  | e@(.binary _ lhs rhs _) => lhs.occurrences ++ rhs.occurrences ++ [.expr e]
  | e@(.call target _ args _ _) => target.occurrences ++ Expr.allOccurrences args ++ [.expr e]
  | e@(.get future _) => future.occurrences ++ [.expr e]
  | e@(.new _ args _ _) => Expr.allOccurrences args ++ [.expr e]
  | e@(.original args _) => Expr.allOccurrences args ++ [.expr e]

def Expr.allOccurrences : List Expr → List Occurrence
  | [] => []
  | e :: es => e.occurrences ++ Expr.allOccurrences es

end

mutual

/-- What occurs in the statement, itself last. -/
def Stmt.occurrences : Stmt → List Occurrence
  | s@(.skip _) | s@(.decl _ _ none _) => [.stmt s]
  | s@(.ret value _) | s@(.decl _ _ (some value) _) | s@(.assign _ value _) | s@(.eval value _) =>
    value.occurrences ++ [.stmt s]
  | s@(.ite cond yes none _) => cond.occurrences ++ Stmt.allOccurrences yes ++ [.stmt s]
  | s@(.ite cond yes (some no) _) =>
    cond.occurrences ++ Stmt.allOccurrences yes ++ Stmt.allOccurrences no ++ [.stmt s]
  | s@(.loop cond body _) => cond.occurrences ++ Stmt.allOccurrences body ++ [.stmt s]

def Stmt.allOccurrences : List Stmt → List Occurrence
  | [] => []
  | s :: ss => s.occurrences ++ Stmt.allOccurrences ss

end

theorem Stmt.allOccurrences_append (ss ss' : List Stmt) :
    allOccurrences (ss ++ ss') = allOccurrences ss ++ allOccurrences ss' := by
  induction ss with
  | nil => rfl
  | cons s ss ih =>
    rw [List.cons_append, allOccurrences, allOccurrences, ih, List.append_assoc]

/-! ## Sights -/

/-- What is seen at a visit: an expression and its node, or a statement, where it is, and the node
of the local variable that it declares, if it declares one. -/
inductive Sight where
  | expr (node : NodeRef) (e : Expr)
  | stmt (cls body : String) (s : Stmt) (declared : Option NodeRef)

def Visit.sight? (cx : Context) : Visit → Option Sight
  | .expr e => some (.expr (e.node cx) e.expr)
  | .stmt s _ =>
    some (.stmt cx.className cx.bodyName s
      (s.declared?.bind fun name => (cx.lookup name).map (·.node)))
  | _ => none

def Event.sight? : Event → Option Sight
  | .visit (some cx) v => v.sight? cx
  | _ => none

/-- What is seen along some events. -/
def sightsOf (es : List Event) : List Sight := es.filterMap Event.sight?

/-- What there is to see of an occurrence in a body where the next expression has the number `i` and
the next local variable the number `j`. -/
def Occurrence.sight (cls body : String) (i j : Nat) : Occurrence → Sight
  | expr e => .expr (.expr cls body i) e
  | stmt s => .stmt cls body s (s.declared?.map fun name => .local cls body name j)

/-- What there is to see of a body: expressions are numbered from `i` on, and the local variables
that are declared from `j` on. -/
def numbered (cls body : String) : Nat → Nat → List Occurrence → List Sight
  | _, _, [] => []
  | i, j, o :: os =>
    o.sight cls body i j ::
      numbered cls body (if o.isExpr then i + 1 else i) (if o.declares then j + 1 else j) os

section

variable {cls body : String}

theorem sightsOf_append (es es' : List Event) :
    sightsOf (es ++ es') = sightsOf es ++ sightsOf es' := List.filterMap_append

theorem sightsOf_findings (ds : Diagnostics) : sightsOf (ds.map Event.finding) = [] := by
  rw [sightsOf, List.filterMap_map, List.filterMap_eq_nil_iff]
  exact fun _ _ => rfl

theorem sightsOf_flatMap {α : Type} (l : List α) (f : α → List Event) :
    sightsOf (l.flatMap f) = l.flatMap fun a => sightsOf (f a) := List.filterMap_flatMap

theorem numbered_append (i j : Nat) (os os' : List Occurrence) :
    numbered cls body i j (os ++ os') =
      numbered cls body i j os ++
        numbered cls body (i + os.countP Occurrence.isExpr) (j + os.countP Occurrence.declares)
          os' := by
  induction os generalizing i j with
  | nil => rfl
  | cons o os ih =>
    rw [List.cons_append, numbered, numbered, ih, List.countP_cons, List.countP_cons,
      List.cons_append]
    congr 3
    · split <;> omega
    · split <;> omega

end

/-! ## Expressions -/

namespace SymbolTable

variable {t : SymbolTable} {cls body : String}

theorem sightsOf_typed (cx : Context) (e : Expr) (ty : Typing) (parts : List TypedExpr) (n : Nat) :
    sightsOf ((typed e ty parts n).events cx) =
      sightsOf (TypedExpr.eventsOfAll cx parts) ++
        [.expr (.expr cx.className cx.bodyName n) e] := by
  rw [typed, TypedExpr.events, sightsOf_append, sightsOf_append, sightsOf_findings,
    List.append_nil]
  rfl

/-- The events of typed expressions show what there is to see of the occurrences, and end with the
number `n`. -/
structure Shows (at' : Context) (i : Nat) (os : List Occurrence) (es : List Event) (n : Nat) :
    Prop where
  sights (j : Nat) : sightsOf es = numbered at'.className at'.bodyName i j os
  count : n = i + os.countP Occurrence.isExpr
  declares : os.countP Occurrence.declares = 0

namespace Shows

variable {at' : Context} {i n n' : Nat} {os os' : List Occurrence} {es es' : List Event}

theorem nil : Shows at' i [] [] i := ⟨fun _ => rfl, rfl, rfl⟩

theorem append (h : Shows at' i os es n) (h' : Shows at' n os' es' n') :
    Shows at' i (os ++ os') (es ++ es') n' where
  sights j := by
    rw [sightsOf_append, numbered_append, ← h.count, h.declares, h.sights j, h'.sights j]
    rfl
  count := by rw [h'.count, h.count, List.countP_append, Nat.add_assoc]
  declares := by rw [List.countP_append, h.declares, h'.declares]

/-- An expression is seen after its parts. -/
theorem typed {parts : List TypedExpr} (h : Shows at' i os (TypedExpr.eventsOfAll at' parts) n)
    (e : Expr) (ty : Typing) :
    Shows at' i (os ++ [.expr e]) ((SymbolTable.typed e ty parts n).events at') (n + 1) where
  sights j := by
    rw [sightsOf_typed, numbered_append, ← h.count, h.sights j]
    rfl
  count := by
    rw [h.count, List.countP_append]
    rfl
  declares := by
    rw [List.countP_append, h.declares]
    rfl

theorem leaf (at' : Context) (i : Nat) (e : Expr) (ty : Typing) :
    Shows at' i [.expr e] ((SymbolTable.typed e ty [] i).events at') (i + 1) :=
  have none : Shows at' i [] (TypedExpr.eventsOfAll at' []) i := .nil
  none.typed e ty

end Shows

theorem eventsOfAll_singleton (cx : Context) (e : TypedExpr) :
    TypedExpr.eventsOfAll cx [e] = e.events cx := by
  rw [TypedExpr.eventsOfAll, TypedExpr.eventsOfAll, List.append_nil]

mutual

/-- The events of a typed expression show what occurs in it. -/
theorem shows_typeExpr (t : SymbolTable) (cx at' : Context) (i : Nat) :
    (e : Expr) → Shows at' i e.occurrences ((t.typeExpr cx i e).events at')
      ((t.typeExpr cx i e).index + 1)
  | .bool .. | .int .. | .str .. | .null _ | .this _ | .var .. | .field .. => by
    rw [typeExpr, Expr.occurrences]
    exact Shows.leaf at' i _ _
  | .unary _ operand _ | .get operand _ => by
    rw [typeExpr, Expr.occurrences]
    have part := shows_typeExpr t cx at' i operand
    rw [← eventsOfAll_singleton] at part
    exact part.typed _ _
  | .binary _ lhs rhs _ => by
    rw [typeExpr, Expr.occurrences]
    have left := shows_typeExpr t cx at' i lhs
    have right := shows_typeExpr t cx at' ((t.typeExpr cx i lhs).index + 1) rhs
    rw [← eventsOfAll_singleton] at right
    exact (left.append right).typed _ _
  | .call target _ args _ _ => by
    rw [typeExpr, Expr.occurrences]
    exact ((shows_typeExpr t cx at' i target).append (shows_typeExprs t cx at' _ args)).typed _ _
  | .new _ args _ _ | .original args _ => by
    rw [typeExpr, Expr.occurrences]
    exact (shows_typeExprs t cx at' i args).typed _ _

theorem shows_typeExprs (t : SymbolTable) (cx at' : Context) (i : Nat) :
    (es : List Expr) → Shows at' i (Expr.allOccurrences es)
      (TypedExpr.eventsOfAll at' (t.typeExprs cx i es).1) (t.typeExprs cx i es).2
  | [] => .nil
  | e :: es => (shows_typeExpr t cx at' i e).append (shows_typeExprs t cx at' _ es)

end

/-! ## Statements -/

/-- From a state on, the traversal of a part of a body shows what there is to see of the
occurrences, counts them, and keeps the depth of scopes. -/
structure Traverses (cls body : String) (st : BodyState) (os : List Occurrence)
    (r : BodyState × List Event) : Prop where
  sights : sightsOf r.2 = numbered cls body st.nextExpr st.nextLocal os
  nextExpr : r.1.nextExpr = st.nextExpr + os.countP Occurrence.isExpr
  nextLocal : r.1.nextLocal = st.nextLocal + os.countP Occurrence.declares
  depth : r.1.scopes.length = st.scopes.length

namespace Traverses

variable {st st' st'' : BodyState} {os os' : List Occurrence} {es es' : List Event}

theorem nil : Traverses cls body st [] (st, []) := ⟨rfl, rfl, rfl, rfl⟩

theorem append (h : Traverses cls body st os (st', es))
    (h' : Traverses cls body st' os' (st'', es')) :
    Traverses cls body st (os ++ os') (st'', es ++ es') where
  sights := by
    rw [sightsOf_append, numbered_append, ← h.nextExpr, ← h.nextLocal, ← h.sights, ← h'.sights]
  nextExpr := by rw [h'.nextExpr, h.nextExpr, List.countP_append, Nat.add_assoc]
  nextLocal := by rw [h'.nextLocal, h.nextLocal, List.countP_append, Nat.add_assoc]
  depth := h'.depth.trans h.depth

theorem withFindings (h : Traverses cls body st os (st', es)) (ds : Diagnostics) :
    Traverses cls body st os (st', ds.map .finding ++ es) :=
  { h with sights := by rw [sightsOf_append, sightsOf_findings, List.nil_append, h.sights] }

/-- A part of a body can be traversed in a scope of its own. -/
theorem inScope (h : Traverses cls body st.enter os (st', es)) :
    Traverses cls body st os (st'.leave, es) where
  sights := h.sights
  nextExpr := h.nextExpr
  nextLocal := h.nextLocal
  depth := by
    have depth : st'.scopes.length = st.scopes.length + 1 := h.depth
    rw [BodyState.leave, List.length_tail, depth, Nat.add_sub_cancel]

end Traverses

section

variable {cx : Context}

theorem bodyName_withScopes (cx : Context) (scopes : List (List Binding)) :
    (cx.withScopes scopes).bodyName = cx.bodyName := by
  obtain ⟨cls, fields, _ | body⟩ := cx <;> rfl

/-- An expression of the body is traversed. -/
theorem traverses_typeIn (t : SymbolTable) (cx : Context) (st : BodyState) (e : Expr)
    (ds : Diagnostics) :
    Traverses cx.className cx.bodyName st e.occurrences
      ((t.typeIn cx st e).2, evaluated cx (t.typeIn cx st e).2 (t.typeIn cx st e).1 ds) := by
  have shows := shows_typeExpr t (cx.withScopes st.scopes) (cx.withScopes st.scopes) st.nextExpr e
  refine ⟨?_, shows.count, by rw [shows.declares]; rfl, rfl⟩
  rw [evaluated, sightsOf_append, sightsOf_findings, List.append_nil]
  have sights := shows.sights st.nextLocal
  rw [bodyName_withScopes] at sights
  exact sights

/-- A statement that declares nothing is seen after what it contains. -/
theorem traverses_visited {s : Stmt} (plain : s.declared? = none) (st : BodyState)
    (value : Option TypedExpr) :
    Traverses cx.className cx.bodyName st [.stmt s] (st, [visited cx st s value]) where
  sights := by
    rw [numbered, Occurrence.sight, plain, Option.map_none, ← bodyName_withScopes cx st.scopes]
    simp [sightsOf, visited, Event.sight?, Visit.sight?, plain, numbered]
    rfl
  nextExpr := rfl
  nextLocal := by simp [Occurrence.declares, plain]
  depth := rfl

/-- What is bound in a scope is what its name means there. -/
theorem lookup_bind (inBody : cx.body.isSome) {st : BodyState} (inScope : st.scopes ≠ [])
    (b : Binding) : (cx.withScopes (st.bind b).scopes).lookup b.name = some b := by
  obtain ⟨scope, outer, scopes⟩ := List.exists_cons_of_ne_nil inScope
  rw [Context.lookup_eq, Context.scopes_withScopes inBody, BodyState.bind, scopes]
  simp

/-- A statement that declares a local variable is seen with its node. -/
theorem traverses_bind {s : Stmt} {name : String} (declares : s.declared? = some name)
    (inBody : cx.body.isSome) (st : BodyState) (inScope : st.scopes ≠ []) (ty : Ty)
    (value : Option TypedExpr) :
    Traverses cx.className cx.bodyName st [.stmt s]
      (st.bind ⟨name, .local cx.className cx.bodyName name st.nextLocal, ty⟩,
        [visited cx (st.bind ⟨name, .local cx.className cx.bodyName name st.nextLocal, ty⟩) s
          value]) := by
  obtain ⟨scope, outer, scopes⟩ := List.exists_cons_of_ne_nil inScope
  have bound := lookup_bind inBody inScope
    ⟨name, .local cx.className cx.bodyName name st.nextLocal, ty⟩
  refine ⟨?_, rfl, by simp [BodyState.bind, Occurrence.declares, declares], ?_⟩
  · rw [numbered, Occurrence.sight, declares, Option.map_some]
    simp only [sightsOf, visited, List.filterMap_cons, Event.sight?, Visit.sight?, declares,
      Option.bind_some, bound, Option.map_some, bodyName_withScopes]
    rfl
  · rw [BodyState.bind, scopes]
    rfl

end

mutual

/-- The traversal of a statement shows what occurs in it. -/
theorem traverses_walkStmt (t : SymbolTable) {cx : Context} (inBody : cx.body.isSome) (ret : Ty)
    (st : BodyState) (inScope : st.scopes ≠ []) : (s : Stmt) →
      Traverses cx.className cx.bodyName st s.occurrences (t.walkStmt cx ret st s)
  | .skip _ => by
    rw [walkStmt, Stmt.occurrences]
    exact traverses_visited rfl st none
  | .ret value _ | .eval value _ | .assign _ value _ => by
    rw [walkStmt, Stmt.occurrences]
    exact (traverses_typeIn t cx st value _).append (traverses_visited rfl _ _)
  | .decl _ _ none _ => by
    rw [walkStmt, Stmt.occurrences]
    exact (traverses_bind rfl inBody st inScope _ none).withFindings _
  | .decl _ _ (some value) _ => by
    rw [walkStmt, Stmt.occurrences]
    exact ((traverses_typeIn t cx st value _).withFindings _).append
      (traverses_bind rfl inBody (t.typeIn cx st value).2 inScope _ _)
  | .ite cond yes none _ => by
    rw [walkStmt, Stmt.occurrences]
    have branch := traverses_walkStmts t inBody ret (t.typeIn cx st cond).2.enter
      (List.cons_ne_nil _ _) yes
    exact ((traverses_typeIn t cx st cond _).append branch.inScope).append
      (traverses_visited rfl _ _)
  | .ite cond yes (some no) _ => by
    rw [walkStmt, Stmt.occurrences]
    have branch := traverses_walkStmts t inBody ret (t.typeIn cx st cond).2.enter
      (List.cons_ne_nil _ _) yes
    have other := traverses_walkStmts t inBody ret
      (t.walkStmts cx ret (t.typeIn cx st cond).2.enter yes).1.leave.enter
      (List.cons_ne_nil _ _) no
    exact (((traverses_typeIn t cx st cond _).append branch.inScope).append other.inScope).append
      (traverses_visited rfl _ _)
  | .loop cond body _ => by
    rw [walkStmt, Stmt.occurrences]
    have round := traverses_walkStmts t inBody ret (t.typeIn cx st cond).2.enter
      (List.cons_ne_nil _ _) body
    exact ((traverses_typeIn t cx st cond _).append round.inScope).append
      (traverses_visited rfl _ _)

theorem traverses_walkStmts (t : SymbolTable) {cx : Context} (inBody : cx.body.isSome) (ret : Ty)
    (st : BodyState) (inScope : st.scopes ≠ []) : (ss : List Stmt) →
      Traverses cx.className cx.bodyName st (Stmt.allOccurrences ss) (t.walkStmts cx ret st ss)
  | [] => .nil
  | s :: ss => by
    have first := traverses_walkStmt t inBody ret st inScope s
    have inScope' : (t.walkStmt cx ret st s).1.scopes ≠ [] := by
      rw [← List.length_pos_iff_ne_nil, first.depth, List.length_pos_iff_ne_nil]
      exact inScope
    exact first.append (traverses_walkStmts t inBody ret _ inScope' ss)

end

/-! ## Bodies -/

/-- The traversal of a body shows what occurs in it. -/
theorem sightsOf_walkBody (t : SymbolTable) (cx : Context) (name : String)
    (version : Option Version) (ret : Ty) (params : List Binding) (prelude block : Block) :
    sightsOf (t.walkBody cx name version ret params prelude block) =
      numbered cx.className name 0 0 (Stmt.allOccurrences (prelude ++ block)) := by
  let cx' : Context := { cx with body := some ⟨name, version, ret, [params]⟩ }
  have inBody : cx'.body.isSome := rfl
  have outer := traverses_walkStmts t inBody ret ⟨[params], 0, 0⟩ (List.cons_ne_nil _ _) prelude
  have inner := traverses_walkStmts t inBody ret
    (t.walkStmts cx' ret ⟨[params], 0, 0⟩ prelude).1.enter (List.cons_ne_nil _ _) block
  have within := (outer.append inner.inScope).sights
  rw [Stmt.allOccurrences_append, walkBody]
  change sightsOf ((t.walkStmts cx' ret ⟨[params], 0, 0⟩ prelude).2 ++
    (t.walkStmts cx' ret (t.walkStmts cx' ret ⟨[params], 0, 0⟩ prelude).1.enter block).2 ++
      [.visit cx' (.afterBody block)]) = _
  rw [sightsOf_append, within]
  exact List.append_nil _

end SymbolTable

/-! ## Classes -/

/-- The bodies of a class in order, each with its name: the initial values of fields, as
assignments, with the initial block; every version of every method; and the recovery block. -/
def ClassDecl.bodies (c : ClassDecl) : List (String × Block) :=
  (SymbolTable.initBody, SymbolTable.fieldInits c ++ c.init.getD []) ::
    (c.methods.flatMap fun m => m.versions.zipIdx.map fun (v, i) =>
      (SymbolTable.versionBody v.name i, v.body)) ++
    c.recover.toList.map fun block => (SymbolTable.recoverBody, block)

/-- The bodies of the classes of a model in order, each with the qualified name of its class and its
own name. -/
def Model.bodies (m : Model) : List (String × String × Block) :=
  m.classEntries.flatMap fun e => e.decl.bodies.map fun b => (e.qualifiedName, b)

/-- What there is to see of the bodies of a model. -/
def Model.sights (m : Model) : List Sight :=
  m.bodies.flatMap fun (cls, name, block) => numbered cls name 0 0 (Stmt.allOccurrences block)

namespace SymbolTable

theorem sightsOf_walkInterface (t : SymbolTable) (i : Entry InterfaceDecl) :
    sightsOf (t.walkInterface i) = [] := sightsOf_findings _

theorem sightsOf_walkVersion (t : SymbolTable) (cx : Context) (v : Version) (i : Nat) :
    sightsOf (t.walkVersion cx v i) =
      numbered cx.className (versionBody v.name i) 0 0 (Stmt.allOccurrences v.body) := by
  simp only [walkVersion, sightsOf_append, sightsOf_findings, sightsOf_walkBody, List.nil_append]

/-- The traversal of a class shows what occurs in its bodies. -/
theorem sightsOf_walkClass (t : SymbolTable) (c : Entry ClassDecl) :
    sightsOf (t.walkClass c) = c.decl.bodies.flatMap fun (name, block) =>
      numbered c.qualifiedName name 0 0 (Stmt.allOccurrences block) := by
  have before (cx : Context) : sightsOf [.visit cx .beforeClass] = [] := rfl
  have after (cx : Context) : sightsOf [.visit cx .afterClass] = [] := rfl
  simp only [walkClass, sightsOf_append, sightsOf_findings, sightsOf_flatMap, sightsOf_walkVersion,
    sightsOf_walkBody, before, after, List.nil_append, List.append_nil, ClassDecl.bodies,
    List.flatMap_append, List.flatMap_cons, List.flatMap_assoc, List.flatMap_map]
  rfl

/-! ## Modules -/

end SymbolTable

theorem filter_flatMap_zipIdx {α β : Type} {f : α × Nat → List β} (key : β → Nat)
    (keyed : ∀ s, ∀ b ∈ f s, key b = s.2) {l : List α} {k : Nat} {s : α × Nat}
    (mem : s ∈ l.zipIdx k) : ((l.zipIdx k).flatMap f).filter (key · == s.2) = f s := by
  induction l generalizing k with
  | nil => cases mem
  | cons a l ih =>
    have here : s.2 = k → (f (a, k)).filter (key · == s.2) = f (a, k) := fun eq =>
      List.filter_eq_self.2 fun b hb => by rw [keyed _ b hb, eq, beq_self_eq_true]
    have elsewhere : s.2 ≠ k → (f (a, k)).filter (key · == s.2) = [] := fun ne =>
      List.filter_eq_nil_iff.2 fun b hb => by simpa [keyed _ b hb] using ne.symm
    rw [List.zipIdx_cons, List.flatMap_cons, List.filter_append]
    rw [List.zipIdx_cons, List.mem_cons] at mem
    rcases mem with rfl | mem
    · have rest : ((l.zipIdx (k + 1)).flatMap f).filter (key · == k) = [] := by
        refine List.filter_eq_nil_iff.2 fun b hb => ?_
        obtain ⟨s', hs', hb⟩ := List.mem_flatMap.1 hb
        have later := (List.mem_zipIdx hs').1
        rw [keyed s' b hb]
        simp
        omega
      rw [here rfl, rest, List.append_nil]
    · have later := (List.mem_zipIdx mem).1
      rw [elsewhere (by omega), List.nil_append, ih mem]

theorem flatMap_range_length {α β : Type} (l : List α) (f : Nat → List β) :
    (List.range l.length).flatMap f = l.zipIdx.flatMap fun s => f s.2 := by
  rw [List.range_eq_range', ← List.zipIdx_map_snd 0 l, List.flatMap_map]

/-- Going through the modules one by one is going through all declarations. -/
theorem flatMap_ofModule {α β : Type} (m : Model) (f : Decl → Option α) (g : Entry α → List β) :
    (m.units.zipIdx.flatMap fun s => (List.range s.1.modules.length).flatMap fun i =>
      (SymbolTable.ofModule (m.entries.filterMap (Entry.narrow f)) s.2 i).flatMap g) =
      (m.entries.filterMap (Entry.narrow f)).flatMap g := by
  let inModule (u : Nat) (s : Module × Nat) : List (Entry α) :=
    (s.1.decls.zipIdx.map fun s' =>
      (⟨⟨u, s.2, s'.2⟩, s.1.name, s'.1.name, s'.1⟩ : Entry Decl)).filterMap (Entry.narrow f)
  let inUnit (s : CompilationUnit × Nat) : List (Entry α) :=
    s.1.modules.zipIdx.flatMap (inModule s.2)
  have entries : m.entries.filterMap (Entry.narrow f) = m.units.zipIdx.flatMap inUnit := by
    rw [Model.entries, List.filterMap_flatMap]
    exact List.flatMap_congr fun _ _ => List.filterMap_flatMap
  have place {u : Nat} {s : Module × Nat} {e : Entry α} (mem : e ∈ inModule u s) :
      e.path.module = s.2 ∧ e.path.unit = u := by
    obtain ⟨e', he', narrow⟩ := List.mem_filterMap.1 mem
    obtain ⟨d, -, rfl⟩ := List.mem_map.1 he'
    obtain ⟨_, -, rfl⟩ := Option.map_eq_some_iff.1 narrow
    exact ⟨rfl, rfl⟩
  have unitOf (s : CompilationUnit × Nat) (e : Entry α) (mem : e ∈ inUnit s) :
      e.path.unit = s.2 := by
    obtain ⟨_, -, mem⟩ := List.mem_flatMap.1 mem
    exact (place mem).2
  rw [entries, List.flatMap_assoc]
  refine List.flatMap_congr fun s hs => ?_
  rw [flatMap_range_length, List.flatMap_assoc]
  refine List.flatMap_congr fun s' hs' => congrArg (List.flatMap g) ?_
  have byUnit := filter_flatMap_zipIdx (fun e : Entry α => e.path.unit) unitOf hs
  have byModule := filter_flatMap_zipIdx (f := inModule s.2)
    (fun e : Entry α => e.path.module) (fun _ _ mem => (place mem).1) hs'
  rw [← byModule]
  change _ = (inUnit s).filter _
  rw [SymbolTable.ofModule, ← byUnit, List.filter_filter]
  exact List.filter_congr fun e _ => Bool.and_comm _ _

/-- The traversal of a model shows what occurs in its classes. -/
theorem sightsOf_walkModel (m : Model) :
    sightsOf ((SymbolTable.ofModel m).walkModel m) = m.sights := by
  have last : sightsOf [.visit none .finish] = [] := rfl
  have nothing (is : List (Entry InterfaceDecl)) : is.flatMap (fun _ => ([] : List Sight)) = [] :=
    List.flatMap_eq_nil_iff.2 fun _ _ => rfl
  simp only [SymbolTable.walkModel, sightsOf_append, sightsOf_flatMap, last,
    SymbolTable.sightsOf_walkInterface, SymbolTable.sightsOf_walkClass, nothing, List.nil_append,
    List.append_nil, Model.sights, Model.bodies, List.flatMap_assoc, List.flatMap_map]
  exact flatMap_ofModule m Decl.class? _

end DeltaLang
