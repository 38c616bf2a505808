import DeltaLang.Proofs.Typing.Classes
import DeltaLang.Proofs.Typing.EmbeddedWalk

/-!
# Names in quiet traversals

A traversal without findings looks up every name that the class or interface mentions, in types and
where objects are created.  So where it is quiet, all these names mean something.
-/

namespace DeltaLang

namespace SymbolTable

variable {t : SymbolTable} {S : String → Prop} {cx cx' : Context}

/-- Names of interfaces and classes that mean something have simple names in `S`. -/
structure Known (S : String → Prop) (t : SymbolTable) : Prop where
  interfaces : ∀ {frm name e}, t.interfaces.resolve frm name = .ok e → S (simpleName name)
  classes : ∀ {frm name e}, t.classes.resolve frm name = .ok e → S (simpleName name)

/-! ## Types -/

theorem Known.resolveType (known : t.Known S) {module : Option String} {u : TypeUse} {ty : Ty}
    (found : t.resolveType module u = .ok ty) : NamesIn S u.mentions := by
  fun_induction t.resolveType module u generalizing ty with
  | case1 annotations arg ih =>
    cases resolved : t.resolveType module arg with
    | error err => simp [resolved, Except.map] at found
    | ok value => exact namesIn_arg.2 (ih resolved)
  | case4 name args annotations other plain ty' builtin =>
    obtain rfl : args = [] := not_not.1 plain
    simp [NamesIn, TypeUse.mentions, TypeUse.allMentions, builtin]
  | case5 name args annotations other plain builtin e resolved =>
    obtain rfl : args = [] := not_not.1 plain
    exact (namesIn_plain other builtin).2 (known.interfaces resolved)
  | case2 | case3 | case6 | case7 => cases found

theorem Known.typeOr (known : t.Known S) {module : String} {u : TypeUse}
    (h : (t.typeOr module u).known = true) : NamesIn S u.mentions := by
  unfold SymbolTable.typeOr at h
  split at h
  · exact known.resolveType ‹_›
  · cases h

theorem Known.checkType (known : t.Known S) {module : String} {u : TypeUse}
    {loc : Option Location} (quiet : ∀ d ∈ (t.checkType module u loc).2, d.Tolerated True) :
    NamesIn S u.mentions :=
  known.typeOr (known_typeOr_of_tolerated trivial quiet)

/-! ## Expressions -/

mutual

theorem Known.typeExpr (known : t.Known S) (next : Nat) : (e : Expr) →
    Quiet True ((t.typeExpr cx next e).events cx') → NamesIn S e.mentions
  | .bool .., _ | .int .., _ | .str .., _ | .null _, _ | .this _, _ | .var .., _ | .field .., _ =>
    List.forall_mem_nil _
  | .unary op operand loc, quiet => by
    rw [SymbolTable.typeExpr, quiet_events, quiet_eventsOfAll_cons] at quiet
    exact typeExpr known next operand quiet.1.1
  | .binary op lhs rhs loc, quiet => by
    rw [SymbolTable.typeExpr, quiet_events, quiet_eventsOfAll_cons, quiet_eventsOfAll_cons] at quiet
    exact namesIn_append.2
      ⟨typeExpr known _ lhs quiet.1.1, typeExpr known _ rhs quiet.1.2.1⟩
  | .call target method args async loc, quiet => by
    rw [SymbolTable.typeExpr, quiet_events, quiet_eventsOfAll_cons] at quiet
    exact namesIn_append.2
      ⟨typeExpr known _ target quiet.1.1, typeExprs known _ args quiet.1.2⟩
  | .get future loc, quiet => by
    rw [SymbolTable.typeExpr, quiet_events, quiet_eventsOfAll_cons] at quiet
    exact typeExpr known next future quiet.1.1
  | .new cls args isLocal loc, quiet => by
    rw [SymbolTable.typeExpr, quiet_events] at quiet
    obtain ⟨c, found, -⟩ := exists_of_typeNew quiet.2
    exact List.forall_mem_cons.2 ⟨known.classes found, typeExprs known _ args quiet.1⟩
  | .original args loc, quiet => by
    rw [SymbolTable.typeExpr, quiet_events] at quiet
    exact typeExprs known _ args quiet.1

theorem Known.typeExprs (known : t.Known S) (next : Nat) : (es : List Expr) →
    Quiet True (TypedExpr.eventsOfAll cx' (t.typeExprs cx next es).1) →
    NamesIn S (Expr.allMentions es)
  | [], _ => List.forall_mem_nil _
  | e :: es, quiet => by
    rw [SymbolTable.typeExprs, quiet_eventsOfAll_cons] at quiet
    exact namesIn_append.2 ⟨typeExpr known _ e quiet.1, typeExprs known _ es quiet.2⟩

end

/-! ## Statements -/

theorem Known.evaluated (known : t.Known S) {st st' : BodyState} {e : Expr} {ds : Diagnostics}
    (quiet : Quiet True (SymbolTable.evaluated cx st' (t.typeIn cx st e).1 ds)) :
    NamesIn S e.mentions :=
  known.typeExpr _ e (quiet_evaluated.1 quiet).1

mutual

theorem Known.walkStmt (known : t.Known S) {ret : Ty} {st : BodyState} : (s : Stmt) →
    Quiet True (t.walkStmt cx ret st s).2 → NamesIn S s.mentions
  | .skip _, _ => List.forall_mem_nil _
  | .ret value loc, quiet | .eval value loc, quiet | .assign target value loc, quiet => by
    simp only [SymbolTable.walkStmt, quiet_append] at quiet
    exact known.evaluated quiet.1
  | .decl type name none loc, quiet => by
    simp only [SymbolTable.walkStmt, quiet_append, quiet_findings] at quiet
    exact known.checkType quiet.1
  | .decl type name (some value) loc, quiet => by
    simp only [SymbolTable.walkStmt, quiet_append, quiet_findings] at quiet
    exact namesIn_append.2 ⟨known.checkType quiet.1.1, known.evaluated quiet.1.2⟩
  | .ite cond yes none loc, quiet => by
    simp only [SymbolTable.walkStmt, quiet_append] at quiet
    exact namesIn_append.2 ⟨known.evaluated quiet.1.1, walkStmts known yes quiet.1.2⟩
  | .ite cond yes (some no) loc, quiet => by
    simp only [SymbolTable.walkStmt, quiet_append] at quiet
    exact namesIn_append.2 ⟨namesIn_append.2
      ⟨known.evaluated quiet.1.1.1, walkStmts known yes quiet.1.1.2⟩, walkStmts known no quiet.1.2⟩
  | .loop cond body loc, quiet => by
    simp only [SymbolTable.walkStmt, quiet_append] at quiet
    exact namesIn_append.2 ⟨known.evaluated quiet.1.1, walkStmts known body quiet.1.2⟩

theorem Known.walkStmts (known : t.Known S) {ret : Ty} {st : BodyState} : (ss : List Stmt) →
    Quiet True (t.walkStmts cx ret st ss).2 → NamesIn S (Stmt.allMentions ss)
  | [], _ => List.forall_mem_nil _
  | s :: ss, quiet => by
    simp only [SymbolTable.walkStmts, quiet_append] at quiet
    exact namesIn_append.2 ⟨walkStmt known s quiet.1, walkStmts known ss quiet.2⟩

end

/-! ## Classes and interfaces -/

theorem Known.walkBody (known : t.Known S) {name : String} {version : Option Version} {ret : Ty}
    {params : List Binding} {prelude block : Block}
    (quiet : Quiet True (t.walkBody cx name version ret params prelude block)) :
    NamesIn S (Stmt.allMentions prelude) ∧ NamesIn S (Stmt.allMentions block) :=
  ⟨known.walkStmts prelude (quiet_walkBody quiet).1, known.walkStmts block (quiet_walkBody quiet).2⟩

theorem Known.signature (known : t.Known S) {module : String} {sig : Signature}
    (ret : (t.typeOr module sig.ret).known = true)
    (params : ∀ ty ∈ t.paramTypes module sig.params, ty.known = true) :
    NamesIn S sig.mentions :=
  namesIn_signature.2 ⟨known.typeOr ret, fun _ mem =>
    known.typeOr (params _ (List.mem_map_of_mem mem))⟩

theorem Known.version (known : t.Known S) {v : Version} (quiet : t.QuietVersion True cx v) :
    NamesIn S v.mentions := by
  obtain ⟨name, body⟩ := quiet.body
  exact namesIn_append.2 ⟨known.signature (quiet.ret trivial) (quiet.params trivial),
    known.walkStmts v.body body⟩

/-- The recovery block of a quiet class is quiet. -/
theorem quiet_recover {strict : Prop} {c : Entry ClassDecl} (quiet : Quiet strict (t.walkClass c))
    {block : Block} (mem : block ∈ c.decl.recover) :
    Quiet strict (t.walkBody (t.classContext c) recoverBody none .unit [] [] block) := by
  simp only [walkClass, quiet_append, quiet_flatMap] at quiet
  exact quiet.1.2 block (Option.mem_toList.2 mem)

/-- All that a quiet class mentions means something, if the interfaces that it names do and it has
no clauses. -/
theorem Known.walkClass (known : t.Known S) {c : Entry ClassDecl}
    (quiet : Quiet True (t.walkClass c)) (name : S (simpleName c.decl.name))
    (implements : NamesIn S c.decl.implements) (plain : c.decl.uses = []) :
    c.decl.Within fun n => S (simpleName n) := by
  have parts := quietClass quiet
  obtain ⟨values, init⟩ := known.walkBody parts.init
  have bindings := parts.known trivial
  rw [fst_bindFields, List.forall_mem_append, List.forall_mem_map, List.forall_mem_map] at bindings
  refine ⟨name, implements, fun p mem => known.typeOr (bindings.1 p mem), fun fd mem => ?_,
    fun b mem => ?_, fun m hm => ?_, ?_⟩
  · refine namesIn_append.2 ⟨known.typeOr (bindings.2 fd mem), ?_⟩
    rw [allMentions_eq, NamesIn, List.forall_mem_flatMap] at values
    refine List.forall_mem_flatMap.2 fun value given => ?_
    exact values (.assign (.field fd.name) value fd.loc) (List.mem_filterMap.2
      ⟨fd, mem, Option.map_eq_some_iff.2 ⟨value, Option.mem_toList.1 given, rfl⟩⟩)
  · rcases List.mem_append.1 mem with mem | mem
    · rw [Option.mem_toList.1 mem] at init
      exact init
    · exact (known.walkBody (quiet_recover quiet (Option.mem_toList.1 mem))).2
  · exact List.forall_mem_flatMap.2 fun v hv => known.version (parts.versions m hm v hv)
  · rw [plain]
    exact fun u mem => absurd mem List.not_mem_nil

/-- All that a quiet interface mentions means something, if the interfaces that it extends do. -/
theorem Known.walkInterface (known : t.Known S) {i : Entry InterfaceDecl}
    (quiet : Quiet True (t.walkInterface i)) (name : S (simpleName i.decl.name))
    (parents : NamesIn S i.decl.parents) : NamesIn S i.decl.mentions := by
  refine List.forall_mem_cons.2 ⟨name, namesIn_append.2 ⟨parents, ?_⟩⟩
  refine List.forall_mem_flatMap.2 fun sig mem => ?_
  obtain ⟨params, ret⟩ := known_of_walkInterface trivial quiet mem
  exact known.signature ret params

end SymbolTable

end DeltaLang
