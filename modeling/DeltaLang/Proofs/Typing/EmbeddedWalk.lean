import DeltaLang.Proofs.Typing.Classes
import DeltaLang.Proofs.Typing.Embedding

/-!
# Traversals in embedded tables

A class or interface of a table that is embedded in another for the simple names that it mentions is
traversed in the other one as in its own: with the same findings, at its other place.
-/

namespace DeltaLang

variable {S : String → Prop} {f : DeclPath → DeclPath}

theorem namesIn_nil : NamesIn S (Stmt.allMentions []) := List.forall_mem_nil _

theorem allMentions_eq (ss : List Stmt) : Stmt.allMentions ss = ss.flatMap Stmt.mentions := by
  induction ss with
  | nil => rfl
  | cons s ss ih => rw [Stmt.allMentions, List.flatMap_cons, ih]

theorem namesIn_fieldInits {c : ClassDecl} (h : ∀ fd ∈ c.fields, NamesIn S fd.mentions) :
    NamesIn S (Stmt.allMentions (SymbolTable.fieldInits c)) := by
  rw [allMentions_eq]
  refine List.forall_mem_flatMap.2 fun s hs => ?_
  obtain ⟨fd, hfd, given⟩ := List.mem_filterMap.1 hs
  obtain ⟨value, hvalue, rfl⟩ := Option.map_eq_some_iff.1 given
  exact fun n hn => (namesIn_append.1 (h fd hfd)).2 n
    (List.mem_flatMap.2 ⟨value, Option.mem_toList.2 hvalue, hn⟩)

/-! ## Events -/

/-- The event when classes are at other places. -/
def Event.move (f : DeclPath → DeclPath) : Event → Event
  | .finding d => .finding d
  | .visit cx v => .visit (cx.map (Context.move f)) v

theorem Event.map_move_findings (ds : Diagnostics) :
    (ds.map Event.finding).map (Event.move f) = ds.map Event.finding := List.map_map

mutual

theorem TypedExpr.events_move (cx : Context) :
    (e : TypedExpr) → e.events (cx.move f) = (e.events cx).map (Event.move f)
  | .mk e i ty callee ds parts => by
    rw [events, events, eventsOfAll_move cx parts, List.map_append, List.map_append,
      Event.map_move_findings]
    rfl

theorem TypedExpr.eventsOfAll_move (cx : Context) :
    (es : List TypedExpr) → eventsOfAll (cx.move f) es = (eventsOfAll cx es).map (Event.move f)
  | [] => rfl
  | e :: es => by
    rw [eventsOfAll, eventsOfAll, events_move cx e, eventsOfAll_move cx es, List.map_append]

end

theorem Context.move_module (f : DeclPath → DeclPath) (cx : Context) :
    (cx.move f).module = cx.module := rfl

namespace SymbolTable

variable {t t' : SymbolTable} {cx : Context}

theorem in_checkType (t : SymbolTable) (module : String) {u : TypeUse}
    (named : NamesIn S u.mentions) (loc : Option Location) : (t.checkType module u loc).1.In S := by
  rw [fst_checkType]
  exact in_typeOr t module named

theorem evaluated_move (cx : Context) (st : BodyState) (e : TypedExpr) (ds : Diagnostics) :
    evaluated (cx.move f) st e ds = (evaluated cx st e ds).map (Event.move f) := by
  have scopes : (cx.move f).withScopes st.scopes = (cx.withScopes st.scopes).move f := rfl
  rw [evaluated, evaluated, List.map_append, Event.map_move_findings, scopes, e.events_move]

theorem visited_move (cx : Context) (st : BodyState) (s : Stmt) (value : Option TypedExpr) :
    visited (cx.move f) st s value = (visited cx st s value).move f := rfl

end SymbolTable

/-! ## Scopes -/

/-- The bindings in scope only have types of names in `S`. -/
def BodyState.In (S : String → Prop) (st : BodyState) : Prop := ∀ b ∈ st.scopes.flatten, b.type.In S

namespace BodyState.In

variable {st : BodyState}

theorem enter (h : st.In S) : st.enter.In S := h

theorem leave (h : st.In S) : st.leave.In S := fun b mem =>
  h b (List.Sublist.flatten (List.tail_sublist _) |>.subset mem)

theorem bind (h : st.In S) {b : Binding} (hb : b.type.In S) : (st.bind b).In S := by
  obtain ⟨scopes, nextExpr, nextLocal⟩ := st
  cases scopes with
  | nil => exact h
  | cons scope outer => exact List.forall_mem_cons.2 ⟨hb, h⟩

end BodyState.In

theorem Context.In.withScopes {cx : Context} (h : cx.In S) {st : BodyState} (hst : st.In S) :
    (cx.withScopes st.scopes).In S := by
  obtain ⟨cls, fields, _ | body⟩ := cx
  · exact h
  · exact ⟨h.cls, h.fields, hst, h.version⟩

theorem Context.In.targetType {cx : Context} (h : cx.In S) {loc : Option Location}
    {target : Target} {ty : Ty} (found : (SymbolTable.targetType cx loc target).1 = some ty) :
    ty.In S := by
  unfold SymbolTable.targetType at found
  split at found
  all_goals
    split at found <;> cases found
  · exact h.lookup ‹_›
  · exact h.field? ‹_›

namespace SymbolTable.Embeds

variable {t t' : SymbolTable} {cx : Context}

/-! ## Statements -/

theorem typeIn (h : t.Embeds S f t') (closed : t.In S) (hcx : cx.In S) {st : BodyState}
    (hst : st.In S) {e : Expr} (named : NamesIn S e.mentions) :
    t'.typeIn (cx.move f) st e = t.typeIn cx st e ∧ (t.typeIn cx st e).1.type.In S := by
  obtain ⟨same, hty⟩ := h.typeExpr closed (hcx.withScopes hst) st.nextExpr e named
  have scopes : (cx.move f).withScopes st.scopes = (cx.withScopes st.scopes).move f := rfl
  rw [SymbolTable.typeIn, SymbolTable.typeIn, scopes, same]
  exact ⟨rfl, hty⟩

mutual

/-- A statement is traversed alike, and only binds types of names in `S`. -/
theorem walkStmt (h : t.Embeds S f t') (closed : t.In S) (hcx : cx.In S) {ret : Ty}
    (hret : ret.In S) {st : BodyState} (hst : st.In S) : (s : Stmt) → NamesIn S s.mentions →
    t'.walkStmt (cx.move f) ret st s =
        ((t.walkStmt cx ret st s).1, (t.walkStmt cx ret st s).2.map (Event.move f)) ∧
      (t.walkStmt cx ret st s).1.In S
  | .skip _, _ => ⟨rfl, hst⟩
  | .ret value loc, named => by
    obtain ⟨same, hty⟩ := h.typeIn closed hcx hst named
    have hst' : (t.typeIn cx st value).2.In S := hst
    simp only [SymbolTable.walkStmt, same, h.expectAssignable closed hty _ hret, evaluated_move,
      visited_move, List.map_append, List.map_cons, List.map_nil]
    exact ⟨trivial, hst'⟩
  | .eval value loc, named => by
    obtain ⟨same, -⟩ := h.typeIn closed hcx hst named
    have hst' : (t.typeIn cx st value).2.In S := hst
    simp only [SymbolTable.walkStmt, same, evaluated_move, visited_move, List.map_append,
      List.map_cons, List.map_nil]
    exact ⟨trivial, hst'⟩
  | .decl type name none loc, named => by
    simp only [SymbolTable.walkStmt, Context.move_module, h.checkType cx.module named loc,
      visited_move, List.map_append, Event.map_move_findings, List.map_cons, List.map_nil]
    exact ⟨rfl, hst.bind (in_checkType t cx.module named loc)⟩
  | .decl type name (some value) loc, named => by
    rw [Stmt.mentions, namesIn_append] at named
    have hty := in_checkType t cx.module named.1 loc
    obtain ⟨same, hvalue⟩ := h.typeIn closed hcx hst named.2
    have hst' : (t.typeIn cx st value).2.In S := hst
    simp only [SymbolTable.walkStmt, Context.move_module, h.checkType cx.module named.1 loc, same,
      h.expectAssignable closed hvalue _ hty, evaluated_move, visited_move, List.map_append,
      Event.map_move_findings, List.map_cons, List.map_nil]
    exact ⟨rfl, hst'.bind hty⟩
  | .assign target value loc, named => by
    obtain ⟨same, hvalue⟩ := h.typeIn closed hcx hst named
    have hst' : (t.typeIn cx st value).2.In S := hst
    have targets : targetType ((cx.move f).withScopes st.scopes) loc target =
        targetType (cx.withScopes st.scopes) loc target := by cases target <;> rfl
    simp only [SymbolTable.walkStmt, same, scopes_typeIn, targets, visited_move, List.map_append,
      List.map_cons, List.map_nil]
    cases found : targetType (cx.withScopes st.scopes) loc target with
    | mk ty ds =>
      cases ty with
      | none =>
        simp only [evaluated_move]
        exact ⟨trivial, hst'⟩
      | some ty =>
        have hty := (hcx.withScopes hst).targetType (congrArg Prod.fst found)
        simp only [h.expectAssignable closed hvalue _ hty, evaluated_move]
        exact ⟨trivial, hst'⟩
  | .ite cond yes none loc, named => by
    rw [Stmt.mentions, namesIn_append] at named
    obtain ⟨same, hcond⟩ := h.typeIn closed hcx hst named.1
    have hst' : (t.typeIn cx st cond).2.enter.In S := hst
    obtain ⟨branch, hbranch⟩ := walkStmts h closed hcx hret hst' yes named.2
    simp only [SymbolTable.walkStmt, same, h.expectAssignable closed hcond .bool trivial, branch,
      evaluated_move, visited_move, List.map_append, List.map_cons, List.map_nil]
    exact ⟨trivial, hbranch.leave⟩
  | .ite cond yes (some no) loc, named => by
    rw [Stmt.mentions, namesIn_append, namesIn_append] at named
    obtain ⟨same, hcond⟩ := h.typeIn closed hcx hst named.1.1
    have hst' : (t.typeIn cx st cond).2.enter.In S := hst
    obtain ⟨first, hfirst⟩ := walkStmts h closed hcx hret hst' yes named.1.2
    obtain ⟨second, hsecond⟩ := walkStmts h closed hcx hret hfirst.leave.enter no named.2
    simp only [SymbolTable.walkStmt, same, h.expectAssignable closed hcond .bool trivial, first,
      second, evaluated_move, visited_move, List.map_append, List.map_cons, List.map_nil]
    exact ⟨trivial, hsecond.leave⟩
  | .loop cond body loc, named => by
    rw [Stmt.mentions, namesIn_append] at named
    obtain ⟨same, hcond⟩ := h.typeIn closed hcx hst named.1
    have hst' : (t.typeIn cx st cond).2.enter.In S := hst
    obtain ⟨loop, hloop⟩ := walkStmts h closed hcx hret hst' body named.2
    simp only [SymbolTable.walkStmt, same, h.expectAssignable closed hcond .bool trivial, loop,
      evaluated_move, visited_move, List.map_append, List.map_cons, List.map_nil]
    exact ⟨trivial, hloop.leave⟩

theorem walkStmts (h : t.Embeds S f t') (closed : t.In S) (hcx : cx.In S) {ret : Ty}
    (hret : ret.In S) {st : BodyState} (hst : st.In S) :
    (ss : List Stmt) → NamesIn S (Stmt.allMentions ss) →
    t'.walkStmts (cx.move f) ret st ss =
        ((t.walkStmts cx ret st ss).1, (t.walkStmts cx ret st ss).2.map (Event.move f)) ∧
      (t.walkStmts cx ret st ss).1.In S
  | [], _ => ⟨rfl, hst⟩
  | s :: ss, named => by
    rw [Stmt.allMentions, namesIn_append] at named
    obtain ⟨first, hst'⟩ := walkStmt h closed hcx hret hst s named.1
    obtain ⟨rest, hst''⟩ := walkStmts h closed hcx hret hst' ss named.2
    simp only [SymbolTable.walkStmts, first, rest, List.map_append]
    exact ⟨trivial, hst''⟩

end

/-! ## Bodies -/

variable (h : t.Embeds S f t') (closed : t.In S)

include h closed

theorem walkBody (hcx : cx.In S) (name : String) {version : Option Version}
    (hversion : ∀ v ∈ version, NamesIn S v.sig.mentions) {ret : Ty} (hret : ret.In S)
    {params : List Binding} (hparams : ∀ b ∈ params, b.type.In S) {prelude block : Block}
    (hprelude : NamesIn S (Stmt.allMentions prelude))
    (hblock : NamesIn S (Stmt.allMentions block)) :
    t'.walkBody (cx.move f) name version ret params prelude block =
      (t.walkBody cx name version ret params prelude block).map (Event.move f) := by
  have scopes : ∀ b ∈ [params].flatten, b.type.In S := by simpa using hparams
  have inBody : (cx.inBody name version ret params).In S :=
    ⟨hcx.cls, hcx.fields, scopes, hversion⟩
  have start : BodyState.In S ⟨[params], 0, 0⟩ := scopes
  obtain ⟨before, hst⟩ := h.walkStmts closed inBody hret start prelude hprelude
  obtain ⟨within, -⟩ := h.walkStmts closed inBody hret hst.enter block hblock
  have moved : { cx.move f with body := some ⟨name, version, ret, [params]⟩ } =
      (cx.inBody name version ret params).move f := rfl
  rw [SymbolTable.walkBody, SymbolTable.walkBody, moved]
  dsimp only
  rw [before]
  dsimp only
  rw [within, List.map_append, List.map_append, List.map_cons]
  rfl

theorem walkVersion (hcx : cx.In S) {v : Version} (named : NamesIn S v.mentions) (i : Nat) :
    t'.walkVersion (cx.move f) v i = (t.walkVersion cx v i).map (Event.move f) := by
  obtain ⟨sig, body⟩ := namesIn_append.1 named
  obtain ⟨ret, params⟩ := namesIn_signature.1 sig
  have bindings : t'.bindParams (cx.move f) (versionBody v.name i) v.sig =
      t.bindParams cx (versionBody v.name i) v.sig := by
    rw [bindParams_eq, bindParams_eq]
    refine congrArg₂ Prod.mk (congrArg List.reverse (List.map_congr_left fun p mem => ?_))
      (List.flatMap_congr fun p mem => ?_)
    · rw [paramBinding, paramBinding, Context.move_module, h.typeOr cx.module (params p mem)]
      rfl
    · rw [Context.move_module, h.checkType cx.module (params p mem)]
  have hparams : ∀ b ∈ (t.bindParams cx (versionBody v.name i) v.sig).1, b.type.In S := by
    rw [bindParams_eq]
    refine fun b mem => ?_
    obtain ⟨p, hp, rfl⟩ := List.mem_map.1 (List.mem_reverse.1 mem)
    exact in_typeOr t cx.module (params p hp)
  have version : ∀ v' ∈ some v, NamesIn S v'.sig.mentions := fun v' same =>
    Option.some.inj same ▸ sig
  have walked := h.walkBody closed hcx (versionBody v.name i) version
    (in_checkType t cx.module ret v.sig.loc) hparams namesIn_nil body
  simp only [SymbolTable.walkVersion, bindings, Context.move_module,
    h.checkType cx.module ret v.sig.loc, List.map_append, Event.map_move_findings, walked]

/-! ## Classes and interfaces -/

theorem bindFields {c : Entry ClassDecl} (mem : c ∈ t.classes) :
    t'.bindFields (c.move f) = t.bindFields c := by
  have within := closed.classes c mem
  have field : ∀ fd ∈ c.decl.fields, NamesIn S fd.type.mentions := fun fd hfd =>
    (namesIn_append.1 (within.fields fd hfd)).1
  refine Prod.ext ?_ ?_
  · rw [fst_bindFields, fst_bindFields]
    refine congrArg₂ (· ++ ·) (List.map_congr_left fun p hp => ?_)
      (List.map_congr_left fun fd hfd => ?_)
    · rw [classParamBinding, classParamBinding, Entry.move_module,
        h.typeOr c.module (within.params p hp)]
      rfl
    · rw [fieldBinding, fieldBinding, Entry.move_module, h.typeOr c.module (field fd hfd)]
      rfl
  · rw [snd_bindFields, snd_bindFields]
    refine congrArg₂ (· ++ ·) (List.flatMap_congr fun p hp => ?_)
      (List.flatMap_congr fun fd hfd => ?_)
    · rw [Entry.move_module, h.checkType c.module (within.params p hp)]
      rfl
    · rw [Entry.move_module, h.checkType c.module (field fd hfd)]

theorem missingMethods (hcls : cx.cls ∈ t.classes) :
    t'.missingMethods (cx.move f) = t.missingMethods cx := by
  have implemented : t'.implementedInterfaces (cx.move f).cls =
      (t.implementedInterfaces cx.cls).map (Entry.move f) :=
    h.implementedInterfaces closed.parentsIn closed.placed (closed.classes cx.cls hcls).implements
  simp only [SymbolTable.missingMethods, implemented, List.flatMap_map]
  rfl

omit h in
theorem in_classContext {c : Entry ClassDecl} (mem : c ∈ t.classes) : (t.classContext c).In S := by
  have within := closed.classes c mem
  refine ⟨?_, fun b hb => ?_, fun b hb => absurd hb List.not_mem_nil, fun v hv => nomatch hv⟩
  · rw [Context.className, simpleName_qualifiedName]
    exact closed.names c mem
  · rw [classContext, fst_bindFields] at hb
    rcases List.mem_append.1 hb with hb | hb
    · obtain ⟨p, hp, rfl⟩ := List.mem_map.1 hb
      exact in_typeOr t c.module (within.params p hp)
    · obtain ⟨fd, hfd, rfl⟩ := List.mem_map.1 hb
      exact in_typeOr t c.module (namesIn_append.1 (within.fields fd hfd)).1

/-- A class is traversed alike. -/
theorem walkClass {c : Entry ClassDecl} (mem : c ∈ t.classes) :
    t'.walkClass (c.move f) = (t.walkClass c).map (Event.move f) := by
  have within := closed.classes c mem
  have hcx := in_classContext closed mem
  have missing : t'.missingMethods ((t.classContext c).move f) = _ :=
    h.missingMethods closed mem
  have outside : ∀ v ∈ (none : Option Version), NamesIn S v.sig.mentions := fun v hv => nomatch hv
  have unit : Ty.In S .unit := trivial
  have block {body : Block} (hb : body ∈ c.decl.init.toList ++ c.decl.recover.toList) :
      NamesIn S (Stmt.allMentions body) := within.blocks body hb
  have opening : NamesIn S (Stmt.allMentions (c.decl.init.getD [])) := by
    cases hi : c.decl.init with
    | none => exact namesIn_nil
    | some body => exact block (List.mem_append_left _ (Option.mem_toList.2 hi))
  have init : t'.walkBody ((t.classContext c).move f) initBody _ .unit [] (fieldInits c.decl)
      (c.decl.init.getD []) = _ :=
    h.walkBody closed hcx initBody outside unit (List.forall_mem_nil _)
      (namesIn_fieldInits within.fields) opening
  have methods : (c.decl.methods.flatMap fun m => m.versions.zipIdx.flatMap fun s =>
        t'.walkVersion ((t.classContext c).move f) s.1 s.2) =
      (c.decl.methods.flatMap fun m => m.versions.zipIdx.flatMap fun s =>
        t.walkVersion (t.classContext c) s.1 s.2).map (Event.move f) := by
    rw [List.map_flatMap]
    refine List.flatMap_congr fun m hm => ?_
    rw [List.map_flatMap]
    exact List.flatMap_congr fun s hs => h.walkVersion closed hcx
      (closed.method mem hm (List.fst_mem_of_mem_zipIdx hs)) s.2
  have recover : (c.decl.recover.toList.flatMap fun body =>
        t'.walkBody ((t.classContext c).move f) recoverBody none .unit [] [] body) =
      (c.decl.recover.toList.flatMap fun body =>
        t.walkBody (t.classContext c) recoverBody none .unit [] [] body).map
          (Event.move f) := by
    rw [List.map_flatMap]
    exact List.flatMap_congr fun body hb => h.walkBody closed hcx recoverBody outside unit
      (List.forall_mem_nil _) namesIn_nil (block (List.mem_append_right _ hb))
  have context : (⟨c.move f, (t.bindFields c).1, none⟩ : Context) =
      (t.classContext c).move f := rfl
  simp only [SymbolTable.walkClass, h.bindFields closed mem, context, Entry.move_decl]
  rw [missing, init, methods, recover]
  simp only [List.map_append, Event.map_move_findings]
  rfl

/-- An interface is traversed alike. -/
theorem walkInterface {i : Entry InterfaceDecl} (mem : i ∈ t.interfaces) :
    t'.walkInterface (i.move f) = t.walkInterface i := by
  refine congrArg (List.map Event.finding) (List.flatMap_congr fun sig hsig => ?_)
  obtain ⟨ret, params⟩ := namesIn_signature.1 (closed.signature mem hsig)
  rw [Entry.move_module, h.checkType i.module ret]
  refine congrArg (_ ++ ·) (List.flatMap_congr fun p hp => ?_)
  rw [h.checkType i.module (params p hp)]

end SymbolTable.Embeds

end DeltaLang
