import DeltaLang.Proofs.Names.Closure
import DeltaLang.Proofs.Names.Embedding
import DeltaLang.Proofs.Program.Mentions
import DeltaLang.Proofs.Typing.Callee

/-!
# Types in embedded tables

Types carry qualified names, which have the simple names of what they mean.  So where one table is
embedded in another for some simple names, and only mentions such names, its types are told apart
and its expressions are typed as they are in the other table.
-/

namespace DeltaLang

variable {S : String → Prop} {f : DeclPath → DeclPath}

/-- All the names have simple names in `S`. -/
def NamesIn (S : String → Prop) (names : List String) : Prop := ∀ n ∈ names, S (simpleName n)

theorem namesIn_append {names names' : List String} :
    NamesIn S (names ++ names') ↔ NamesIn S names ∧ NamesIn S names' := List.forall_mem_append

theorem namesIn_signature {sig : Signature} : NamesIn S sig.mentions ↔
    NamesIn S sig.ret.mentions ∧ ∀ p ∈ sig.params, NamesIn S p.type.mentions :=
  namesIn_append.trans (and_congr_right fun _ => List.forall_mem_flatMap)

/-- The interfaces and classes in the type have simple names in `S`. -/
def Ty.In (S : String → Prop) : Ty → Prop
  | fut value => value.In S
  | interface name | «class» name => S (simpleName name)
  | _ => True

/-- The interfaces and classes of the table only mention names with simple names in `S`. -/
structure SymbolTable.In (S : String → Prop) (t : SymbolTable) : Prop where
  placed : t.Placed
  names : ∀ c ∈ t.classes, S (simpleName c.name)
  interfaces : ∀ i ∈ t.interfaces, NamesIn S i.decl.mentions
  classes : ∀ c ∈ t.classes, c.decl.Within fun n => S (simpleName n)

namespace SymbolTable

variable {t t' : SymbolTable}

theorem In.parentsIn (h : t.In S) : t.ParentsIn S := fun i mem n hn =>
  h.interfaces i mem n (List.mem_cons_of_mem _ (List.mem_append_left _ hn))

theorem In.method (h : t.In S) {c : Entry ClassDecl} (mem : c ∈ t.classes) {m : Method}
    (hm : m ∈ c.decl.methods) {v : Version} (hv : v ∈ m.versions) : NamesIn S v.mentions :=
  fun n hn => (h.classes c mem).members.methods m hm n (List.mem_flatMap.2 ⟨v, hv, hn⟩)

theorem In.signature (h : t.In S) {i : Entry InterfaceDecl} (mem : i ∈ t.interfaces)
    {sig : Signature} (hsig : sig ∈ i.decl.methods) : NamesIn S sig.mentions := fun n hn =>
  h.interfaces i mem n (List.mem_cons_of_mem _ (List.mem_append_right _
    (List.mem_flatMap.2 ⟨sig, hsig, hn⟩)))

/-- The signature that a call finds only mentions names with simple names in `S`. -/
theorem In.lookupMethod (h : t.In S) {receiver : Ty} {method : String} {loc : Option Location}
    {sig : Signature} {module : String}
    (found : (t.lookupMethod receiver method loc).1 = some (sig, module)) :
    NamesIn S sig.mentions := by
  obtain ⟨writer, calls⟩ := exists_calls_of_lookupMethod found
  cases calls with
  | interface resolved reaches declared named =>
    exact h.signature (reaches.mem_interfaces (Namespace.mem_of_resolve_eq_ok resolved)) declared
  | own resolved declared =>
    have mem := Namespace.mem_of_resolve_eq_ok resolved
    have version := h.method mem (List.mem_of_find?_eq_some declared) List.mem_cons_self
    exact (namesIn_append.1 version).1
  | implemented resolved missing first declared =>
    have mem := mem_interfaces_of_mem_implementedInterfaces h.placed
      (List.mem_of_find?_eq_some first)
    exact h.signature mem (List.mem_of_find?_eq_some declared)

/-! ## Written types -/

theorem namesIn_arg {arg : TypeUse} {annotations : List String} :
    NamesIn S (TypeUse.mentions ⟨"Fut", [arg], annotations⟩) ↔ NamesIn S arg.mentions := by
  simp [TypeUse.mentions, TypeUse.allMentions]

theorem namesIn_plain {name : String} {annotations : List String} (other : name ≠ "Fut")
    (builtin : Ty.builtin? name = none) :
    NamesIn S (TypeUse.mentions ⟨name, [], annotations⟩) ↔ S (simpleName name) := by
  simp [TypeUse.mentions, TypeUse.allMentions, other, builtin, NamesIn]

theorem in_qualifiedName {α : Type} {ns : Namespace α} {frm : Option String} {name : String}
    {e : Entry α} (found : ns.resolve frm name = .ok e) (named : S (simpleName name)) :
    S (simpleName e.qualifiedName) := by
  rw [simpleName_qualifiedName, Namespace.simpleName_of_resolve found]
  exact named

theorem in_builtin? {name : String} {ty : Ty} (h : Ty.builtin? name = some ty) : ty.In S := by
  unfold Ty.builtin? at h
  repeat' split at h
  all_goals cases h
  all_goals trivial

theorem in_resolveType {module : Option String} {u : TypeUse} (named : NamesIn S u.mentions)
    {ty : Ty} (found : t.resolveType module u = .ok ty) : ty.In S := by
  fun_induction t.resolveType module u generalizing ty with
  | case1 annotations arg ih =>
    cases resolved : t.resolveType module arg with
    | error err => simp [resolved, Except.map] at found
    | ok value =>
      rw [resolved] at found
      obtain rfl := Except.ok.inj found
      have inner : value.In S := ih (namesIn_arg.1 named) resolved
      exact inner
  | case4 name args annotations other plain ty' builtin =>
    exact in_builtin? (builtin.trans (congrArg some (Except.ok.inj found)))
  | case5 name args annotations other plain builtin e resolved =>
    obtain rfl := Except.ok.inj found
    obtain rfl : args = [] := not_not.1 plain
    exact in_qualifiedName resolved ((namesIn_plain other builtin).1 named)
  | case2 | case3 | case6 | case7 => cases found

theorem in_typeOr (t : SymbolTable) (module : String) {u : TypeUse} (named : NamesIn S u.mentions) :
    (t.typeOr module u).In S := by
  unfold typeOr
  split
  · exact in_resolveType named ‹_›
  · trivial

theorem in_typeGet {future : Ty} (h : future.In S) (loc : Option Location) :
    (typeGet future loc).type.In S := by
  unfold typeGet
  split <;> first | exact h | trivial

theorem in_typeBinary (t : SymbolTable) (op : BinaryOp) (l r : Ty) (loc : Option Location) :
    (t.typeBinary op l r loc).type.In S := by
  unfold typeBinary
  split <;> (try split) <;> trivial

namespace Embeds

variable (h : t.Embeds S f t')

include h

theorem resolveType {module : Option String} {u : TypeUse} (named : NamesIn S u.mentions) :
    t'.resolveType module u = t.resolveType module u := by
  fun_induction t.resolveType module u with
  | case1 annotations arg ih => rw [SymbolTable.resolveType, if_pos rfl, ih (namesIn_arg.1 named)]
  | case2 args annotations several =>
    rw [SymbolTable.resolveType, if_pos rfl]
    exact several
  | case3 name args annotations other plain =>
    rcases args with _ | ⟨arg, _ | ⟨arg', args⟩⟩
    · exact absurd rfl plain
    · simp [SymbolTable.resolveType, other]
    · simp [SymbolTable.resolveType, other]
  | case4 name args annotations other plain ty builtin =>
    simp [SymbolTable.resolveType, other, not_not.1 plain, builtin]
  | case5 name args annotations other plain builtin
  | case6 name args annotations other plain builtin
  | case7 name args annotations other plain builtin =>
    obtain rfl : args = [] := not_not.1 plain
    have found := h.interfaces.resolve module name ((namesIn_plain other builtin).1 named)
    simp [SymbolTable.resolveType, Except.map, *]

theorem typeOr (module : String) {u : TypeUse} (named : NamesIn S u.mentions) :
    t'.typeOr module u = t.typeOr module u := by
  rw [SymbolTable.typeOr, SymbolTable.typeOr, h.resolveType named]

theorem checkType (module : String) {u : TypeUse} (named : NamesIn S u.mentions)
    (loc : Option Location) : t'.checkType module u loc = t.checkType module u loc := by
  rw [SymbolTable.checkType, SymbolTable.checkType, h.resolveType named]

/-! ## Relations between types -/

variable (closed : t.In S)

include closed

theorem classImplements {cls interface : String} (hcls : S (simpleName cls))
    (hinterface : S (simpleName interface)) :
    t'.classImplements cls interface = t.classImplements cls interface := by
  rw [SymbolTable.classImplements, SymbolTable.classImplements, h.classes.resolve none cls hcls,
    h.interfaces.resolve none interface hinterface]
  cases found : t.classes.resolve none cls with
  | error err => rfl
  | ok c =>
    cases t.interfaces.resolve none interface with
    | error err => rfl
    | ok target =>
      have mem := Namespace.mem_of_resolve_eq_ok found
      have moved := h.implementedInterfaces closed.parentsIn closed.placed
        (closed.classes c mem).implements
      simp only [Except.map, moved]
      exact h.any_path

theorem isAssignable {a b : Ty} (ha : a.In S) (hb : b.In S) :
    t'.isAssignable a b = t.isAssignable a b := by
  induction a generalizing b with
  | fut a ih =>
    cases b with
    | fut b => exact congrArg (a == b || ·) (ih ha hb)
    | _ => rfl
  | interface sub =>
    cases b with
    | interface sup =>
      exact congrArg (sub == sup || ·)
        (h.isSubinterface closed.parentsIn closed.placed ha hb)
    | _ => rfl
  | «class» cls =>
    cases b with
    | interface sup => exact h.classImplements closed ha hb
    | _ => rfl
  | _ => cases b <;> rfl

theorem isComparable {a b : Ty} (ha : a.In S) (hb : b.In S) :
    t'.isComparable a b = t.isComparable a b := by
  rw [SymbolTable.isComparable, SymbolTable.isComparable, h.isAssignable closed ha hb,
    h.isAssignable closed hb ha]

theorem expectAssignable {found : Ty} (hfound : found.In S) (expected : Ty)
    (hexpected : expected.In S) (what : String) (loc : Option Location) :
    t'.expectAssignable found expected what loc = t.expectAssignable found expected what loc := by
  rw [SymbolTable.expectAssignable, SymbolTable.expectAssignable,
    h.isAssignable closed hfound hexpected]

theorem checkArgs (what : String) {params : List Param} (module : String) {found : List Ty}
    (hparams : ∀ p ∈ params, NamesIn S p.type.mentions) (hfound : ∀ ty ∈ found, ty.In S)
    (loc : Option Location) :
    t'.checkArgs what params module found loc = t.checkArgs what params module found loc := by
  rw [SymbolTable.checkArgs, SymbolTable.checkArgs]
  refine if_congr Iff.rfl rfl (List.flatMap_congr fun x mem => ?_)
  obtain ⟨p, ty⟩ := x
  obtain ⟨hp, hty⟩ := List.of_mem_zip mem
  dsimp only
  rw [h.typeOr module (hparams p hp)]
  exact h.expectAssignable closed (hfound ty hty) _ (in_typeOr t module (hparams p hp)) _ loc

/-! ## Calls -/

theorem lookupMethod {receiver : Ty} (hreceiver : receiver.In S) (method : String)
    (loc : Option Location) :
    t'.lookupMethod receiver method loc = t.lookupMethod receiver method loc := by
  cases receiver with
  | interface name =>
    rw [SymbolTable.lookupMethod, SymbolTable.lookupMethod,
      h.interfaces.resolve none name hreceiver]
    cases found : t.interfaces.resolve none name with
    | error err => rfl
    | ok i =>
      have mem := Namespace.mem_of_resolve_eq_ok found
      simp only [Except.map, h.findMethod? closed.parentsIn closed.placed mem, Entry.move_module]
  | «class» name =>
    rw [SymbolTable.lookupMethod, SymbolTable.lookupMethod, h.classes.resolve none name hreceiver]
    cases found : t.classes.resolve none name with
    | error err => rfl
    | ok c =>
      have mem := Namespace.mem_of_resolve_eq_ok found
      simp only [Except.map, h.implementedInterfaces closed.parentsIn closed.placed
        (closed.classes c mem).implements, List.findSome?_map, Entry.move_decl, Entry.move_module,
        Function.comp_def]
  | _ => rfl

/-! ## The rules -/

theorem typeUnary (op : UnaryOp) {found : Ty} (hfound : found.In S) (loc : Option Location) :
    t'.typeUnary op found loc = t.typeUnary op found loc := by
  have bool := h.expectAssignable closed hfound .bool trivial "operand" loc
  have int := h.expectAssignable closed hfound .int trivial "operand" loc
  cases op with
  | not => exact congrArg (Typing.mk _ · none) bool
  | neg => exact congrArg (Typing.mk _ · none) int

theorem typeOperands (op : BinaryOp) {l r : Ty} (hl : l.In S) (hr : r.In S) (operand : Ty)
    (hoperand : operand.In S) (result : Ty) (loc : Option Location) :
    t'.typeOperands op l r operand result loc = t.typeOperands op l r operand result loc := by
  rw [SymbolTable.typeOperands, SymbolTable.typeOperands, h.expectAssignable closed hl _ hoperand,
    h.expectAssignable closed hr _ hoperand]

theorem typeBinary (op : BinaryOp) {l r : Ty} (hl : l.In S) (hr : r.In S)
    (loc : Option Location) : t'.typeBinary op l r loc = t.typeBinary op l r loc := by
  have bool := h.typeOperands closed op hl hr .bool trivial .bool loc
  have int := h.typeOperands closed op hl hr .int trivial
  have string := h.typeOperands closed op hl hr .string trivial .string loc
  unfold SymbolTable.typeBinary
  rw [h.isComparable closed hl hr, bool, int, int, string]

theorem typeCall {receiver : Ty} (hreceiver : receiver.In S) (method : String) {args : List Ty}
    (hargs : ∀ ty ∈ args, ty.In S) (async : Bool) (loc : Option Location) :
    t'.typeCall receiver method args async loc = t.typeCall receiver method args async loc ∧
      (t.typeCall receiver method args async loc).type.In S := by
  rw [SymbolTable.typeCall, SymbolTable.typeCall, h.lookupMethod closed hreceiver]
  cases found : t.lookupMethod receiver method loc with
  | mk callee ds =>
    cases callee with
    | none => exact ⟨rfl, trivial⟩
    | some callee =>
      obtain ⟨sig, module⟩ := callee
      obtain ⟨ret, params⟩ := namesIn_signature.1 (closed.lookupMethod (congrArg Prod.fst found))
      dsimp only
      rw [h.typeOr module ret, h.checkArgs closed _ module params hargs]
      refine ⟨rfl, ?_⟩
      have value := in_typeOr t module ret
      cases async <;> exact value

theorem typeNew (module : String) {cls : String} (hcls : S (simpleName cls)) {args : List Ty}
    (hargs : ∀ ty ∈ args, ty.In S) (loc : Option Location) :
    t'.typeNew module cls args loc = t.typeNew module cls args loc ∧
      (t.typeNew module cls args loc).type.In S := by
  rw [SymbolTable.typeNew, SymbolTable.typeNew, h.classes.resolve (some module) cls hcls]
  cases found : t.classes.resolve (some module) cls with
  | error err => cases err <;> exact ⟨rfl, trivial⟩
  | ok c =>
    have params := (closed.classes c (Namespace.mem_of_resolve_eq_ok found)).params
    exact ⟨congrArg (Typing.mk _ · none) (h.checkArgs closed _ c.module params hargs loc),
      in_qualifiedName found hcls⟩

end Embeds

end SymbolTable

/-! ## Contexts -/

/-- The context of a class at another place. -/
def Context.move (f : DeclPath → DeclPath) (cx : Context) : Context :=
  { cx with cls := cx.cls.move f }

/-- What is in scope only has types of names in `S`. -/
structure Context.In (S : String → Prop) (cx : Context) : Prop where
  cls : S (simpleName cx.className)
  fields : ∀ b ∈ cx.fields, b.type.In S
  scopes : ∀ b ∈ cx.scopes.flatten, b.type.In S
  version : ∀ v ∈ cx.version?, NamesIn S v.sig.mentions

namespace Context.In

variable {cx : Context} {name : String} {loc : Option Location}

theorem field? (h : cx.In S) {b : Binding} (found : cx.field? name = some b) : b.type.In S :=
  h.fields b (List.mem_of_find?_eq_some found)

theorem lookup (h : cx.In S) {b : Binding} (found : cx.lookup name = some b) : b.type.In S := by
  rw [lookup_eq] at found
  rcases Option.or_eq_some_iff.1 found with found | ⟨-, found⟩
  · exact h.scopes b (List.mem_of_find?_eq_some found)
  · exact h.field? found

theorem typeVar (h : cx.In S) : (SymbolTable.typeVar cx name loc).type.In S := by
  unfold SymbolTable.typeVar
  split
  · exact h.lookup ‹_›
  · trivial

theorem typeField (h : cx.In S) : (SymbolTable.typeField cx name loc).type.In S := by
  unfold SymbolTable.typeField
  split
  · exact h.field? ‹_›
  · trivial

end Context.In

namespace SymbolTable.Embeds

variable {t t' : SymbolTable} (h : t.Embeds S f t') (closed : t.In S) {cx : Context}

include h closed

theorem typeOriginal (hcx : cx.In S) {args : List Ty} (hargs : ∀ ty ∈ args, ty.In S)
    (loc : Option Location) :
    t'.typeOriginal (cx.move f) args loc = t.typeOriginal cx args loc ∧
      (t.typeOriginal cx args loc).type.In S := by
  have version : (cx.move f).version? = cx.version? := rfl
  rw [SymbolTable.typeOriginal, SymbolTable.typeOriginal, version]
  cases found : cx.version? with
  | none => exact ⟨rfl, trivial⟩
  | some v =>
    obtain ⟨ret, params⟩ := namesIn_signature.1 (hcx.version v found)
    exact ⟨congrArg₂ (Typing.mk · · none) (h.typeOr cx.module ret)
      (h.checkArgs closed "original" cx.module params hargs loc), in_typeOr t cx.module ret⟩

/-! ## Expressions -/

omit h closed

mutual

/-- An expression is typed alike, and its type only has names in `S`. -/
theorem typeExpr (h : t.Embeds S f t') (closed : t.In S) (hcx : cx.In S) (next : Nat) :
    (e : Expr) → NamesIn S e.mentions →
    t'.typeExpr (cx.move f) next e = t.typeExpr cx next e ∧ (t.typeExpr cx next e).type.In S
  | .bool .., _ | .int .., _ | .str .., _ | .null _, _ => ⟨rfl, trivial⟩
  | .this _, _ => ⟨rfl, hcx.cls⟩
  | .var name loc, _ => ⟨rfl, hcx.typeVar⟩
  | .field name loc, _ => ⟨rfl, hcx.typeField⟩
  | .unary op operand loc, named => by
    obtain ⟨same, hoperand⟩ := typeExpr h closed hcx next operand named
    simp only [SymbolTable.typeExpr, same, h.typeUnary closed op hoperand]
    cases op <;> exact ⟨trivial, trivial⟩
  | .binary op lhs rhs loc, named => by
    rw [Expr.mentions, namesIn_append] at named
    obtain ⟨left, hl⟩ := typeExpr h closed hcx next lhs named.1
    obtain ⟨right, hr⟩ := typeExpr h closed hcx ((t.typeExpr cx next lhs).index + 1) rhs named.2
    simp only [SymbolTable.typeExpr, left, right, h.typeBinary closed op hl hr]
    exact ⟨trivial, in_typeBinary t op _ _ loc⟩
  | .call target method args async loc, named => by
    rw [Expr.mentions, namesIn_append] at named
    obtain ⟨first, hreceiver⟩ := typeExpr h closed hcx next target named.1
    obtain ⟨rest, hargs⟩ :=
      typeExprs h closed hcx ((t.typeExpr cx next target).index + 1) args named.2
    obtain ⟨call, hcall⟩ := h.typeCall closed hreceiver method (List.forall_mem_map.2 hargs) async
      loc
    simp only [SymbolTable.typeExpr, first, rest, call]
    exact ⟨trivial, hcall⟩
  | .get future loc, named => by
    obtain ⟨same, hfuture⟩ := typeExpr h closed hcx next future named
    simp only [SymbolTable.typeExpr, same]
    exact ⟨trivial, in_typeGet hfuture loc⟩
  | .new cls args isLocal loc, named => by
    rw [Expr.mentions, NamesIn, List.forall_mem_cons] at named
    obtain ⟨same, hargs⟩ := typeExprs h closed hcx next args named.2
    obtain ⟨new, hnew⟩ := h.typeNew closed cx.module named.1
      (List.forall_mem_map.2 hargs) loc
    simp only [SymbolTable.typeExpr, same]
    exact ⟨congrArg (SymbolTable.typed _ · _ _) new, hnew⟩
  | .original args loc, named => by
    obtain ⟨same, hargs⟩ := typeExprs h closed hcx next args named
    obtain ⟨original, horiginal⟩ := h.typeOriginal closed hcx (List.forall_mem_map.2 hargs) loc
    simp only [SymbolTable.typeExpr, same, original]
    exact ⟨trivial, horiginal⟩

theorem typeExprs (h : t.Embeds S f t') (closed : t.In S) (hcx : cx.In S) (next : Nat) :
    (es : List Expr) → NamesIn S (Expr.allMentions es) →
    t'.typeExprs (cx.move f) next es = t.typeExprs cx next es ∧
      ∀ e ∈ (t.typeExprs cx next es).1, e.type.In S
  | [], _ => ⟨rfl, fun _ mem => absurd mem List.not_mem_nil⟩
  | e :: es, named => by
    rw [Expr.allMentions, namesIn_append] at named
    obtain ⟨first, he⟩ := typeExpr h closed hcx next e named.1
    obtain ⟨rest, hes⟩ := typeExprs h closed hcx ((t.typeExpr cx next e).index + 1) es named.2
    simp only [SymbolTable.typeExprs, first, rest]
    exact ⟨trivial, List.forall_mem_cons.2 ⟨he, hes⟩⟩

end

end SymbolTable.Embeds

end DeltaLang
