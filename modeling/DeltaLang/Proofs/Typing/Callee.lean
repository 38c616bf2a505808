import DeltaLang.Proofs.Names.Checked
import DeltaLang.Proofs.Typing.Quiet
import Mathlib.Data.List.Pairwise

/-!
# Where a call reads the signature it goes to

A call takes its type and those of its arguments from the signature found on the receiver.  The
types are read in the module of the receiver's interface or class, also if the signature is
inherited from an interface that is declared in another module.  So an inherited signature is read
as it was written only if the names of interfaces in it mean the same in both modules.
-/

namespace DeltaLang

/-! ## Names seen from two modules -/

namespace Namespace

variable {α : Type} {ns : Namespace α} {a b name : String} {e : Entry α}

/-- The name is not told apart by two modules: these are the same, or one module at most declares
the name, or it is declared by neither. -/
def MeansAlike (ns : Namespace α) (a b name : String) : Prop :=
  a = b ∨ ns.NamesOneModule name ∨ ∀ e ∈ ns, e.name = name → e.module ≠ a ∧ e.module ≠ b

instance (ns : Namespace α) (a b name : String) : Decidable (ns.MeansAlike a b name) :=
  inferInstanceAs (Decidable (_ ∨ _ ∨ _))

/-- A name means in a module that does not declare it what it means outside of all modules. -/
theorem resolve_of_elsewhere (elsewhere : ∀ e ∈ ns, e.name = name → e.module ≠ a) :
    ns.resolve (some a) name = ns.resolve none name := by
  by_cases plain : PlainName name
  · have inside : (ns.filter (·.name == name)).find? (fun e => some e.module == some a) = none := by
      refine List.find?_eq_none.2 fun e mem here => ?_
      obtain ⟨mem, same⟩ := List.mem_filter.1 mem
      exact elsewhere e mem (beq_iff_eq.1 same) (Option.some.inj (beq_iff_eq.1 here))
    have outside : (ns.filter (·.name == name)).find? (fun e => some e.module == none) = none := by
      simp
    simp only [resolve, splitQualified_eq_of_plainName plain, inside, outside]
  · obtain ⟨module, simple, split⟩ := exists_splitQualified_of_not_plainName plain
    simp only [resolve, split]

/-- A plain name means in a module that declares it a declaration of this module. -/
theorem exists_resolve_of_mem (plain : PlainName name) (mem : e ∈ ns) (same : e.name = name) :
    ∃ e', ns.resolve (some e.module) name = .ok e' ∧ e'.module = e.module := by
  have found : ((ns.filter (·.name == name)).find?
      fun e' => some e'.module == some e.module).isSome :=
    List.find?_isSome.2 ⟨e, List.mem_filter.2 ⟨mem, beq_iff_eq.2 same⟩, beq_self_eq_true _⟩
  obtain ⟨e', found⟩ := Option.isSome_iff_exists.1 found
  have owned := List.find?_some found
  refine ⟨e', ?_, Option.some.inj (beq_iff_eq.1 owned)⟩
  simp only [resolve, splitQualified_eq_of_plainName plain, found]

/-- A name that one module at most declares means the same in every module. -/
theorem resolve_of_namesOneModule (one : ns.NamesOneModule name) :
    ns.resolve (some a) name = ns.resolve none name := by
  by_cases declared : PlainName name ∧ ∃ e ∈ ns, e.name = name ∧ e.module = a
  · obtain ⟨plain, e, mem, same, rfl⟩ := declared
    obtain ⟨e', seen, -⟩ := exists_resolve_of_mem plain mem same
    rw [seen, resolve_none_of_namesOneModule seen one]
  · by_cases plain : PlainName name
    · exact resolve_of_elsewhere fun e mem same here => declared ⟨plain, e, mem, same, here⟩
    · obtain ⟨module, simple, split⟩ := exists_splitQualified_of_not_plainName plain
      simp only [resolve, split]

theorem module_eq_of_qualifiedName_eq {frm frm' : Option String} {name' : String} {e' : Entry α}
    (h : ns.resolve frm name = .ok e) (h' : ns.resolve frm' name' = .ok e')
    (same : e.qualifiedName = e'.qualifiedName) : e.module = e'.module := by
  have split := splitQualified_qualifiedName (plainName_of_resolve h)
  rw [same, splitQualified_qualifiedName (plainName_of_resolve h')] at split
  exact (Option.some.inj (Prod.mk.inj split).1).symm

/-- What a name means to a module: the qualified name of a declaration. -/
def meaning (ns : Namespace α) (module name : String) : Option String :=
  (ns.resolve (some module) name).toOption.map (·.qualifiedName)

/-- A name that several modules declare means something of its own to each of them. -/
theorem meaning_ne_of_mem (differ : e.module ≠ b) (several : ¬ ns.NamesOneModule name)
    (mem : e ∈ ns) (same : e.name = name) : ns.meaning e.module name ≠ ns.meaning b name := by
  have plain : PlainName name := by_contra fun dotted => several fun plain => absurd plain dotted
  obtain ⟨here, seen, owned⟩ := exists_resolve_of_mem plain mem same
  intro alike
  rw [meaning, seen] at alike
  obtain ⟨there, seen', named⟩ := exists_of_map_toOption alike.symm
  have module : there.module = e.module := by
    rw [← owned, module_eq_of_qualifiedName_eq seen' seen named]
  by_cases declared : ∃ e' ∈ ns, e'.name = name ∧ e'.module = b
  · obtain ⟨e', mem', same', rfl⟩ := declared
    obtain ⟨own, seen'', owned'⟩ := exists_resolve_of_mem plain mem' same'
    obtain rfl := Except.ok.inj (seen''.symm.trans seen')
    exact differ (module.symm.trans owned')
  · rw [resolve_of_elsewhere fun e' mem' same' here => declared ⟨e', mem', same', here⟩] at seen'
    refine several fun _ e₁ mem₁ e₂ mem₂ same₁ same₂ => ?_
    rw [module_eq_of_resolve seen' plain mem₁ same₁, module_eq_of_resolve seen' plain mem₂ same₂]

/-- A name is not told apart exactly if it means the same declaration, or nothing, to both. -/
theorem meaning_eq_iff : ns.meaning a name = ns.meaning b name ↔ ns.MeansAlike a b name := by
  constructor
  · intro alike
    by_contra unlike
    simp only [MeansAlike, not_or, not_forall, not_and_or, not_not] at unlike
    obtain ⟨differ, several, e, mem, same, rfl | rfl⟩ := unlike
    · exact meaning_ne_of_mem differ several mem same alike
    · exact meaning_ne_of_mem (Ne.symm differ) several mem same alike.symm
  · rintro (rfl | one | elsewhere)
    · rfl
    · rw [meaning, meaning, resolve_of_namesOneModule one, resolve_of_namesOneModule one]
    · rw [meaning, meaning, resolve_of_elsewhere fun e mem same => (elsewhere e mem same).1,
        resolve_of_elsewhere fun e mem same => (elsewhere e mem same).2]

end Namespace

/-! ## Types seen from two modules -/

/-- The name of an interface that a type stands for, or is the future of. -/
def TypeUse.interfaceName? : TypeUse → Option String
  | ⟨name, args, _⟩ =>
    if name = "Fut" then
      match args with
      | [arg] => interfaceName? arg
      | _ => none
    else if args ≠ [] then none
    else
      match Ty.builtin? name with
      | some _ => none
      | none => some name

/-- The names of interfaces that the types of a signature depend on. -/
def Signature.interfaceNames (sig : Signature) : List String :=
  (sig.ret :: sig.params.map (·.type)).filterMap TypeUse.interfaceName?

namespace SymbolTable

variable {t : SymbolTable} {a b : String}

/-- A written type denotes the same in two modules, or none in either, exactly if the interface name
in it is not told apart by them. -/
theorem toOption_resolveType_eq_iff {u : TypeUse} :
    (t.resolveType (some a) u).toOption = (t.resolveType (some b) u).toOption ↔
      ∀ name ∈ u.interfaceName?, t.interfaces.MeansAlike a b name := by
  fun_induction TypeUse.interfaceName? u with
  | case1 annotations arg ih =>
    have future (module : String) :
        (t.resolveType (some module) ⟨"Fut", [arg], annotations⟩).toOption =
          (t.resolveType (some module) arg).toOption.map .fut := by
      rw [resolveType, if_pos rfl]
      cases t.resolveType (some module) arg <;> rfl
    rw [future, future, (Option.map_injective fun _ _ => Ty.fut.inj).eq_iff, ih]
  | case2 args annotations many =>
    -- a future of no type or of several is refused in every module
    have refused (module : String) :
        t.resolveType (some module) ⟨"Fut", args, annotations⟩ =
          .error (.arity "Fut" 1 args.length) := by
      rw [resolveType, if_pos rfl]
      exact many
    simp [refused]
  | case3 name args annotations other arity =>
    have refused (module : String) :
        t.resolveType (some module) ⟨name, args, annotations⟩ =
          .error (.arity name 0 args.length) := by
      rcases args with _ | ⟨arg, _ | ⟨arg', args⟩⟩
      · exact absurd rfl arity
      · simp [resolveType, other]
      · simp [resolveType, other]
    simp [refused]
  | case4 name args annotations other plain ty builtin =>
    obtain rfl : args = [] := not_not.1 plain
    simp [resolveType, other, builtin]
  | case5 name args annotations other plain builtin =>
    obtain rfl : args = [] := not_not.1 plain
    have meant (module : String) : (t.resolveType (some module) ⟨name, [], annotations⟩).toOption =
        (t.interfaces.meaning module name).map .interface := by
      simp only [resolveType, if_neg other, builtin, Namespace.meaning]
      rcases t.interfaces.resolve (some module) name with (_ | _) | e <;> rfl
    rw [meant, meant, (Option.map_injective fun _ _ => Ty.interface.inj).eq_iff,
      Namespace.meaning_eq_iff]
    simp

theorem typeOr_eq_iff {u : TypeUse} :
    t.typeOr a u = t.typeOr b u ↔ ∀ name ∈ u.interfaceName?, t.interfaces.MeansAlike a b name := by
  rw [← toOption_resolveType_eq_iff, typeOr, typeOr]
  cases seen : t.resolveType (some a) u with
  | ok ty =>
    cases seen' : t.resolveType (some b) u with
    | ok ty' => simp [Except.toOption]
    | error err =>
      have known := known_of_resolveType seen
      refine iff_of_false (fun same => ?_) (by simp [Except.toOption])
      simp [same, Ty.known] at known
  | error err =>
    cases seen' : t.resolveType (some b) u with
    | ok ty =>
      have known := known_of_resolveType seen'
      refine iff_of_false (fun same => ?_) (by simp [Except.toOption])
      simp [← same, Ty.known] at known
    | error err' => simp [Except.toOption]

/-- A signature reads the same in two modules exactly if the names of interfaces in it are not told
apart by them. -/
theorem signature_eq_iff {sig : Signature} :
    (t.typeOr a sig.ret = t.typeOr b sig.ret ∧
        t.paramTypes a sig.params = t.paramTypes b sig.params) ↔
      ∀ name ∈ sig.interfaceNames, t.interfaces.MeansAlike a b name := by
  have params : t.paramTypes a sig.params = t.paramTypes b sig.params ↔
      ∀ p ∈ sig.params, t.typeOr a p.type = t.typeOr b p.type := List.map_inj_left
  simp only [params, typeOr_eq_iff, Signature.interfaceNames, List.mem_filterMap, List.mem_cons,
    List.mem_map]
  constructor
  · rintro ⟨ret, params⟩ name ⟨u, rfl | ⟨p, mem, rfl⟩, named⟩
    · exact ret name named
    · exact params p mem name named
  · intro alike
    exact ⟨fun name named => alike name ⟨_, .inl rfl, named⟩,
      fun p mem name named => alike name ⟨_, .inr ⟨p, mem, rfl⟩, named⟩⟩

/-! ## The interface that declares a signature -/

/-- The interfaces are those that a descent has entered, each as often as its signatures were
found. -/
structure MadeOf (t : SymbolTable) (st : Descent) (entered : List (Entry InterfaceDecl)) :
    Prop where
  known : entered ⊆ t.interfaces
  visited : st.visited ⊆ entered.map (·.path)
  found : st.found = entered.flatMap (·.decl.methods)

theorem MadeOf.descend {depth : Nat} {i : Entry InterfaceDecl} (mem : i ∈ t.interfaces)
    {st : Descent} {entered : List (Entry InterfaceDecl)} (h : t.MadeOf st entered) :
    ∃ entered', t.MadeOf (t.descend depth i st) entered' := by
  induction depth generalizing i st entered with
  | zero => exact ⟨entered, h⟩
  | succ depth ih =>
    rw [SymbolTable.descend]
    split
    · exact ⟨entered, h⟩
    · refine List.foldlRecOn (motive := fun st => ∃ entered', t.MadeOf st entered') (t.parents i) _
        ⟨entered ++ [i], ?_, ?_, ?_⟩ fun st made p edge => ?_
      · exact List.append_subset.2 ⟨h.known, List.cons_subset.2 ⟨mem, List.nil_subset _⟩⟩
      · intro path visited
        rw [List.map_append, List.map_singleton, List.mem_append, List.mem_singleton, Or.comm]
        exact (List.mem_cons.1 visited).imp_right fun old => h.visited old
      · rw [List.flatMap_append, List.flatMap_singleton, h.found]
      · obtain ⟨entered', made⟩ := made
        exact ih (mem_interfaces_of_mem_parents edge) made

/-- What an interface inherits under a name is declared by one of the interfaces it extends. -/
theorem eq_of_reaches_of_declared (placed : t.Placed) (distinct : t.SignaturesDistinct)
    {i j j' : Entry InterfaceDecl} (mem : i ∈ t.interfaces) (reaches : t.Reaches i j)
    (reaches' : t.Reaches i j') {sig sig' : Signature} (declared : sig ∈ j.decl.methods)
    (declared' : sig' ∈ j'.decl.methods) (same : sig.name = sig'.name) : j = j' := by
  obtain ⟨entered, made⟩ : ∃ entered, t.MadeOf (t.descend t.descentDepth i ⟨[], []⟩) entered :=
    MadeOf.descend mem ⟨List.nil_subset _, List.nil_subset _, rfl⟩
  have mem_entered {k : Entry InterfaceDecl} (reaches : t.Reaches i k) : k ∈ entered := by
    obtain ⟨k', mem', path⟩ :=
      List.mem_map.1 (made.visited (descends_of_reaches placed mem reaches).1)
    rwa [← placed k' (made.known mem') k (reaches.mem_interfaces mem) path]
  have names := distinct i mem
  rw [interfaceMethods, made.found, List.map_flatMap, List.nodup_flatMap] at names
  have : Std.Symm (Function.onFun List.Disjoint
      fun k : Entry InterfaceDecl => k.decl.methods.map Signature.name) :=
    ⟨fun _ _ disjoint => List.disjoint_comm.1 disjoint⟩
  by_contra differ
  exact names.2.forall (mem_entered reaches) (mem_entered reaches') differ
    (List.mem_map_of_mem declared) (same ▸ List.mem_map_of_mem declared')

/-! ## What a call goes to -/

/-- A call of `method` on a receiver goes to `sig`, reads its types in the module `reader`, and
`writer` is the module of the declaration that has `sig`. -/
inductive Calls (t : SymbolTable) (method : String) : Ty → Signature → String → String → Prop
  /-- The interface, or one that it extends, declares the signature. -/
  | interface {name : String} {i j : Entry InterfaceDecl} {sig : Signature}
    (receiver : t.interfaces.resolve none name = .ok i) (reaches : t.Reaches i j)
    (declared : sig ∈ j.decl.methods) (named : sig.name = method) :
    Calls t method (.interface name) sig i.module j.module
  /-- The class has a method of the name. -/
  | own {name : String} {c : Entry ClassDecl} {m : Method}
    (receiver : t.classes.resolve none name = .ok c) (declared : c.decl.method? method = some m) :
    Calls t method (.class name) m.sig c.module c.module
  /-- The class has no method of the name, and of the interfaces it implements the first that
  declares one does. -/
  | implemented {name : String} {c : Entry ClassDecl} {j : Entry InterfaceDecl} {sig : Signature}
    (receiver : t.classes.resolve none name = .ok c) (missing : c.decl.method? method = none)
    (first : (t.implementedInterfaces c).find?
      (fun i => (i.decl.methods.find? (·.name == method)).isSome) = some j)
    (declared : j.decl.methods.find? (·.name == method) = some sig) :
    Calls t method (.class name) sig c.module j.module

theorem findSome?_eq_some_iff_find? {α β : Type} {l : List α} {f : α → Option β} {b : β} :
    l.findSome? f = some b ↔ ∃ a, l.find? (fun a => (f a).isSome) = some a ∧ f a = some b := by
  induction l with
  | nil => simp
  | cons a l ih =>
    rw [List.findSome?_cons, List.find?_cons]
    cases here : f a with
    | none => exact ih
    | some b' => simp [here]

variable {method reader writer : String} {receiver : Ty} {sig : Signature} {loc : Option Location}

/-- The signature of a name in an interface is the one that it or an interface it extends
declares. -/
theorem findMethod?_eq_some_iff (placed : t.Placed) (distinct : t.SignaturesDistinct)
    {i : Entry InterfaceDecl} (mem : i ∈ t.interfaces) :
    t.findMethod? i method = some sig ↔
      (∃ j, t.Reaches i j ∧ sig ∈ j.decl.methods) ∧ sig.name = method := by
  rw [← mem_interfaceMethods_iff placed mem]
  constructor
  · intro found
    have named := List.find?_some found
    exact ⟨List.mem_of_find?_eq_some found, beq_iff_eq.1 named⟩
  · rintro ⟨inherited, rfl⟩
    have found : (t.findMethod? i sig.name).isSome :=
      List.find?_isSome.2 ⟨sig, inherited, beq_self_eq_true _⟩
    obtain ⟨sig', found⟩ := Option.isSome_iff_exists.1 found
    have named := List.find?_some found
    rw [found, List.inj_on_of_nodup_map (distinct i mem) (List.mem_of_find?_eq_some found) inherited
      (beq_iff_eq.1 named)]

/-- What a call goes to is what is looked up, and nothing is reported. -/
theorem lookupMethod_of_calls (placed : t.Placed) (distinct : t.SignaturesDistinct)
    (calls : t.Calls method receiver sig reader writer) (loc : Option Location) :
    t.lookupMethod receiver method loc = (some (sig, reader), []) := by
  cases calls with
  | interface resolved reaches declared named =>
    have found := (findMethod?_eq_some_iff placed distinct
      (Namespace.mem_of_resolve_eq_ok resolved)).2 ⟨⟨_, reaches, declared⟩, named⟩
    simp only [lookupMethod, resolved, found]
  | own resolved declared =>
    simp [lookupMethod, resolved, declared]
  | implemented resolved missing first declared =>
    have inherited := findSome?_eq_some_iff_find?.2 ⟨_, first, declared⟩
    simp [lookupMethod, resolved, missing, inherited]

/-- A call goes to one signature, which it reads in one module and which one module declares. -/
theorem Calls.unique (placed : t.Placed) (distinct : t.SignaturesDistinct)
    {sig' : Signature} {reader' writer' : String}
    (calls : t.Calls method receiver sig reader writer)
    (calls' : t.Calls method receiver sig' reader' writer') :
    sig' = sig ∧ reader' = reader ∧ writer' = writer := by
  have found := lookupMethod_of_calls placed distinct calls none
  have found' := lookupMethod_of_calls placed distinct calls' none
  obtain ⟨sigs, readers⟩ :=
    Prod.mk.inj (Option.some.inj (congrArg Prod.fst (found'.symm.trans found)))
  refine ⟨sigs, readers, ?_⟩
  cases calls with
  | interface resolved reaches declared named =>
    cases calls' with
    | interface resolved' reaches' declared' named' =>
      obtain rfl := Except.ok.inj (resolved.symm.trans resolved')
      have mem := Namespace.mem_of_resolve_eq_ok resolved
      rw [eq_of_reaches_of_declared placed distinct mem reaches reaches' declared declared'
        (named.trans named'.symm)]
  | own resolved declared =>
    cases calls' with
    | own resolved' declared' => exact readers
    | implemented resolved' missing' first' declared' =>
      obtain rfl := Except.ok.inj (resolved.symm.trans resolved')
      cases missing'.symm.trans declared
  | implemented resolved missing first declared =>
    cases calls' with
    | own resolved' declared' =>
      obtain rfl := Except.ok.inj (resolved.symm.trans resolved')
      cases missing.symm.trans declared'
    | implemented resolved' missing' first' declared' =>
      obtain rfl := Except.ok.inj (resolved.symm.trans resolved')
      rw [Option.some.inj (first'.symm.trans first)]

theorem exists_calls_of_lookupMethod
    (found : (t.lookupMethod receiver method loc).1 = some (sig, reader)) :
    ∃ writer, t.Calls method receiver sig reader writer := by
  unfold lookupMethod at found
  split at found
  · cases found
  · split at found
    · cases found
    · rename_i resolved
      split at found
      · rename_i inherited
        cases found
        obtain ⟨j, reaches, declared⟩ :=
          exists_of_mem_interfaceMethods (List.mem_of_find?_eq_some inherited)
        have named := List.find?_some inherited
        exact ⟨j.module, .interface resolved reaches declared (beq_iff_eq.1 named)⟩
      · cases found
  · split at found
    · cases found
    · rename_i c resolved
      dsimp only at found
      split at found
      · rename_i chosen
        cases found
        rcases Option.or_eq_some_iff.1 chosen with own | ⟨none, inherited⟩
        · obtain ⟨m, declared, rfl⟩ := Option.map_eq_some_iff.1 own
          exact ⟨c.module, .own resolved declared⟩
        · obtain ⟨j, first, declared⟩ := findSome?_eq_some_iff_find?.1 inherited
          exact ⟨j.module, .implemented resolved (Option.map_eq_none_iff.1 none) first declared⟩
      · cases found
  · cases found

theorem checkArgs_congr {what : String} {params : List Param} {found : List Ty}
    (same : t.paramTypes a params = t.paramTypes b params) :
    t.checkArgs what params a found loc = t.checkArgs what params b found loc := by
  have each : ∀ p ∈ params, t.typeOr a p.type = t.typeOr b p.type := List.map_inj_left.1 same
  rw [checkArgs, checkArgs]
  refine ite_congr rfl (fun _ => rfl) fun _ => ?_
  refine List.flatMap_congr fun pair mem => ?_
  dsimp only
  rw [each pair.1 (List.of_mem_zip mem).1]

theorem typeCall_of_calls (placed : t.Placed) (distinct : t.SignaturesDistinct)
    (calls : t.Calls method receiver sig reader writer) (found : List Ty) (async : Bool) :
    t.typeCall receiver method found async loc =
      ⟨if async then .fut (t.typeOr reader sig.ret) else t.typeOr reader sig.ret,
        t.checkArgs ("method " ++ method) sig.params reader found loc, some sig⟩ := by
  simp only [typeCall, lookupMethod_of_calls placed distinct calls, List.nil_append]

theorem callee_typeCall_eq_some_iff (placed : t.Placed) (distinct : t.SignaturesDistinct)
    {found : List Ty} {async : Bool} :
    (t.typeCall receiver method found async loc).callee = some sig ↔
      ∃! modules : String × String, t.Calls method receiver sig modules.1 modules.2 := by
  constructor
  · intro called
    unfold typeCall at called
    split at called
    · cases called
    · rename_i reader _ lookup
      obtain rfl := Option.some.inj called
      obtain ⟨writer, calls⟩ := exists_calls_of_lookupMethod (congrArg Prod.fst lookup)
      refine ⟨(reader, writer), calls, fun modules calls' => ?_⟩
      obtain ⟨-, readers, writers⟩ := calls.unique placed distinct calls'
      exact Prod.ext readers writers
  · rintro ⟨⟨reader, writer⟩, calls, -⟩
    rw [typeCall_of_calls placed distinct calls]

end SymbolTable

/-! ## Calls in a checked model -/

namespace Model

open SymbolTable

variable {m : Model}

/-- In a model that is checked without errors, a call goes to the signature of its name that the
interface of the receiver, or one that this extends, declares, or that the class of the receiver
has, or else the first interface it implements that declares one.  The call's type and those that
its arguments must fit are read in the module of the receiver's interface or class.  They are those
of the module that declares the signature if and only if no name of an interface in the signature is
told apart by the two modules. -/
theorem typeExpr_call_iff (checked : (checkModel m).hasErrors = false) (cx : Context) (next : Nat)
    (target : Expr) (method : String) (args : List Expr) (async : Bool) (loc : Option Location) :
    let t := SymbolTable.ofModel m
    let receiver := t.typeExpr cx next target
    let found := (t.typeExprs cx (receiver.index + 1) args).1.map (·.type)
    let call := t.typeExpr cx next (.call target method args async loc)
    let typeIn (module : String) (sig : Signature) : Ty :=
      if async then .fut (t.typeOr module sig.ret) else t.typeOr module sig.ret
    let findingsIn (module : String) (sig : Signature) : Diagnostics :=
      t.checkArgs ("method " ++ method) sig.params module found loc
    (∀ sig, call.callee = some sig ↔
      ∃! modules : String × String, t.Calls method receiver.type sig modules.1 modules.2) ∧
    ∀ sig reader writer, t.Calls method receiver.type sig reader writer →
      call.type = typeIn reader sig ∧ call.findings = findingsIn reader sig ∧
      ((call.type = typeIn writer sig ∧
          t.paramTypes reader sig.params = t.paramTypes writer sig.params ∧
          call.findings = findingsIn writer sig) ↔
        ∀ name ∈ sig.interfaceNames, t.interfaces.MeansAlike reader writer name) := by
  intro t receiver found call typeIn findingsIn
  have placed : t.Placed := placed_ofModel m
  have distinct : t.SignaturesDistinct := (checkModel_clean_iff.1 checked).signatures
  have typing : call = typed (.call target method args async loc)
      (t.typeCall receiver.type method found async loc)
      (receiver :: (t.typeExprs cx (receiver.index + 1) args).1)
      (t.typeExprs cx (receiver.index + 1) args).2 := by
    simp only [call, receiver, found, typeExpr]
  refine ⟨fun sig => ?_, fun sig reader writer calls => ?_⟩
  · rw [typing]
    exact callee_typeCall_eq_some_iff placed distinct
  · have type : call.type = typeIn reader sig := by
      rw [typing, typeCall_of_calls placed distinct calls]
      rfl
    have findings : call.findings = findingsIn reader sig := by
      rw [typing, typeCall_of_calls placed distinct calls]
      rfl
    refine ⟨type, findings, ?_⟩
    rw [type, findings, ← signature_eq_iff]
    constructor
    · rintro ⟨type, params, -⟩
      refine ⟨?_, params⟩
      cases async with
      | true => exact Ty.fut.inj type
      | false => exact type
    · rintro ⟨ret, params⟩
      exact ⟨by simp only [typeIn, ret], params, checkArgs_congr params⟩

/-- A signature over an interface that two modules declare, and one over an interface that one
module only declares. -/
def echoSignature : Signature := ⟨"echo", .named "T", [⟨"x", .named "T", none⟩], none⟩

def viewSignature : Signature := ⟨"view", .named "V", [], none⟩

/-- The first module declares two signatures, the second inherits them and declares an interface of
the name that one of them is written over, and the third inherits them and declares none. -/
def inheritingModel : Model :=
  ⟨[⟨none, [
    ⟨"A", [.interface ⟨"T", [], [], none⟩, .interface ⟨"V", [], [], none⟩,
      .interface ⟨"Base", [], [echoSignature, viewSignature], none⟩], none⟩,
    ⟨"B", [.interface ⟨"T", [], [], none⟩, .interface ⟨"Sub", ["Base"], [], none⟩,
      .class { (default : ClassDecl) with name := "C" }], none⟩,
    ⟨"D", [.interface ⟨"Part", ["Base"], [], none⟩], none⟩]⟩]⟩

/-- A point in the class, with fields of interfaces of each module. -/
def inheritingContext : Context :=
  let field (name interface : String) : Binding := ⟨name, .field "B.C" name, .interface interface⟩
  ⟨⟨⟨0, 1, 2⟩, "B", "C", { (default : ClassDecl) with name := "C" }⟩,
    [field "t" "A.T", field "sub" "B.Sub", field "part" "D.Part"], none⟩

theorem typeExpr_call_iff_inheritingModel :
    let t := SymbolTable.ofModel inheritingModel
    let call := t.typeExpr inheritingContext 0 (.call (.field "sub" none) "view" [] false none)
    (checkModel inheritingModel).hasErrors = false ∧
      t.Calls "view" (.interface "B.Sub") viewSignature "B" "A" ∧
      call.callee = some viewSignature ∧ call.type = t.typeOr "A" viewSignature.ret ∧
      call.type = .interface "A.V" := by
  intro t call
  have checked : (checkModel inheritingModel).hasErrors = false := by decide +kernel
  have calls : t.Calls "view" (.interface "B.Sub") viewSignature "B" "A" := by
    have sub : (t.interfaces.resolve none "B.Sub").toOption =
        some ⟨⟨0, 1, 1⟩, "B", "Sub", ⟨"Sub", ["Base"], [], none⟩⟩ := by decide +kernel
    have base : t.parents ⟨⟨0, 1, 1⟩, "B", "Sub", ⟨"Sub", ["Base"], [], none⟩⟩ =
        [⟨⟨0, 0, 2⟩, "A", "Base", ⟨"Base", [], [echoSignature, viewSignature], none⟩⟩] := by
      decide +kernel
    have declared : viewSignature ∈ [echoSignature, viewSignature] := by decide
    have edge : t.Extends _ _ := base ▸ List.mem_singleton_self _
    exact .interface (eq_ok_of_toOption sub) (.single edge) declared rfl
  obtain ⟨-, reads⟩ :=
    typeExpr_call_iff checked inheritingContext 0 (.field "sub" none) "view" [] false none
  have alike : ∀ name ∈ viewSignature.interfaceNames, t.interfaces.MeansAlike "B" "A" name := by
    decide +kernel
  have type := ((reads viewSignature "B" "A" calls).2.2.2 alike).1
  have callee : call.callee = some viewSignature := by decide +kernel
  exact ⟨checked, calls, callee, type, type.trans (by decide +kernel)⟩

/-- In a model without errors, a call of an inherited signature over `A.T` is typed over `B.T` in
one module, so that an argument of type `A.T` is refused, and has no known type in another. -/
theorem typeExpr_call_inheritingModel :
    let t := SymbolTable.ofModel inheritingModel
    let call (receiver : String) :=
      t.typeExpr inheritingContext 0
        (.call (.field receiver none) "echo" [.field "t" none] false none)
    (checkModel inheritingModel).hasErrors = false ∧
      (∀ receiver ∈ ["sub", "part"], (call receiver).callee = some echoSignature) ∧
      (∃ base ∈ t.interfaces, base.module = "A" ∧ echoSignature ∈ base.decl.methods ∧
        ∀ name ∈ ["B.Sub", "D.Part"], ∃ i ∈ t.interfaces,
          i.qualifiedName = name ∧ t.parents i = [base]) ∧
      t.typeOr "A" echoSignature.ret = .interface "A.T" ∧
      (call "sub").type = .interface "B.T" ∧
      (call "sub").findings = [.errorAt .typeMismatch
        "argument x of method echo has type A.T, expected B.T" none] ∧
      (call "part").type = .unknown := by
  decide +kernel

end Model

end DeltaLang
