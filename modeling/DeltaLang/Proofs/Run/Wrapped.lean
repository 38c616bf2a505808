import DeltaLang.Proofs.Program.Entries
import DeltaLang.Proofs.Run.Budget
import DeltaLang.Proofs.Trait.Methods

/-!
# Versions that only call the original

A delta may put a version in front of a method that passes its parameters on to `original(..)` and
returns what that yields.  Each call of the method then takes two more steps and one more level of
activations, and nothing else is different: with budget and depth enough, operations have the same
outcomes and leave the same objects behind.
-/

namespace DeltaLang

/-! ## Versions that pass their parameters on -/

/-- The version is of the name and the parameters of the method, and returns what the version before
it yields for the values of the parameters. -/
structure Version.PassesOn (v : Version) (m : Method) : Prop where
  name : v.name = m.name
  params : v.sig.params.map (·.name) = m.sig.params.map (·.name)
  body : ∃ args loc place, v.body = [.ret (.original args loc) place] ∧
    List.Forall₂ (fun name arg => ∃ loc, arg = .var name loc) (m.sig.params.map (·.name)) args

/-- The method itself, or the method with a version in front that passes its parameters on. -/
inductive Method.MaybeWrapped (m : Method) : Method → Prop
  | same : m.MaybeWrapped m
  | wrapped {v : Version} (passes : v.PassesOn m) :
    m.MaybeWrapped ((Method.ofVersion v).replacing m)

/-- Modifying the first method of a name changes what is found under that name only. -/
theorem find?_modifyFirst {m old : Method} {ms : List Method}
    (found : ms.find? (·.name == m.name) = some old) (name : String) :
    (ClassEdit.modifyFirst m ms).find? (·.name == name) =
      if m.name = name then some (m.replacing old) else ms.find? (·.name == name) := by
  induction ms with
  | nil => cases found
  | cons first ms ih =>
    rw [MethodSet.modifyFirst_cons]
    rw [List.find?_cons] at found ⊢
    cases here : first.name == m.name with
    | true =>
      rw [here] at found
      obtain rfl := Option.some.inj found
      have named : first.name = m.name := beq_iff_eq.1 here
      have renamed : (m.replacing first).name = m.name := rfl
      rw [if_pos named, List.find?_cons, renamed, named]
      by_cases same : m.name = name
      · simp only [same, beq_self_eq_true, if_true]
      · simp only [beq_false_of_ne same, if_neg same]
    | false =>
      rw [here] at found
      have other : first.name ≠ m.name := beq_eq_false_iff_ne.1 here
      rw [if_neg other, List.find?_cons, ih found]
      cases there : first.name == name with
      | true => exact (if_neg fun same => other ((beq_iff_eq.1 there).trans same.symm)).symm
      | false => rfl

/-! ## Values that are passed on -/

section

variable {names : List String} {args : List Value} {name : String}

/-- What the parameter of a name stands for, the last one if there are several. -/
def argumentOf (names : List String) (args : List Value) (name : String) : Value :=
  ((names.zip args).reverse.lookup name).getD .unit

theorem lookup_arguments (length : args.length = names.length) (mem : name ∈ names) :
    (names.zip args).reverse.lookup name = some (argumentOf names args name) := by
  have bound : ((names.zip args).reverse.lookup name).isSome = true := by
    rw [List.lookup_isSome_iff]
    rw [← List.map_fst_zip length.ge] at mem
    obtain ⟨nv, found, rfl⟩ := List.mem_map.1 mem
    exact ⟨nv, List.mem_reverse.2 found, beq_self_eq_true _⟩
  obtain ⟨v, found⟩ := Option.isSome_iff_exists.1 bound
  rw [argumentOf, found, Option.getD_some]

theorem lookup_arguments_of_not_mem (not : name ∉ names) :
    (names.zip args).reverse.lookup name = none := by
  rw [List.lookup_eq_none_iff]
  intro nv mem
  refine bne_iff_ne.2 fun same => not ?_
  exact same ▸ (List.of_mem_zip (List.mem_reverse.1 mem)).1

/-- The values that parameters have are arguments that give the parameters the same values. -/
theorem alike_arguments (length : args.length = names.length) :
    Scope.Alike (names.zip args).reverse
      (names.zip (names.map (argumentOf names args))).reverse := by
  intro name
  by_cases mem : name ∈ names
  · have pairs : (names.zip (names.map (argumentOf names args))).reverse =
        names.reverse.map fun n => (n, argumentOf names args n) := by
      rw [List.map_reverse, List.map_prod_left_eq_zip]
    rw [pairs, lookup_arguments length mem]
    exact lookup_map_of_mem (k := id) (List.mem_reverse.2 mem) fun _ _ same => same
  · rw [lookup_arguments_of_not_mem mem, lookup_arguments_of_not_mem mem]

end

section

open Run

variable {t : SymbolTable} {budget : Nat} {activate : Activation → Run Value} {fr : Frame}

theorem evalExprs_vars {names : List String} {args : List Expr} {value : String → Value}
    (vars : List.Forall₂ (fun name arg => ∃ loc, arg = .var name loc) names args)
    (bound : ∀ name ∈ names, fr.lookup name = some (value name)) :
    evalExprs t activate fr args = pure (names.map value) := by
  induction vars with
  | nil =>
    rw [evalExprs]
    rfl
  | cons var _ ih =>
    obtain ⟨loc, rfl⟩ := var
    rw [List.forall_mem_cons] at bound
    rw [evalExprs, evalExpr, evalVar, bound.1, ih bound.2]
    rfl

/-- Running a version that passes its parameters on takes a step and activates the version before
it. -/
theorem runBody_wrapped {v : Version} {m : Method} (passes : v.PassesOn m) (this : Nat)
    (module : String) {args : List Value} (count : args.length = m.sig.params.length) :
    runBody t budget activate this module ((Method.ofVersion v).replacing m) args =
      tick budget >>= fun _ => activate (.method this module m
        ((m.sig.params.map (·.name)).map (argumentOf (m.sig.params.map (·.name)) args))) := by
  obtain ⟨exprs, loc, place, body, vars⟩ := passes.body
  have length : v.sig.params.length = m.sig.params.length := by
    simpa using congrArg List.length passes.params
  let fr : Frame := ⟨this, module, some ((Method.ofVersion v).replacing m),
    [((v.sig.params.map (·.name)).zip args).reverse]⟩
  have bound : ∀ name ∈ m.sig.params.map (·.name),
      fr.enter.lookup name = some (argumentOf (m.sig.params.map (·.name)) args name) := by
    intro name mem
    have scopes : fr.enter.scopes.flatten = ((v.sig.params.map (·.name)).zip args).reverse :=
      List.append_nil _
    rw [Frame.lookup, scopes, passes.params]
    exact lookup_arguments (by rw [List.length_map, count]) mem
  have evaluated : evalExpr t activate fr.enter (.original exprs loc) =
      activate (.method this module m
        ((m.sig.params.map (·.name)).map (argumentOf (m.sig.params.map (·.name)) args))) := by
    rw [evalExpr, evalExprs_vars vars bound]
    rfl
  have block : execStmts t budget activate fr.enter v.body =
      tick budget >>= fun _ => evalExpr t activate fr.enter (.original exprs loc) >>= fun r =>
        pure (fr.enter, some r) := by
    rw [body]
    simp [execStmts, execStmt]
  have counted : checkCount ("method " ++ v.name) v.sig.params.length args = pure () := by
    rw [checkCount, if_pos (count.trans length.symm)]
  change (checkCount ("method " ++ v.name) v.sig.params.length args >>= fun _ =>
    withScope fr (fun fr => execStmts t budget activate fr v.body) >>= fun r =>
      pure (r.2.getD .unit)) = _
  rw [counted, withScope, block, evaluated]
  simp

end

/-! ## Runs of the changed program -/

/-- Whether the run stops because of its budget or its depth. -/
def Stop.isLimit (e : Stop) : Bool := e.isOutOfFuel || e == .tooDeep

/-- The second run is of the program whose target class has other methods, which are those that it
had or wrap them.  It has three steps left for each step left to the first. -/
def Pairing.wrapping (target : Entry ClassDecl) (methods : List Method)
    (wraps : ∀ name, Option.Rel Method.MaybeWrapped (target.decl.method? name)
      (methods.find? (·.name == name))) : Pairing where
  lost e := e.isLimit = true
  fuel n k := 3 * n ≤ k
  cls c :=
    if c.path = target.path ∧ c.decl = target.decl then
      { c with decl := { c.decl with methods := methods } }
    else c
  method := Method.MaybeWrapped
  lost_outOfFuel _ := rfl
  fuel_le h := by omega
  fuel_tick h := by omega
  module_cls c := by split <;> rfl
  name_cls c := by split <;> rfl
  params_cls c := by split <;> rfl
  fields_cls c := by split <;> rfl
  init_cls c := by split <;> rfl
  method?_cls c name := by
    split
    · rename_i here
      rw [here.2]
      exact wraps name
    · exact rel_self (fun _ => .same) (c.decl.method? name)
  method_refl _ := .same

namespace Pairing

open Run

variable {target : Entry ClassDecl} {methods : List Method}
  {wraps : ∀ name, Option.Rel Method.MaybeWrapped (target.decl.method? name)
    (methods.find? (·.name == name))} {t t' : SymbolTable} {budget budget' : Nat}

/-- A call of the wrapped method follows the call of the method. -/
theorem follows_runMethod_wrapped {activate : Activation → Run Value}
    {depth : Nat} (tables : (wrapping target methods wraps).Tables t t')
    (within : (wrapping target methods wraps).FollowsAll activate
      (DeltaLang.activate t' budget' depth))
    {v : Version} {m : Method} (passes : v.PassesOn m) (this : Nat) (module : String)
    (args : List Value) {bound : Nat} :
    (wrapping target methods wraps).Follows bound (runMethod t budget activate this module m args)
      (runMethod t' budget' (DeltaLang.activate t' budget' (depth + 1)) this module
        ((Method.ofVersion v).replacing m) args) fun v v' => v' = v := by
  have params : v.sig.params.length = m.sig.params.length := by
    simpa using congrArg List.length passes.params
  by_cases count : args.length = m.sig.params.length
  · let passed := (m.sig.params.map (·.name)).map (argumentOf (m.sig.params.map (·.name)) args)
    have body (n : Nat) : (wrapping target methods wraps).Follows n
        (runBody t budget activate this module m args)
        (runBody t' budget' (DeltaLang.activate t' budget' depth) this module m passed)
        fun v v' => v' = v :=
      follows_runBody tables within this module m (by simp [count])
        (alike_arguments (by simp [count]))
    rw [runMethod_eq]
    refine follows_tick_of_run (fun n _ => body n) fun s' n fuel => ?_
    have enough : 3 * (n + 1) ≤ s'.fuel := fuel
    obtain ⟨k, fuel'⟩ : ∃ k, s'.fuel = k + 3 := ⟨s'.fuel - 3, by omega⟩
    have paid : 3 * n ≤ k := by omega
    refine ⟨k, paid, ?_⟩
    rw [runMethod_eq, run_bind, run_tick_succ fuel', runBody_wrapped passes this module count]
    dsimp only
    rw [run_bind, run_tick_succ rfl]
    change (runMethod t' budget' _ this module m passed).run _ = _
    rw [runMethod_eq, run_bind, run_tick_succ rfl]
  · have counted (n : Nat) : (wrapping target methods wraps).Follows n
        (checkCount ("method " ++ m.name) m.sig.params.length args)
        (checkCount ("method " ++ v.name) v.sig.params.length args) fun _ _ => False := by
      rw [checkCount, checkCount, if_neg count, if_neg (params ▸ count), passes.name, params]
      exact follows_fault _
    rw [runMethod_eq, runMethod_eq]
    exact follows_tick fun n _ => (counted n).bind fun _ _ => False.elim

/-- Activations follow those they take the place of, if these may be nested twice as deep. -/
theorem followsAll_wrapping (tables : (wrapping target methods wraps).Tables t t')
    {depth depth' : Nat} (deep : 2 * depth ≤ depth') :
    (wrapping target methods wraps).FollowsAll (activate t budget depth)
      (activate t' budget' depth') := by
  -- what is activated within has one level less, and two levels less if the method is wrapped
  induction depth generalizing depth' with
  | zero => exact fun _ _ _ _ => follows_lost rfl
  | succ depth ih =>
    obtain ⟨depth', rfl⟩ : ∃ n, depth' = n + 2 := ⟨depth' - 2, by omega⟩
    rintro bound a a' (⟨this, module, _ | passes, args⟩ | ⟨c, args⟩)
    · exact follows_runMethod tables (ih (by omega)) this module _ args
    · exact follows_runMethod_wrapped tables (ih (by omega)) passes this module args
    · exact follows_createObject tables (ih (by omega)) c args

end Pairing

/-! ## Deltas that wrap a method -/

theorem SymbolTable.modifyClass_of_plain (t : SymbolTable) (module delta cls : String)
    {c : ClassDecl} (plain : c.uses = []) (m : Method) (loc : Option Location) :
    (t.modifyClass module delta ⟨cls, [], [.modifyMethod m], loc⟩ c).1 =
      { c with methods := ClassEdit.modifyFirst m c.methods } := by
  have known : t.composedNames module c = none := by rw [composedNames, plain]; rfl
  simp [modifyClass, attempt, ClassEdit.refresh, known, ClassEdit.apply, ClassEdit.modifyMethod,
    ClassEdit.withMethods]

namespace Model

variable {m : Model} {module cls : String} {d : DeltaDecl} {loc : Option Location}
  {target : Entry ClassDecl}

/-- The model with a method of a class replaced as a delta does that modifies it. -/
def modifyMethod (m : Model) (target : Entry ClassDecl) (m' : Method) : Model :=
  m.modifyDecl target.path fun _ =>
    .class { target.decl with methods := ClassEdit.modifyFirst m' target.decl.methods }

/-- What a delta whose only operation modifies a method makes of a model whose class is composed. -/
theorem applyDelta_modifyMethod {m' : Method}
    (ops : d.ops = [.modifyClass ⟨cls, [], [.modifyMethod m'], loc⟩])
    (declared : target ∈ m.classEntries) (plain : target.decl.uses = [])
    (located : m.locate .class cls (d.uses.getD module) = .ok target.path) :
    (m.applyDelta module d).1 = m.modifyMethod target m' := by
  have entry := mem_entries_iff.1 (mem_classEntries_iff.1 declared)
  simp only at entry
  simp only [applyDelta, ops, List.foldl_cons, List.foldl_nil, applyOp, modifyClass, located, entry,
    SymbolTable.modifyClass_of_plain _ _ _ _ plain, modifyMethod]

/-- The classes of a model one of whose methods is wrapped. -/
theorem classEntries_wrapping (declared : target ∈ m.classEntries) {methods : List Method}
    (wraps : ∀ name, Option.Rel Method.MaybeWrapped (target.decl.method? name)
      (methods.find? (·.name == name))) :
    (m.modifyDecl target.path fun _ =>
        .class { target.decl with methods := methods }).classEntries =
      m.classEntries.map (Pairing.wrapping target methods wraps).cls := by
  rw [classEntries_modifyDecl declared]
  refine List.map_congr_left fun c mem => ?_
  dsimp only [Pairing.wrapping]
  by_cases here : c.path = target.path
  · obtain rfl := narrow_eq_of_path_eq mem declared here
    have named : c.name = c.decl.name := name_of_mem_entries (mem_classEntries_iff.1 mem)
    rw [if_pos rfl, if_pos ⟨rfl, rfl⟩, ← named]
  · rw [if_neg here, if_neg fun both => here both.1]

end Model

/-! ## Sessions -/

namespace Session

variable {m : Model} {target : Entry ClassDecl} {v : Version} {old : Method}
  {budget budget' depth depth' : Nat} {ops : List Operation}

/-- A version that passes its parameters on is put in front of a method.  Operations that do not
stop for their budget or depth have the same outcomes on the changed model, and leave objects with
the same fields and classes of the same names, if three times the budget and twice the depth are
left. -/
theorem performAll_modifyMethod_passesOn (declared : target ∈ m.classEntries)
    (found : target.decl.method? v.name = some old) (passes : v.PassesOn old)
    (ends : ∀ e, .error e ∈ ((start m budget depth).performAll ops).1 → e.isLimit = false)
    (enough : 3 * budget ≤ budget') (deep : 2 * depth ≤ depth') :
    let m' := m.modifyMethod target (.ofVersion v)
    ((start m' budget' depth').performAll ops).1 = ((start m budget depth).performAll ops).1 ∧
      ∀ id, ((start m' budget' depth').performAll ops).2.className? id =
          ((start m budget depth).performAll ops).2.className? id ∧
        ∀ field, ((start m' budget' depth').performAll ops).2.field? id field =
          ((start m budget depth).performAll ops).2.field? id field := by
  have related : ∀ name, Option.Rel Method.MaybeWrapped (target.decl.method? name)
      ((ClassEdit.modifyFirst (.ofVersion v) target.decl.methods).find? (·.name == name)) := by
    intro name
    have first : target.decl.methods.find? (·.name == (Method.ofVersion v).name) = some old := found
    rw [find?_modifyFirst first]
    split
    · rename_i named
      have here : target.decl.method? name = some old := named ▸ found
      rw [here]
      exact .some (.wrapped passes)
    · exact rel_self (fun _ => .same) _
  let p : Pairing := .wrapping target _ related
  intro m'
  have classes : m'.classEntries = m.classEntries.map p.cls :=
    Model.classEntries_wrapping declared related
  have tables : p.Tables (.ofModel m) (.ofModel m') := Pairing.tables_of_classes classes
  have paired : (start m budget depth).Paired p (start m' budget' depth') :=
    ⟨tables, Pairing.followsAll_wrapping tables deep, ⟨Array.map_empty.symm, enough⟩⟩
  obtain ⟨same, -, -, stores⟩ := paired.performAll ops fun e mem =>
    Bool.eq_false_iff.1 (ends e mem)
  refine ⟨same, fun id => ⟨?_, fun field => ?_⟩⟩
  · rw [className?, className?, stores.getElem? id, Option.map_map]
    exact congrArg (Option.map · _) (funext fun o => p.name_cls o.cls)
  · rw [Session.field?, Session.field?, stores.getElem? id, Option.bind_map]
    rfl

end Session

/-- A class with a method that calls itself. -/
def summationModel : Model := .ofDecls [("M",
  [.classOf "C" [] [] [.ofVersion ⟨.of "Int" "sum" [("Int", "n")],
    [.ite (.binary .gt (.var "n" none) (.int 0 none) none)
      [.ret (.binary .add (.var "n" none) (.send (.this none) "sum"
        [.binary .sub (.var "n" none) (.int 1 none) none]) none) none]
      (some [.ret (.int 0 none) none]) none]⟩]])]

/-- A version of the method that passes its parameter on. -/
def passingVersion : Version :=
  ⟨.of "Int" "sum" [("Int", "n")], [.ret (.original [.var "n" none] none) none]⟩

/-- The delta that puts the version in front of the method. -/
def passingDelta : DeltaDecl :=
  ⟨"D", none, [], [], none,
    [.modifyClass ⟨"C", [], [.modifyMethod (.ofVersion passingVersion)], none⟩], none⟩

/-- Each of the three calls that run the body takes two more steps where the method is wrapped; the
last call stops at its first step for the number of its arguments. -/
theorem Session.performAll_modifyMethod_passesOn_summationModel :
    let ops := [.instantiate "C" [], .call 0 "sum" [.int 2], .call 0 "sum" []]
    let s := (start summationModel 10 3).performAll ops
    let s' := (start (summationModel.applyDelta "M" passingDelta).1 30 6).performAll ops
    (s.1 = [.ok (.object 0), .ok (.int 3), .error (.fault (.argumentCount "method sum" 1 0))] ∧
      s.2.steps = 10 ∧ s'.2.steps = 16) ∧
      s'.1 = s.1 ∧ ∀ id, s'.2.className? id = s.2.className? id ∧
        ∀ field, s'.2.field? id field = s.2.field? id field := by
  intro ops s s'
  have results : s.1 =
      [.ok (.object 0), .ok (.int 3), .error (.fault (.argumentCount "method sum" 1 0))] := by
    decide +kernel
  obtain ⟨target, old, declared, composed, located, found, same⟩ : ∃ target old,
      target ∈ summationModel.classEntries ∧ target.decl.uses = [] ∧
      summationModel.locate .class "C" "M" = .ok target.path ∧
      target.decl.method? "sum" = some old ∧ old.sig = passingVersion.sig :=
    ⟨_, _, List.mem_cons_self, rfl, by decide +kernel, rfl, rfl⟩
  have passes : passingVersion.PassesOn old := by
    refine ⟨congrArg Signature.name same.symm, by rw [same], [.var "n" none], none, none, rfl, ?_⟩
    rw [same]
    exact .cons ⟨none, rfl⟩ .nil
  refine ⟨⟨results, by decide +kernel, by decide +kernel⟩, ?_⟩
  have ends : ∀ e, .error e ∈ s.1 → e.isLimit = false := fun e mem => by
    rw [results] at mem
    simp at mem
    rw [mem]
    rfl
  have modified : (summationModel.applyDelta "M" passingDelta).1 =
      summationModel.modifyMethod target (.ofVersion passingVersion) :=
    Model.applyDelta_modifyMethod rfl declared composed located
  have passed := performAll_modifyMethod_passesOn (v := passingVersion) declared found passes ends
    (by decide : 3 * 10 ≤ 30) (by decide : 2 * 3 ≤ 6)
  rw [← modified] at passed
  exact passed

end DeltaLang
