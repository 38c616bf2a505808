import DeltaLang.Proofs.Run.Fitting
import Mathlib.Data.List.Chain

/-!
# What calls go to

A call is checked against a signature: that of an interface, of the class of the receiver, or of the
version that calls `original(..)`.  What runs is another method, that of the class of the object or
an earlier version.  Type checking only asks that there is a method of the name.  So calls fit what
they go to if methods stand in for the signatures that they are called by: they take what these take
and return what these return.
-/

namespace DeltaLang

/-! ## Standing in for a signature -/

/-- What is of the signature may run where the other one is called; types are written in the
modules given. -/
structure Signature.StandsIn (t : SymbolTable) (own : Signature) (module : String)
    (called : Signature) (calledIn : String) : Prop where
  params : List.Forall₂ (fun ty ty' => t.isAssignable ty ty' = true)
    (t.paramTypes calledIn called.params) (t.paramTypes module own.params)
  ret : t.isAssignable (t.typeOr module own.ret) (t.typeOr calledIn called.ret) = true

instance (t : SymbolTable) (own : Signature) (module : String) (called : Signature)
    (calledIn : String) : Decidable (own.StandsIn t module called calledIn) :=
  decidable_of_iff (_ ∧ _) ⟨fun h => ⟨h.1, h.2⟩, fun h => ⟨h.params, h.ret⟩⟩

/-- The types in the signature are the same in both modules. -/
structure Signature.ReadsAlike (t : SymbolTable) (sig : Signature) (module module' : String) :
    Prop where
  params : t.paramTypes module sig.params = t.paramTypes module' sig.params
  ret : t.typeOr module sig.ret = t.typeOr module' sig.ret

instance (t : SymbolTable) (sig : Signature) (module module' : String) :
    Decidable (sig.ReadsAlike t module module') :=
  decidable_of_iff (_ ∧ _) ⟨fun h => ⟨h.1, h.2⟩, fun h => ⟨h.params, h.ret⟩⟩

/-- Methods stand in for the signatures that they are called by. -/
structure SymbolTable.Coherent (t : SymbolTable) : Prop where
  /-- A class implements the signatures of its interfaces as they are written there. -/
  methods : ∀ c ∈ t.classes, ∀ i ∈ t.implementedInterfaces c, ∀ sig ∈ i.decl.methods,
    ∀ m ∈ c.decl.method? sig.name, m.sig.StandsIn t c.module sig i.module
  /-- An earlier version stands in for the version that replaced it. -/
  versions : ∀ c ∈ t.classes, ∀ m ∈ c.decl.methods,
    m.versions.IsChain fun v older => older.sig.StandsIn t c.module v.sig c.module
  /-- What an interface inherits means the same in its module. -/
  inherited : ∀ i ∈ t.interfaces, ∀ j ∈ t.closure [i], ∀ sig ∈ j.decl.methods,
    sig.ReadsAlike t i.module j.module
  /-- Class parameters of one name are of one type. -/
  params : ∀ c ∈ t.classes, ∀ p ∈ c.decl.params, ∀ q ∈ c.decl.params, p.name = q.name →
    t.typeOr c.module p.type = t.typeOr c.module q.type

instance (t : SymbolTable) : Decidable t.Coherent :=
  decidable_of_iff (_ ∧ _ ∧ _ ∧ _) ⟨fun h => ⟨h.1, h.2.1, h.2.2.1, h.2.2.2⟩, fun h =>
    ⟨h.methods, h.versions, h.inherited, h.params⟩⟩

/-- All that is traversed is quiet, and if types matter, methods stand in for the signatures that
they are called by. -/
structure SymbolTable.Traversed (t : SymbolTable) (strict : Prop) : Prop where
  placed : t.Placed
  classes : ∀ c ∈ t.classes, t.QuietClass strict c
  interfaces : ∀ i ∈ t.interfaces, Quiet strict (t.walkInterface i)
  coherent : strict → t.Coherent

section

variable {t : SymbolTable} {strict : Prop} {classes : List (Entry ClassDecl)}
  {own called : Signature} {module calledIn : String}

theorem Signature.StandsIn.refl (t : SymbolTable) (own : Signature) (module : String) :
    own.StandsIn t module own module :=
  ⟨List.forall₂_same.2 fun _ _ => t.isAssignable_refl _, t.isAssignable_refl _⟩

/-- A signature may be called in any module where it reads the same. -/
theorem Signature.StandsIn.calledFrom {caller : String}
    (h : own.StandsIn t module called calledIn) (same : called.ReadsAlike t caller calledIn) :
    own.StandsIn t module called caller :=
  ⟨same.params ▸ h.params, same.ret ▸ h.ret⟩

/-- Arguments that fit what is called fit what stands in for it. -/
theorem Signature.StandsIn.takes (h : own.StandsIn t module called calledIn) (placed : t.Placed)
    {values : List Value} {args : List Ty}
    (fit : List.Forall₂ (Value.HasType t classes) values args)
    (assignable : List.Forall₂ (fun ty ty' => t.isAssignable ty ty' = true) args
      (t.paramTypes calledIn called.params))
    (calledKnown : ∀ ty ∈ t.paramTypes calledIn called.params, ty.known = true)
    (ownKnown : ∀ ty ∈ t.paramTypes module own.params, ty.known = true) :
    List.Forall₂ (Value.HasType t classes) values (t.paramTypes module own.params) := by
  have called := Value.HasType.all_of_isAssignable placed fit assignable calledKnown
  exact Value.HasType.all_of_isAssignable placed called h.params ownKnown

end

/-! ## Calls of methods -/

/-- The class has a method that stands in for a signature of known types. -/
structure SymbolTable.Answers (t : SymbolTable) (c : Entry ClassDecl) (method : String)
    (sig : Signature) (module : String) : Prop where
  own : ∃ m, c.decl.method? method = some m ∧ m.sig.StandsIn t c.module sig module
  params : ∀ ty ∈ t.paramTypes module sig.params, ty.known = true
  ret : (t.typeOr module sig.ret).known = true

namespace SymbolTable

variable {t : SymbolTable} {strict : Prop} {classes : List (Entry ClassDecl)}
  {c : Entry ClassDecl} {method : String} {loc : Option Location}

theorem Names.mem (named : t.Names c) : c ∈ t.classes := Namespace.mem_of_resolve_eq_ok named

/-- A class answers the calls of its interfaces. -/
theorem Traversed.answers_interface (traversed : t.Traversed strict) (h : strict)
    (mem : c ∈ t.classes) {i : Entry InterfaceDecl} (inModel : i ∈ t.interfaces)
    (implemented : i ∈ t.implementedInterfaces c) {sig : Signature}
    (found : t.findMethod? i method = some sig) : t.Answers c method sig i.module := by
  obtain ⟨j, reaches, declared⟩ := exists_of_mem_interfaceMethods (List.mem_of_find?_eq_some found)
  have named := List.find?_some found
  rw [beq_iff_eq] at named
  have inherited : j ∈ t.implementedInterfaces c :=
    mem_implementedInterfaces_of_reaches traversed.placed implemented reaches
  have reached : j ∈ t.closure [i] :=
    (mem_closure_iff traversed.placed fun k hk => List.mem_singleton.1 hk ▸ inModel).2
      ⟨i, List.mem_singleton_self i, reaches⟩
  have same := (traversed.coherent h).inherited i inModel j reached sig declared
  obtain ⟨params, ret⟩ := known_of_walkInterface h
    (traversed.interfaces j (reaches.mem_interfaces inModel)) declared
  have complete := (traversed.classes c mem).complete h j inherited sig declared
  obtain ⟨m, own⟩ := Option.isSome_iff_exists.1 complete
  have stands := (traversed.coherent h).methods c mem j inherited sig declared m own
  exact ⟨⟨m, named ▸ own, stands.calledFrom same⟩, same.params ▸ params, same.ret ▸ ret⟩

/-- A class answers the calls of its own methods. -/
theorem Traversed.answers_own (traversed : t.Traversed strict) (h : strict)
    (mem : c ∈ t.classes) {m : Method} (own : c.decl.method? method = some m) :
    t.Answers c method m.sig c.module := by
  have quiet := (traversed.classes c mem).versions m (List.mem_of_find?_eq_some own) m.toVersion
    List.mem_cons_self
  exact ⟨⟨m, own, .refl t m.sig c.module⟩, quiet.params h, quiet.ret h⟩

/-- What is called on an object is answered by its class. -/
theorem Traversed.answers (traversed : t.Traversed strict) (h : strict) {id : Nat} {ty : Ty}
    (here : classes[id]? = some c) (named : t.Names c)
    (typed : (Value.object id).HasType t classes ty)
    (tolerated : ∀ d ∈ (t.lookupMethod ty method loc).2, d.Tolerated strict) :
    ∃ sig module, t.lookupMethod ty method loc = (some (sig, module), []) ∧
      t.Answers c method sig module := by
  cases ty with
  | interface name =>
    obtain ⟨c', found, implements⟩ := Value.hasType_interface.1 typed
    obtain rfl := Option.some.inj (here.symm.trans found)
    obtain ⟨c', i, hc, hi, implemented⟩ := (classImplements_iff traversed.placed).1 implements
    obtain rfl := Except.ok.inj (named.symm.trans hc)
    cases sig : t.findMethod? i method with
    | none =>
      simp only [lookupMethod, hi, sig, List.forall_mem_singleton] at tolerated
      exact absurd tolerated (not_tolerated_of_strict h)
    | some sig' =>
      refine ⟨sig', i.module, by simp only [lookupMethod, hi, sig], ?_⟩
      exact traversed.answers_interface h named.mem (Namespace.mem_of_resolve_eq_ok hi) implemented
        sig
  | «class» name =>
    obtain ⟨c', found, rfl⟩ := Value.hasType_class.1 typed
    obtain rfl := Option.some.inj (here.symm.trans found)
    have resolved : t.classes.resolve none c.qualifiedName = .ok c := named
    cases own : c.decl.method? method with
    | some m =>
      refine ⟨m.sig, c.module, by simp [lookupMethod, resolved, own], ?_⟩
      exact traversed.answers_own h named.mem own
    | none =>
      cases inherited : (t.implementedInterfaces c).findSome? fun i =>
          i.decl.methods.find? (·.name == method) with
      | none =>
        simp only [lookupMethod, resolved, own, inherited, Option.map_none, Option.none_or,
          List.forall_mem_singleton] at tolerated
        exact absurd tolerated (not_tolerated_of_strict h)
      | some sig =>
        obtain ⟨i, implemented, declared⟩ := List.exists_of_findSome?_eq_some inherited
        -- a quiet class has its own method for what it implements
        have same := List.find?_some declared
        rw [beq_iff_eq] at same
        have complete := (traversed.classes c named.mem).complete h i implemented sig
          (List.mem_of_find?_eq_some declared)
        simp [same, own] at complete
  | _ => cases typed

/-- A call that is checked goes to a class that answers it. -/
theorem Traversed.answers_call (traversed : t.Traversed strict) (h : strict) {id : Nat} {ty : Ty}
    {args : List Ty} {async : Bool} (here : classes[id]? = some c) (named : t.Names c)
    (typed : (Value.object id).HasType t classes ty)
    (tolerated : ∀ d ∈ (t.typeCall ty method args async loc).findings, d.Tolerated strict) :
    ∃ sig module, t.Answers c method sig module ∧
      List.Forall₂ (fun ty ty' => t.isAssignable ty ty' = true) args
        (t.paramTypes module sig.params) ∧
      (t.typeCall ty method args async loc).type =
        if async then .fut (t.typeOr module sig.ret) else t.typeOr module sig.ret := by
  have lookup : ∀ d ∈ (t.lookupMethod ty method loc).2, d.Tolerated strict := by
    intro d mem
    refine tolerated d ?_
    unfold typeCall
    split
    · rename_i found
      rwa [found] at mem
    · rename_i found
      rw [found] at mem
      exact List.mem_append_left _ mem
  obtain ⟨sig, module, found, answers⟩ := traversed.answers h here named typed lookup
  simp only [typeCall, found, List.nil_append] at tolerated ⊢
  exact ⟨sig, module, answers, checkArgs_of_tolerated h tolerated, rfl⟩

/-! ## Earlier versions -/

variable {own m : Method}

/-- The version before the current one stands in for it. -/
theorem Traversed.standsIn_original (traversed : t.Traversed strict) (h : strict)
    (mem : c ∈ t.classes) (ofClass : own ∈ c.decl.methods) (origin : m.versions <:+ own.versions)
    {old : Method} (before : m.original? = some old) :
    old.sig.StandsIn t c.module m.sig c.module := by
  have chain := ((traversed.coherent h).versions c mem own ofClass).suffix origin
  obtain ⟨current, _ | ⟨v, older⟩⟩ := m <;> cases before
  exact (List.isChain_cons_cons.1 chain).1

theorem versions_original_suffix {old : Method} (before : m.original? = some old) :
    old.versions <:+ m.versions := by
  obtain ⟨current, _ | ⟨v, older⟩⟩ := m <;> cases before
  exact List.suffix_cons _ _

end SymbolTable

/-! ## Activations -/

/-- The activation fits, and what it yields is of the type. -/
def Activation.FitsAs (t : SymbolTable) (strict : Prop) (classes : List (Entry ClassDecl))
    (a : Activation) (ty : Ty) : Prop :=
  a.Fits t strict classes ∧
    (strict → ∀ classes' (v : Value), v.HasType t classes' (a.type t) → v.HasType t classes' ty)

section

variable {t : SymbolTable} {strict : Prop} {classes : List (Entry ClassDecl)} {fr : Frame}
  {cx : Context} {values : List Value} {args : List Ty} {loc : Option Location}

/-- A new object fits if its arguments do. -/
theorem Object.fits_create {c : Entry ClassDecl} (traversed : t.Traversed strict)
    (named : t.Names c) (count : values.length = c.decl.params.length)
    (fit : strict → List.Forall₂ (Value.HasType t classes) values
      (t.paramTypes c.module c.decl.params)) :
    (Object.create c values).Fits t strict classes := by
  have known := (traversed.classes c named.mem).known
  rw [SymbolTable.fst_bindFields] at known
  have params : Matches t strict classes (c.decl.params.map (t.classParamBinding c))
      ((c.decl.params.map (·.name)).zip values).reverse := by
    have alike : strict → ∀ b ∈ (c.decl.params.map (t.classParamBinding c)).reverse,
        ∀ b' ∈ (c.decl.params.map (t.classParamBinding c)).reverse, b.name = b'.name →
          b.type = b'.type := by
      intro h b mem b' mem' same
      obtain ⟨p, hp, rfl⟩ := List.mem_map.1 (List.mem_reverse.1 mem)
      obtain ⟨q, hq, rfl⟩ := List.mem_map.1 (List.mem_reverse.1 mem')
      exact (traversed.coherent h).params c named.mem p hp q hq same
    have last := (matches_params (t.classParamBinding c) (fun _ => rfl) (fun _ => rfl) count
      fit).reverse alike
    rwa [List.reverse_reverse] at last
  have fields : Matches t strict classes (c.decl.fields.map (t.fieldBinding c))
      (c.decl.fields.map fun f => (f.name, .null)) := by
    refine .of_forall₂ ?_
    rw [List.forall₂_map_left_iff, List.forall₂_map_right_iff, List.forall₂_same]
    intro f mem
    exact ⟨rfl, fun h => known h _ (List.mem_append_right _ (List.mem_map_of_mem mem))⟩
  refine ⟨named, ?_⟩
  rw [Object.create, SymbolTable.fst_bindFields]
  -- a field hides parameters of its name from values, and is hidden by them from bindings
  refine params.append_hiding fields fun b mem nv mem' h => ?_
  obtain ⟨f, -, rfl⟩ := List.mem_map.1 mem'
  exact known h b (List.mem_append_left _ mem)

namespace Run

/-- What is called is the method of the class of the receiver, if that takes the arguments. -/
theorem sound_dispatch {receiver : Nat} {method : String}
    (answered : strict → ∀ classes' c, classes <+: classes' → classes'[receiver]? = some c →
      t.Names c → ∃ m, c.decl.method? method = some m ∧
        List.Forall₂ (Value.HasType t classes') values (t.paramTypes c.module m.sig.params)) :
    Sound t strict classes (dispatch receiver method values) fun classes' a =>
      a.Fits t strict classes' ∧ ∃ c m, classes'[receiver]? = some c ∧ t.Names c ∧
        c.decl.method? method = some m ∧ a.type t = t.typeOr c.module m.sig.ret := by
  refine (sound_object receiver).bind fun o classes₁ grown ⟨here, fits⟩ => ?_
  have answered' := fun h => answered h classes₁ o.cls grown here fits.named
  split
  · rename_i m found
    refine sound_pure fun classes₂ grown' => ?_
    have here' := getElem?_of_grown here grown'
    refine ⟨⟨o.cls, here', rfl, ⟨m, List.mem_of_find?_eq_some found, List.suffix_rfl⟩, fun h => ?_⟩,
      o.cls, m, here', fits.named, found, rfl⟩
    obtain ⟨m', own, fit⟩ := answered' h
    obtain rfl := Option.some.inj (found.symm.trans own)
    exact Value.HasType.mono_all fit grown'
  · rename_i none
    refine sound_fault ⟨rfl, fun h => ?_⟩
    obtain ⟨m, own, -⟩ := answered' h
    cases none.symm.trans own

/-- A call that is checked goes to a method that fits. -/
theorem sound_call (traversed : t.Traversed strict) {receiver : Nat} {ty : Ty}
    {method : String} {async : Bool}
    (typed : strict → (Value.object receiver).HasType t classes ty)
    (fit : strict → List.Forall₂ (Value.HasType t classes) values args)
    (tolerated : ∀ d ∈ (t.typeCall ty method args async loc).findings, d.Tolerated strict) :
    Sound t strict classes (dispatch receiver method values) fun classes' a =>
      a.Fits t strict classes' ∧ (strict → ∀ classes'' (v : Value),
        v.HasType t classes'' (a.type t) → Value.HasType t classes''
          (if async then .future v else v) (t.typeCall ty method args async loc).type) := by
  have callee := fun h {classes'} {c : Entry ClassDecl} (grown : classes <+: classes') here named =>
    traversed.answers_call (c := c) h here named ((typed h).mono grown) tolerated
  refine (sound_dispatch fun h classes' c grown here named => ?_).mono
    fun a classes' grown ⟨fits, c, m, here, named, found, type⟩ =>
      ⟨fits, fun h classes'' v hv => ?_⟩
  · obtain ⟨sig, module, answers, assignable, -⟩ := callee h grown here named
    obtain ⟨m, own, stands⟩ := answers.own
    have known := ((traversed.classes c named.mem).versions m (List.mem_of_find?_eq_some own)
      m.toVersion List.mem_cons_self).params h
    have taken := stands.takes traversed.placed (fit h) assignable answers.params known
    exact ⟨m, own, Value.HasType.mono_all taken grown⟩
  · obtain ⟨sig, module, answers, -, callType⟩ := callee h grown here named
    obtain ⟨m', own, stands⟩ := answers.own
    obtain rfl := Option.some.inj (found.symm.trans own)
    rw [type] at hv
    have returned := hv.of_isAssignable traversed.placed stands.ret answers.ret
    rw [callType]
    cases async <;> exact returned

/-- A class that is checked may be created. -/
theorem sound_classNamed (traversed : t.Traversed strict) {cls : String}
    (fits : fr.Fits t strict classes cx)
    (fit : strict → List.Forall₂ (Value.HasType t classes) values args)
    (tolerated : ∀ d ∈ (t.typeNew cx.module cls args loc).findings, d.Tolerated strict) :
    Sound t strict classes (ofExcept (t.classNamed (some fr.module) cls)) fun classes' c =>
      (Activation.creation c values).FitsAs t strict classes'
        (t.typeNew cx.module cls args loc).type := by
  obtain ⟨c, found, type, tolerated⟩ := SymbolTable.exists_of_typeNew tolerated
  have named : t.Names c := Namespace.resolve_qualifiedName found none
  have resolved : t.classNamed (some fr.module) cls = .ok c := by
    rw [fits.module, SymbolTable.classNamed, found]
  rw [resolved, type]
  refine sound_pure fun classes' grown => ⟨⟨named, fun h => ?_⟩, fun _ _ _ typed => typed⟩
  have known := (traversed.classes c named.mem).known_params h
  have assignable := SymbolTable.checkArgs_of_tolerated h tolerated
  have taken := Value.HasType.all_of_isAssignable traversed.placed (fit h) assignable known
  exact Value.HasType.mono_all taken grown

/-- The version before the one that runs fits where `original(..)` is checked. -/
theorem sound_original (traversed : t.Traversed strict) (fits : fr.Fits t strict classes cx)
    (named : t.Names cx.cls) (fit : strict → List.Forall₂ (Value.HasType t classes) values args)
    (tolerated : ∀ d ∈ (t.typeOriginal cx args loc).findings, d.Tolerated strict) :
    Sound t strict classes (ofExcept (fr.original values)) fun classes' a =>
      a.FitsAs t strict classes' (t.typeOriginal cx args loc).type := by
  have outside {method : Option String} :
      (Stop.fault (.noOriginal method)).Harmless strict := ⟨rfl, fun _ => rfl⟩
  cases running : fr.method with
  | none =>
    simp only [Frame.original, running]
    exact sound_throw outside
  | some m =>
    cases before : m.original? with
    | none =>
      simp only [Frame.original, running, before]
      exact sound_throw outside
    | some old =>
      simp only [Frame.original, running, before]
      have version : cx.version? = some m.toVersion := by rw [← fits.version, running]; rfl
      obtain ⟨own, ofClass, origin⟩ := fits.origin m running
      have older := (SymbolTable.versions_original_suffix before).trans origin
      have quiet := fun v mem =>
        (traversed.classes cx.cls named.mem).versions own ofClass v mem
      have current := quiet m.toVersion (origin.mem List.mem_cons_self)
      have stands := fun h => traversed.standsIn_original h named.mem ofClass origin before
      simp only [SymbolTable.typeOriginal, version] at tolerated ⊢
      refine sound_pure fun classes' grown => ⟨⟨cx.cls, getElem?_of_grown fits.this grown,
        fits.module, ⟨own, ofClass, older⟩, fun h => ?_⟩, fun h classes'' v hv => ?_⟩
      · have assignable := SymbolTable.checkArgs_of_tolerated h tolerated
        have known := (quiet old.toVersion (older.mem List.mem_cons_self)).params h
        have taken := (stands h).takes traversed.placed (fit h) assignable (current.params h) known
        exact fits.module ▸ Value.HasType.mono_all taken grown
      · have returned : v.HasType t classes'' (t.typeOr cx.module old.sig.ret) := fits.module ▸ hv
        exact returned.of_isAssignable traversed.placed (stands h).ret (current.ret h)

end Run

end

end DeltaLang
