import DeltaLang.Proofs.Run.Typed

/-!
# Bindings and their values

Type checking keeps lists of bindings where a run keeps lists of names with values.  The two match
if they give a meaning to the same names and, where types matter, the value that a name means fits
the binding that it means.  Only the first binding of a name counts on either side: what it hides
may be of another type, and may even be overwritten with it.
-/

namespace DeltaLang

/-- Where types matter, the value is of the type of the binding. -/
def Binding.Admits (t : SymbolTable) (strict : Prop) (classes : List (Entry ClassDecl))
    (b : Binding) (v : Value) : Prop :=
  strict → v.HasType t classes b.type

theorem Binding.Admits.mono {t : SymbolTable} {strict : Prop}
    {classes classes' : List (Entry ClassDecl)} {b : Binding} {v : Value}
    (h : b.Admits t strict classes v) (grown : classes <+: classes') :
    b.Admits t strict classes' v := fun types => (h types).mono grown

/-- The same names mean something in both, and the values fit the bindings. -/
def Matches (t : SymbolTable) (strict : Prop) (classes : List (Entry ClassDecl))
    (bs : List Binding) (vs : List (String × Value)) : Prop :=
  ∀ name, Option.Rel (Binding.Admits t strict classes) (bs.find? (·.name == name)) (vs.lookup name)

section

variable {α β γ : Type} {r : α → β → Prop} {a a' : Option α} {b b' : Option β}

theorem rel_or (h : Option.Rel r a b) (h' : Option.Rel r a' b') :
    Option.Rel r (a.or a') (b.or b') := by
  cases h with
  | some related => exact .some related
  | none => exact h'

theorem rel_self {r : α → α → Prop} (refl : ∀ x, r x x) (a : Option α) : Option.Rel r a a := by
  cases a with
  | none => exact .none
  | some x => exact .some (refl x)

theorem rel_map {r' : α → γ → Prop} {g : β → γ} (h : Option.Rel r a b)
    (imp : ∀ x y, a = some x → r x y → r' x (g y)) : Option.Rel r' a (b.map g) := by
  cases h with
  | some related => exact .some (imp _ _ rfl related)
  | none => exact .none

end

namespace Matches

variable {t : SymbolTable} {strict : Prop} {classes classes' : List (Entry ClassDecl)}
  {bs bs' : List Binding} {vs vs' : List (String × Value)} {b : Binding} {name : String} {v : Value}

theorem mono (h : Matches t strict classes bs vs) (grown : classes <+: classes') :
    Matches t strict classes' bs vs := fun name => by
  have related := rel_map (g := id) (h name) fun b v _ admits => admits.mono grown
  rwa [Option.map_id, id] at related

/-- A name that is bound has a value. -/
theorem exists_of_find? (h : Matches t strict classes bs vs)
    (bound : bs.find? (·.name == name) = some b) :
    ∃ v, vs.lookup name = some v ∧ b.Admits t strict classes v := by
  have related := h name
  rw [bound] at related
  generalize vs.lookup name = found at related
  cases related with
  | some admits => exact ⟨_, rfl, admits⟩

theorem lookup_eq_none (h : Matches t strict classes bs vs)
    (unbound : bs.find? (·.name == name) = none) : vs.lookup name = none := by
  have related := h name
  rw [unbound] at related
  generalize vs.lookup name = found at related
  cases related with
  | none => rfl

theorem nil : Matches t strict classes [] [] := fun _ => .none

theorem append (h : Matches t strict classes bs vs) (h' : Matches t strict classes bs' vs') :
    Matches t strict classes (bs ++ bs') (vs ++ vs') := fun name => by
  rw [List.find?_append, List.lookup_append]
  exact rel_or (h name) (h' name)

theorem cons (h : Matches t strict classes bs vs) (same : b.name = name)
    (admits : b.Admits t strict classes v) :
    Matches t strict classes (b :: bs) ((name, v) :: vs) := by
  have single : Matches t strict classes [b] [(name, v)] := fun n => by
    rw [List.find?_singleton, List.lookup_cons, same, Bool.beq_comm]
    cases n == name with
    | true => exact .some admits
    | false => exact .none
  exact single.append h

/-- Values may hide others whose bindings are not hidden, if these admit them. -/
theorem append_hiding (h : Matches t strict classes bs vs) (h' : Matches t strict classes bs' vs')
    (admits : ∀ b ∈ bs, ∀ nv ∈ vs', b.Admits t strict classes nv.2) :
    Matches t strict classes (bs ++ bs') (vs' ++ vs) := fun name => by
  rw [List.find?_append, List.lookup_append]
  have related' := h' name
  generalize found' : vs'.lookup name = value' at related'
  generalize bs'.find? (·.name == name) = bound' at related'
  cases related' with
  | none =>
    rw [Option.or_none, Option.none_or]
    exact h name
  | @some b' v' related' =>
    rw [Option.some_or]
    cases found : bs.find? (·.name == name) with
    | none => exact .some related'
    | some b =>
      obtain ⟨before, after, eq, -⟩ := List.lookup_eq_some_iff.1 found'
      have mem : (name, v') ∈ vs' := eq ▸ List.mem_append_right _ List.mem_cons_self
      exact .some (admits b (List.mem_of_find?_eq_some found) _ mem)

theorem of_forall₂
    (h : List.Forall₂ (fun b nv => b.name = nv.1 ∧ b.Admits t strict classes nv.2) bs vs) :
    Matches t strict classes bs vs := by
  induction h with
  | nil => exact nil
  | cons first _ ih => exact ih.cons first.1 first.2

/-- The order of bindings does not matter if those of one name are of one type. -/
theorem reverse (h : Matches t strict classes bs vs)
    (alike : strict → ∀ b ∈ bs, ∀ b' ∈ bs, b.name = b'.name → b.type = b'.type) :
    Matches t strict classes bs.reverse vs := fun name => by
  have related := h name
  generalize vs.lookup name = value at related
  generalize found : bs.find? (·.name == name) = bound at related
  cases related with
  | @some b v admits =>
    have mem := List.mem_of_find?_eq_some found
    have named := List.find?_some found
    have some : (bs.reverse.find? (·.name == name)).isSome = true :=
      List.find?_isSome.2 ⟨b, List.mem_reverse.2 mem, named⟩
    obtain ⟨b', found'⟩ := Option.isSome_iff_exists.1 some
    have mem' := List.mem_reverse.1 (List.mem_of_find?_eq_some found')
    have named' := List.find?_some found'
    rw [beq_iff_eq] at named named'
    rw [found']
    refine .some fun types => ?_
    exact alike types b mem b' mem' (named.trans named'.symm) ▸ admits types
  | none =>
    have unbound : bs.reverse.find? (·.name == name) = none := by
      simpa [List.find?_eq_none] using found
    rw [unbound]
    exact .none

/-! ## Assigning -/

theorem lookup_assignName (name : String) (v : Value) (vs : List (String × Value)) (n : String) :
    (assignName name v vs).lookup n = (vs.lookup n).map fun old => if n = name then v else old := by
  induction vs with
  | nil => rfl
  | cons entry vs ih =>
    obtain ⟨m, old⟩ := entry
    rw [assignName, List.map_cons, List.lookup_cons, List.lookup_cons]
    cases same : n == m with
    | true => simp [beq_iff_eq.1 same]
    | false => exact ih

/-- A name may be given a value that fits what the name is bound to. -/
theorem assign (h : Matches t strict classes bs vs)
    (admits : ∀ b, bs.find? (·.name == name) = some b → b.Admits t strict classes v) :
    Matches t strict classes bs (assignName name v vs) := fun n => by
  rw [lookup_assignName]
  refine rel_map (h n) fun b' old bound fits => ?_
  split
  · rename_i same
    exact admits b' (same ▸ bound)
  · exact fits

/-! ## Scopes -/

variable {bss : List (List Binding)} {vss : List Scope}

theorem flatten (h : List.Forall₂ (Matches t strict classes) bss vss) :
    Matches t strict classes bss.flatten vss.flatten := by
  induction h with
  | nil => exact nil
  | cons first _ ih => exact first.append ih

/-- A variable is assigned where it is bound. -/
theorem assignIn (h : List.Forall₂ (Matches t strict classes) bss vss)
    (admits : ∀ b, bss.flatten.find? (·.name == name) = some b → b.Admits t strict classes v)
    {vss' : List Scope} (assigned : Frame.assignIn name v vss = some vss') :
    List.Forall₂ (Matches t strict classes) bss vss' := by
  induction h generalizing vss' with
  | nil => cases assigned
  | @cons bs vs bss vss first rest ih =>
    rw [List.flatten_cons, List.find?_append] at admits
    rw [Frame.assignIn] at assigned
    split at assigned
    · obtain rfl := Option.some.inj assigned
      refine .cons (first.assign fun b bound => ?_) rest
      rw [bound, Option.some_or] at admits
      exact admits b rfl
    · rename_i unbound
      obtain ⟨vss', inner, rfl⟩ := Option.map_eq_some_iff.1 assigned
      refine .cons first (ih (fun b bound => admits b ?_) inner)
      cases found : bs.find? (·.name == name) with
      | none => exact bound
      | some b' =>
        obtain ⟨old, value, -⟩ := first.exists_of_find? found
        simp [value] at unbound

/-- A variable that cannot be assigned is not bound. -/
theorem find?_of_assignIn (h : List.Forall₂ (Matches t strict classes) bss vss)
    (unassigned : Frame.assignIn name v vss = none) :
    bss.flatten.find? (·.name == name) = none := by
  induction h with
  | nil => rfl
  | @cons bs vs bss vss first rest ih =>
    rw [Frame.assignIn] at unassigned
    split at unassigned
    · cases unassigned
    · rename_i unbound
      rw [List.flatten_cons, List.find?_append, ih (Option.map_eq_none_iff.1 unassigned),
        Option.or_none]
      by_contra bound
      obtain ⟨b, found⟩ := Option.ne_none_iff_exists'.1 bound
      obtain ⟨old, value, -⟩ := first.exists_of_find? found
      simp [value] at unbound

end Matches

/-! ## Arguments -/

section

variable {t : SymbolTable} {strict : Prop} {classes : List (Entry ClassDecl)} {module : String}
  {params : List Param} {args : List Value}

/-- The bindings of parameters and the arguments, one by one. -/
theorem forall₂_params {bind : Param → Binding} (named : ∀ p, (bind p).name = p.name)
    (typed : ∀ p, (bind p).type = t.typeOr module p.type) (count : args.length = params.length)
    (fit : strict → List.Forall₂ (Value.HasType t classes) args (t.paramTypes module params)) :
    List.Forall₂ (fun b nv => b.name = nv.1 ∧ b.Admits t strict classes nv.2) (params.map bind)
      ((params.map (·.name)).zip args) := by
  induction params generalizing args with
  | nil => exact .nil
  | cons p ps ih =>
    obtain ⟨v, vs, rfl⟩ := List.exists_cons_of_length_eq_add_one count
    refine .cons ⟨named p, fun h => typed p ▸ (List.forall₂_cons.1 (fit h)).1⟩ ?_
    exact ih (Nat.succ.inj count) fun h => (List.forall₂_cons.1 (fit h)).2

/-- What the parameters of a method mean in its body. -/
theorem matches_params (bind : Param → Binding) (named : ∀ p, (bind p).name = p.name)
    (typed : ∀ p, (bind p).type = t.typeOr module p.type) (count : args.length = params.length)
    (fit : strict → List.Forall₂ (Value.HasType t classes) args (t.paramTypes module params)) :
    Matches t strict classes (params.map bind).reverse
      ((params.map (·.name)).zip args).reverse :=
  .of_forall₂ (List.forall₂_reverse_iff.2 (forall₂_params named typed count fit))

end

end DeltaLang
