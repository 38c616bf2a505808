import DeltaLang.Proofs.Names.Ranks
import DeltaLang.Proofs.Run.Dispatched
import DeltaLang.Proofs.Run.Finishing

/-!
# Creations that lead back to themselves

Initial values of fields are evaluated without a step, and may create objects in turn.  If no class
leads back to itself in this way, then every run ends: as many activations nest without a step as
there are classes, and one more, so that a depth proportional to the budget is enough.  A class that
creates an object of itself for a field nests activations without end, whatever the budget is.
-/

namespace DeltaLang

namespace SymbolTable

/-- Creating an object of the first class may create one of the second for the initial value of a
field. -/
def Initializes (t : SymbolTable) (c c' : Entry ClassDecl) : Prop :=
  ∃ f ∈ c.decl.fields, ∃ e ∈ f.value, ∃ name ∈ e.created,
    t.classNamed (some c.module) name = .ok c'

/-- No class leads back to itself by initial values of fields. -/
def CreationEnds (t : SymbolTable) : Prop :=
  ∀ c ∈ t.classes, ¬ Relation.TransGen t.Initializes c c

variable {t : SymbolTable}

theorem mem_of_classNamed {frm : Option String} {name : String} {c : Entry ClassDecl}
    (found : t.classNamed frm name = .ok c) : c ∈ t.classes := by
  unfold classNamed at found
  split at found <;> cases found
  exact Namespace.mem_of_resolve_eq_ok ‹_›

theorem Initializes.mem {c c' : Entry ClassDecl} (h : t.Initializes c c') : c' ∈ t.classes := by
  obtain ⟨f, -, e, -, name, -, found⟩ := h
  exact mem_of_classNamed found

/-- Creation ends if each class comes after those that its initial values create. -/
theorem creationEnds_of_rank (rank : Entry ClassDecl → Nat)
    (descends : ∀ c ∈ t.classes, ∀ f ∈ c.decl.fields, ∀ e ∈ f.value, ∀ name ∈ e.created,
      ∀ c' ∈ (t.classNamed (some c.module) name).toOption, rank c' < rank c) :
    t.CreationEnds := by
  have falls : ∀ c ∈ t.classes, ∀ c', t.Initializes c c' → rank c' < rank c := by
    rintro c mem c' ⟨f, hf, e, he, name, named, found⟩
    exact descends c mem f hf e he name named c' (by rw [found]; rfl)
  exact fun c mem => not_transGen_of_rank (fun _ _ _ h => h.mem) falls mem

end SymbolTable

/-! ## How deep activations nest -/

/-- How deep activations nest within one, given the steps left, a bound on how deep they nest
without a step, and ranks of the classes. -/
def Activation.nesting (rank : Entry ClassDecl → Nat) (width left : Nat) : Activation → Nat
  | .method .. => left * width + 1
  | .creation c _ => left * width + rank c + 2

section

open Run

variable {t : SymbolTable} {budget : Nat} {rank : Entry ClassDecl → Nat} {width : Nat}

/-- Activations nest less deep once a step is taken. -/
theorem nesting_le_of_lt (low : ∀ c ∈ t.classes, rank c + 2 ≤ width) (wide : 1 ≤ width)
    {a : Activation} (declared : a.Creates (· ∈ t.classes)) {n left : Nat} (less : n < left) :
    a.nesting rank width n ≤ left * width := by
  have step : n * width + width ≤ left * width := by
    rw [← Nat.succ_mul]
    exact Nat.mul_le_mul_right width less
  cases a with
  | method => exact (Nat.add_le_add_left wide _).trans step
  | creation c args =>
    have lowest := low c declared
    rw [Activation.nesting]
    omega

/-- Activations end if they may nest deep enough. -/
theorem finishes_activate (low : ∀ c ∈ t.classes, rank c + 2 ≤ width) (wide : 1 ≤ width)
    (descends : ∀ c c', t.Initializes c c' → rank c' < rank c) (depth : Nat) {left size : Nat}
    {a : Activation} (within : a.Within size) (declared : a.Creates (· ∈ t.classes))
    (deep : a.nesting rank width left ≤ depth) :
    Finishes size left (activate t budget depth a) fun size' v => v.Within size' := by
  induction depth generalizing left size a with
  | zero => cases a <;> simp [Activation.nesting] at deep
  | succ depth ih =>
    have fewer : left * width ≤ depth →
        ∀ n < left, FinishAll n (· ∈ t.classes) (activate t budget depth) :=
      fun deep n less size' a' within' declared' =>
        ih within' declared' ((nesting_le_of_lt low wide declared' less).trans deep)
    cases a with
    | method this module m args =>
      rw [Activation.nesting] at deep
      exact finishes_runMethod (fewer (by omega)) within
    | creation c args =>
      rw [Activation.nesting] at deep
      have initial : FinishAll left (t.Initializes c) (activate t budget depth) := by
        intro size' a' within' created
        cases a' with
        | method => exact ih within' trivial (by rw [Activation.nesting]; omega)
        | creation c' args' =>
          have lower := descends c c' created
          exact ih within' created.mem (by rw [Activation.nesting]; omega)
      exact finishes_createObject initial (fewer (by omega)) within
        fun f hf e value name named c' found => ⟨f, hf, e, value, name, named, found⟩

end

/-! ## Sessions -/

/-- What the operation is given refers to no object but those of a heap of that size. -/
def Operation.Within (size : Nat) : Operation → Prop
  | .instantiate _ args => ∀ v ∈ args, v.Within size
  | .call receiver _ args => receiver < size ∧ ∀ v ∈ args, v.Within size

instance (size : Nat) : (op : Operation) → Decidable (op.Within size)
  | .instantiate _ args => inferInstanceAs (Decidable (∀ v ∈ args, v.Within size))
  | .call receiver _ args =>
    inferInstanceAs (Decidable (receiver < size ∧ ∀ v ∈ args, v.Within size))

namespace Session

/-- Each operation refers to objects that are there when it is its turn. -/
def Refers : Session → List Operation → Prop
  | _, [] => True
  | s, op :: ops => op.Within s.store.heap.size ∧ Refers (s.perform op).2 ops

instance decidableRefers : (s : Session) → (ops : List Operation) → Decidable (s.Refers ops)
  | _, [] => inferInstanceAs (Decidable True)
  | s, op :: ops =>
    have := decidableRefers (s.perform op).2 ops
    inferInstanceAs (Decidable (op.Within s.store.heap.size ∧ _))

/-- Creations in the program do not lead back to themselves, the session is deep enough for its
budget, and its store is closed. -/
structure DeepEnough (s : Session) : Prop where
  ends : s.symbols.CreationEnds
  deep : (s.budget + 1) * (s.symbols.classes.length + 1) ≤ s.depth
  store : s.store.Within 0 s.budget

theorem finishes_request {t : SymbolTable} {size left : Nat} {op : Operation}
    (within : op.Within size) :
    Run.Finishes size left (request t op) fun size' a =>
      a.Within size' ∧ a.Creates (· ∈ t.classes) := by
  cases op with
  | instantiate cls args =>
    refine (Run.finishes_ofExcept (Q := fun _ c => c ∈ t.classes) fun c _ found _ =>
      SymbolTable.mem_of_classNamed found).bind fun c _ grown mem => ?_
    exact Run.finishes_pure fun _ grown' =>
      ⟨fun v hv => (within v hv).mono (grown.trans grown'), mem⟩
  | call receiver method args => exact finishes_dispatch within.1 method within.2 _

theorem DeepEnough.perform {s : Session} (h : s.DeepEnough) {op : Operation}
    (within : op.Within s.store.heap.size) :
    (s.perform op).2.DeepEnough ∧ ∀ e, (s.perform op).1 = .error e → e.isFault = true := by
  obtain ⟨rank, low, descends⟩ := exists_rank_of_acyclic h.ends
  have nests {a : Activation} (declared : a.Creates (· ∈ s.symbols.classes)) :
      a.nesting rank (s.symbols.classes.length + 1) s.budget ≤ s.depth :=
    (nesting_le_of_lt (fun c mem => Nat.succ_le_succ (low c mem)) (Nat.le_add_left 1 _) declared
      (Nat.lt_succ_self _)).trans h.deep
  have finishes : Run.Finishes s.store.heap.size s.budget
      (request s.symbols op >>= activate s.symbols s.budget s.depth)
      fun size' v => v.Within size' :=
    (finishes_request within).bind fun a _ _ ha =>
      finishes_activate (fun c mem => Nat.succ_le_succ (low c mem)) (Nat.le_add_left 1 _)
        (fun c c' h => descends c c' h.mem h) s.depth ha.1 ha.2 (nests ha.2)
  obtain ⟨store, stop⟩ := finishes.run ⟨h.store.closed, Nat.le_refl _, h.store.fuel⟩
  exact ⟨⟨h.ends, h.deep, store.mono (Nat.zero_le _) (Nat.le_refl _)⟩, stop⟩

theorem DeepEnough.performAll {s : Session} (h : s.DeepEnough) {ops : List Operation}
    (refers : s.Refers ops) : ∀ e, .error e ∈ (s.performAll ops).1 → e.isFault = true := by
  induction ops generalizing s with
  | nil => exact fun e mem => absurd mem List.not_mem_nil
  | cons op ops ih =>
    obtain ⟨deep, first⟩ := h.perform refers.1
    intro e mem
    rcases List.mem_cons.1 mem with mem | mem
    · exact first e mem.symm
    · exact ih deep refers.2 e mem

/-- Every operation yields a value or stops for a fault, whatever the budget is, if no class leads
back to itself by initial values of fields and the depth allows for creations of all classes at
every step. -/
theorem performAll_start_isFault {m : Model} (ends : (SymbolTable.ofModel m).CreationEnds)
    {budget depth : Nat} (deep : (budget + 1) * (m.classEntries.length + 1) ≤ depth)
    {ops : List Operation} (refers : (start m budget depth).Refers ops) :
    ∀ e, .error e ∈ ((start m budget depth).performAll ops).1 → ∃ flt, e = .fault flt := by
  have closed : (start m budget depth).store.Closed := fun o mem => by simp [start] at mem
  have enough : (start m budget depth).DeepEnough :=
    ⟨ends, deep, ⟨closed, Nat.zero_le _, Nat.le_refl _⟩⟩
  intro e mem
  have isFault := enough.performAll refers e mem
  cases e with
  | fault flt => exact ⟨flt, rfl⟩
  | _ => cases isFault

end Session

/-- A class with an object of another one in a field, and with a method whose loop does not end. -/
def spinningModel : Model := .ofDecls [("M",
  [.interfaceOf "I" [] [], .classOf "Node" [] ["I"] [],
    .class ⟨"Main", [], [⟨"node", .named "I", some (.make "Node" []), none⟩], none, none, [], [],
      [.ofVersion ⟨.of "Unit" "spin" [], [.loop (.bool true none) [.skip none] none]⟩,
        .ofVersion ⟨.of "Unit" "again" [], [.eval (.send (.this none) "again" []) none]⟩], none⟩])]

theorem Session.performAll_start_isFault_spinningModel :
    let ops := [.instantiate "Main" [], .call 0 "spin" [], .call 0 "again" []]
    (SymbolTable.ofModel spinningModel).CreationEnds ∧
      ((start spinningModel 7 24).performAll ops).1 = [.ok (.object 0),
        .error (.fault (.outOfFuel 7)), .error (.fault (.outOfFuel 7))] ∧
      ∀ e, .error e ∈ ((start spinningModel 7 24).performAll ops).1 → ∃ flt, e = .fault flt := by
  intro ops
  have ends : (SymbolTable.ofModel spinningModel).CreationEnds :=
    SymbolTable.creationEnds_of_rank (fun c => if c.name = "Main" then 1 else 0) (by decide +kernel)
  exact ⟨ends, by decide +kernel, performAll_start_isFault ends (by decide) (by decide +kernel)⟩

/-! ## A class that leads back to itself -/

/-- A class that has an object of itself in a field. -/
def chainModel : Model := .ofDecls [("M",
  [.interfaceOf "I" [] [],
    .class ⟨"C", [], [⟨"next", .named "I", some (.make "C" []), none⟩], none, none, ["I"], [], [],
      none⟩])]

/-- Creating an object that has one of its own class in a field nests activations too deep, and
takes no step. -/
theorem run_activate_creation_of_self {t : SymbolTable} {c : Entry ClassDecl} {f : FieldDecl}
    {name : String} (params : c.decl.params = []) (fields : c.decl.fields = [f])
    (value : f.value = some (.make name [])) (self : t.classNamed (some c.module) name = .ok c)
    (budget depth : Nat) (s : Store) :
    ∃ heap, (activate t budget depth (.creation c [])).run s =
      (.error .tooDeep, ⟨heap, s.fuel⟩) := by
  induction depth generalizing s with
  | zero => exact ⟨s.heap, rfl⟩
  | succ depth ih =>
    obtain ⟨heap, inner⟩ := ih { s with heap := s.heap.push (.create c []) }
    have again (fr : Frame) (module : fr.module = c.module) :
        evalExpr t (activate t budget depth) fr (.make name []) =
          activate t budget depth (.creation c []) := by
      rw [Expr.make, evalExpr, evalExprs, module, self]
      rfl
    have counted : checkCount ("class " ++ c.name) c.decl.params.length [] = pure () := by
      simp [checkCount, params]
    have initial (fr : Frame) (module : fr.module = c.module) :
        (initFields t (activate t budget depth) fr c.decl.fields).run
            { s with heap := s.heap.push (.create c []) } =
          (.error .tooDeep, ⟨heap, s.fuel⟩) := by
      rw [fields, initFields, value]
      dsimp only
      rw [again fr module]
      exact Run.run_bind_of_error inner
    refine ⟨heap, ?_⟩
    change (createObject t budget (activate t budget depth) c []).run s = _
    rw [createObject, counted, pure_bind, Run.run_bind]
    exact Run.run_bind_of_error (initial _ rfl)

/-- Nothing is found in the model, and yet creating an object never finishes: at every depth
activations nest deeper, and no step of the budget is taken. -/
theorem Session.perform_chainModel_tooDeep :
    checkModel chainModel = [] ∧
      (typeCheck chainModel ([] : Registry Unit)).1.toOption.map (·.findings) = some [] ∧
      ∀ budget depth, ((start chainModel budget depth).perform (.instantiate "C" [])).1 =
          .error .tooDeep ∧
        ((start chainModel budget depth).perform (.instantiate "C" [])).2.steps = 0 := by
  refine ⟨by decide +kernel, by decide +kernel, fun budget depth => ?_⟩
  obtain ⟨c, found, self, params, f, fields, value⟩ : ∃ c,
      (SymbolTable.ofModel chainModel).classNamed none "C" = .ok c ∧
      (SymbolTable.ofModel chainModel).classNamed (some c.module) "C" = .ok c ∧
      c.decl.params = [] ∧ ∃ f, c.decl.fields = [f] ∧ f.value = some (.make "C" []) :=
    ⟨_, rfl, rfl, rfl, _, rfl, rfl⟩
  obtain ⟨heap, nested⟩ :=
    run_activate_creation_of_self params fields value self budget depth ⟨#[], budget⟩
  have asked : request (SymbolTable.ofModel chainModel) (.instantiate "C" []) =
      pure (.creation c []) := by
    rw [request, found]
    rfl
  simp [perform, start, asked, nested, steps]

end DeltaLang
