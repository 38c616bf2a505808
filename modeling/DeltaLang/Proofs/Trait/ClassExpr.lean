import DeltaLang.Proofs.Trait.Methods

/-!
# A class is its trait expression

Composing a class resolves the trait expression that its clauses make of its own methods: the same
methods in the same order, with the same traits known afterwards.  The findings are the same too,
but for two things.  A method that the class itself repeats is reported in words of its own, and
composing also reports the methods that are left to call an original they do not have.
-/

namespace DeltaLang

/-! ## Methods that are left out -/

namespace MethodSet

/-- How a repeated method is reported makes no difference to the set. -/
theorem fst_insertAll (what what' : String) (s : MethodSet) (ms : List Method) :
    (s.insertAll what ms).1 = (s.insertAll what' ms).1 := by
  induction ms generalizing s with
  | nil => rfl
  | cons m ms ih =>
    rw [insertAll, insertAll]
    cases s.insert? m with
    | some s' => exact ih s'
    | none => exact ih s

/-- Exactly the methods are reported whose name is taken. -/
theorem snd_insertAll (what : String) {s : MethodSet} {seen : List String} (ms : List Method)
    (same : ∀ name, name ∈ seen ↔ name ∈ s.names) :
    (s.insertAll what ms).2 =
      (Check.repeated (fun m : Method => m.name) seen ms).map (duplicate what) := by
  induction ms generalizing s seen with
  | nil => rfl
  | cons m ms ih =>
    rw [insertAll, Check.repeated]
    by_cases taken : m.name ∈ s.names
    · rw [insert?_of_mem taken, if_pos ((same m.name).2 taken), List.map_cons]
      exact congrArg (duplicate what m :: ·) (ih same)
    · have inserted := insert?_of_not_mem taken
      rw [inserted, if_neg (mt (same m.name).1 taken)]
      refine ih fun name => ?_
      rw [names_of_insert? inserted, List.mem_cons, List.mem_append, List.mem_singleton, same,
        Or.comm]

end MethodSet

/-- The result with findings made before its own. -/
def Resolved.after (earlier : Diagnostics) (x : Resolved) : Resolved :=
  { x with findings := earlier ++ x.findings }

namespace SymbolTable

variable (t : SymbolTable) (module : String)

/-! ## Clauses and operators -/

/-- Resolving what a clause makes of an expression is applying the clause. -/
theorem resolveExpr_apply (e : TraitExpr) (u : TraitUse) (r : Resolver) :
    t.resolveExpr (some module) (u.apply e) r =
      t.applyUse module (t.resolveExpr (some module) e r) u := by
  cases u <;> rfl

theorem resolveExpr_foldl (us : List TraitUse) (e : TraitExpr) (r : Resolver) :
    t.resolveExpr (some module) (us.foldl TraitUse.apply e) r =
      us.foldl (t.applyUse module) (t.resolveExpr (some module) e r) := by
  induction us generalizing e with
  | nil => rfl
  | cons u us ih => rw [List.foldl_cons, List.foldl_cons, ih, resolveExpr_apply]

theorem applyUse_after (earlier : Diagnostics) (acc : Resolved) (u : TraitUse) :
    t.applyUse module (acc.after earlier) u = (t.applyUse module acc u).after earlier := by
  cases u <;> simp [applyUse, Resolved.after, Resolved.andThen, List.append_assoc]

theorem foldl_applyUse_after (earlier : Diagnostics) (us : List TraitUse) (acc : Resolved) :
    us.foldl (t.applyUse module) (acc.after earlier) =
      (us.foldl (t.applyUse module) acc).after earlier := by
  induction us generalizing acc with
  | nil => rfl
  | cons u us ih => rw [List.foldl_cons, List.foldl_cons, applyUse_after, ih]

/-! ## Composition -/

theorem kind_unboundOriginals {cls : String} {m : Method} {d : Diagnostic}
    (h : d ∈ unboundOriginals cls m) : d.kind = .noOriginalMethod := by
  obtain ⟨v, -, rfl⟩ := List.mem_map.1 h
  rfl

/-- Composing a class and resolving its trait expression yield the same methods in the same order
and leave the same known.  Apart from the words for a method that the class repeats, the findings
are the same in the same order, and composing adds those about missing originals at the end. -/
theorem composeClass_eq_resolveExpr (c : ClassDecl) (r : Resolver) :
    (t.composeClass module c r).set = (t.resolveExpr (some module) c.traitExpr r).set ∧
      (t.composeClass module c r).resolver =
        (t.resolveExpr (some module) c.traitExpr r).resolver ∧
      ∃ clauses originals : Diagnostics,
        (t.composeClass module c r).findings =
          (Check.repeated (fun m : Method => m.name) [] c.methods).map
              (MethodSet.duplicate ("defined twice in class " ++ c.name)) ++
            clauses ++ originals ∧
        (t.resolveExpr (some module) c.traitExpr r).findings =
          (Check.repeated (fun m : Method => m.name) [] c.methods).map
              (MethodSet.duplicate "defined twice in one method set") ++ clauses ∧
        originals = (t.composeClass module c r).set.methods.flatMap (unboundOriginals c.name) ∧
        ∀ d ∈ originals, d.kind = .noOriginalMethod := by
  -- What the clauses do to the own methods, before anything is reported about these.
  let own : Resolved := ⟨(MethodSet.empty.insertAll "" c.methods).1, [], r⟩
  have start (what : String) :
      ((⟨.empty, [], r⟩ : Resolved).andThen fun s => s.insertAll what c.methods) =
        own.after ((Check.repeated (fun m : Method => m.name) [] c.methods).map
          (MethodSet.duplicate what)) := by
    have reported : (MethodSet.empty.insertAll what c.methods).2 =
        (Check.repeated (fun m : Method => m.name) [] c.methods).map
          (MethodSet.duplicate what) :=
      MethodSet.snd_insertAll what c.methods fun name => Iff.rfl
    rw [Resolved.andThen, ← reported]
    simp only [own, Resolved.after, MethodSet.fst_insertAll "" what, List.nil_append,
      List.append_nil]
  have resolved : t.resolveExpr (some module) c.traitExpr r =
      (c.uses.foldl (t.applyUse module) own).after
        ((Check.repeated (fun m : Method => m.name) [] c.methods).map
          (MethodSet.duplicate "defined twice in one method set")) := by
    rw [ClassDecl.traitExpr, resolveExpr_foldl, ← foldl_applyUse_after, ← start]
    rfl
  have composed : t.composeClass module c r =
      ((c.uses.foldl (t.applyUse module) own).after
        ((Check.repeated (fun m : Method => m.name) [] c.methods).map
          (MethodSet.duplicate ("defined twice in class " ++ c.name)))).andThen fun s =>
        (s, s.methods.flatMap (unboundOriginals c.name)) := by
    rw [← foldl_applyUse_after, ← start]
    rfl
  rw [resolved, composed]
  refine ⟨rfl, rfl, _, _, rfl, rfl, rfl, fun d mem => ?_⟩
  obtain ⟨m, -, mem⟩ := List.mem_flatMap.1 mem
  exact kind_unboundOriginals mem

end SymbolTable

end DeltaLang
