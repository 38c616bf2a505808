import DeltaLang.Proofs.Delta.Locality
import DeltaLang.Proofs.Trait.Memo

/-!
# Lists of deltas

A list of deltas that passes validation names deltas that are declared, and validation only depends
on the deltas of the model, places aside, which applying deltas keeps.  So the deltas of a list are
those of its parts, and what a list means does not change while deltas are applied.
-/

namespace DeltaLang

namespace Model

variable {t t' : SymbolTable} {m m' : Model} {names : List String} {es : List (Entry DeltaDecl)}

theorem exists_of_isOk {ε α : Type} {x : Except ε α} (h : x.isOk = true) : ∃ a, x = .ok a := by
  cases x with
  | ok a => exact ⟨a, rfl⟩
  | error err => cases h

/-! ## The deltas of a valid list -/

/-- Where nothing is reported each name means the delta found for it. -/
theorem listedDeltas_resolve {seen : List String} (clean : (listedDeltas t seen names).2 = []) :
    List.Forall₂ (fun name e => t.deltas.resolve none name = .ok e) names
      (listedDeltas t seen names).1 := by
  induction names generalizing seen with
  | nil => exact .nil
  | cons name names ih =>
    rw [listedDeltas] at clean ⊢
    by_cases repeated : name ∈ seen
    · simp only [if_pos repeated] at clean
      cases clean
    · simp only [if_neg repeated] at clean ⊢
      cases found : t.deltas.resolve none name with
      | ok e =>
        simp only [found] at clean ⊢
        exact .cons found (ih clean)
      | error err => cases err <;> simp [found] at clean

theorem listedDeltas_of_valid (valid : m.validateDeltas names = .ok es) :
    listedDeltas (.ofModel m) [] names = (es, []) := by
  rw [validateDeltas] at valid
  generalize listedDeltas (.ofModel m) [] names = listed at valid ⊢
  obtain ⟨found, ds⟩ := listed
  cases ds with
  | cons d ds => cases valid
  | nil =>
    simp only [List.isEmpty_nil, if_pos] at valid
    split at valid
    · cases valid
    · split at valid
      · rw [Except.ok.inj valid]
      · cases valid

theorem resolve_of_valid (valid : m.validateDeltas names = .ok es) :
    List.Forall₂ (fun name e => (SymbolTable.ofModel m).deltas.resolve none name = .ok e)
      names es := by
  have listed := listedDeltas_of_valid valid
  have resolve := listedDeltas_resolve (congrArg Prod.snd listed)
  rwa [listed] at resolve

theorem mem_deltaEntries_of_valid (valid : m.validateDeltas names = .ok es)
    {e : Entry DeltaDecl} (mem : e ∈ es) : e ∈ m.deltaEntries := by
  have resolve := resolve_of_valid valid
  clear valid
  induction resolve with
  | nil => cases mem
  | cons found _ ih =>
    rcases List.mem_cons.1 mem with rfl | mem
    · exact Namespace.mem_of_resolve_eq_ok found
    · exact ih mem

/-- The deltas of a list are those of its parts. -/
theorem eq_append_of_valid {names' : List String} {es' all : List (Entry DeltaDecl)}
    (valid : m.validateDeltas names = .ok es) (valid' : m.validateDeltas names' = .ok es')
    (validAll : m.validateDeltas (names ++ names') = .ok all) : all = es ++ es' :=
  List.right_unique_forall₂' (fun _ _ _ first second => Except.ok.inj (first.symm.trans second))
    (resolve_of_valid validAll) (List.rel_append (resolve_of_valid valid) (resolve_of_valid valid'))

theorem applyDeltas_append (m : Model) (es es' : List (Entry DeltaDecl)) :
    m.applyDeltas (es ++ es') = (m.applyDeltas es).bind fun m' => m'.applyDeltas es' := by
  induction es generalizing m with
  | nil => rfl
  | cons e es ih =>
    rw [List.cons_append, applyDeltas, applyDeltas]
    dsimp only
    split
    · exact ih _
    · rfl

/-! ## The same deltas -/

/-- Validation only depends on the deltas that are declared, places aside. -/
theorem listedDeltas_congr (same : t.deltas.map Entry.unplaced = t'.deltas.map Entry.unplaced)
    (seen names : List String) :
    (listedDeltas t seen names).1.map Entry.unplaced =
        (listedDeltas t' seen names).1.map Entry.unplaced ∧
      (listedDeltas t seen names).2 = (listedDeltas t' seen names).2 := by
  induction names generalizing seen with
  | nil => exact ⟨rfl, rfl⟩
  | cons name names ih =>
    obtain ⟨found, findings⟩ := ih (name :: seen)
    rw [listedDeltas, listedDeltas]
    dsimp only
    rw [findings]
    split
    · exact ⟨found, rfl⟩
    · obtain ⟨err, hf, hf'⟩ | ⟨e, e', hf, hf', same⟩ := Namespace.resolve_congr same none name
      · rw [hf, hf']
        cases err <;> exact ⟨found, rfl⟩
      · rw [hf, hf']
        exact ⟨congrArg₂ List.cons same found, rfl⟩

theorem validateDeltas_congr
    (same : m.deltaEntries.map Entry.unplaced = m'.deltaEntries.map Entry.unplaced)
    (valid : m.validateDeltas names = .ok es) :
    ∃ es', m'.validateDeltas names = .ok es' ∧ es.map Entry.unplaced = es'.map Entry.unplaced := by
  have listed := listedDeltas_of_valid valid
  have deltas : (SymbolTable.ofModel m).deltas.map Entry.unplaced =
      (SymbolTable.ofModel m').deltas.map Entry.unplaced := same
  obtain ⟨found, findings⟩ := listedDeltas_congr deltas [] names
  rw [listed] at found findings
  have listed' : listedDeltas (.ofModel m') [] names =
      ((listedDeltas (.ofModel m') [] names).1, []) := Prod.ext rfl findings.symm
  have decls : es.map (·.decl) = (listedDeltas (.ofModel m') [] names).1.map (·.decl) := by
    have decls := congrArg (List.map (·.decl)) found
    rwa [List.map_map, List.map_map] at decls
  refine ⟨_, ?_, found⟩
  rw [validateDeltas, listed] at valid
  rw [validateDeltas, listed']
  simp only [List.isEmpty_nil, if_pos] at valid ⊢
  rw [← decls]
  split at valid
  · cases valid
  · split at valid
    · rename_i kept
      rw [if_pos kept]
    · cases valid

/-! ## What deltas leave alone -/

section

variable {α : Type} {f : Decl → Option α} {kind : DeclKind}

/-- Deltas keep the declarations of a kind that they do not target, places aside. -/
theorem unplaced_entries_applyDeltas (ofKind : ∀ d, (f d).isSome → d.kind = kind)
    (leaves : ∀ e ∈ es, ∀ op ∈ e.decl.ops, op.target.1 ≠ kind)
    (applied : m.applyDeltas es = .ok m') :
    (m'.entries.filterMap (Entry.narrow f)).map Entry.unplaced =
      (m.entries.filterMap (Entry.narrow f)).map Entry.unplaced := by
  let p (d : Decl) : Bool := d.kind == kind
  have keeps : ∀ d : Decl, (f d).isSome → p d = true := fun d isSome =>
    beq_iff_eq.2 (ofKind d isSome)
  have untouched : m'.restrict p = m.restrict p := by
    refine restrict_applyDeltas (fun e mem op hop d target => ?_) applied
    refine beq_false_of_ne fun same => ?_
    exact leaves e mem op hop ((congrArg Prod.fst target).symm.trans same)
  rw [← unplaced_entries_restrict keeps, untouched, unplaced_entries_restrict keeps]

end

/-- Applying deltas keeps the deltas that are declared. -/
theorem deltaEntries_applyDeltas (applied : m.applyDeltas es = .ok m') :
    m'.deltaEntries.map Entry.unplaced = m.deltaEntries.map Entry.unplaced := by
  have ofKind : ∀ d : Decl, d.delta?.isSome → d.kind = .delta := fun d isDelta => by
    cases d <;> first | rfl | cases isDelta
  refine unplaced_entries_applyDeltas ofKind (fun e _ op _ isDelta => ?_) applied
  cases op <;> cases isDelta

end Model

end DeltaLang
