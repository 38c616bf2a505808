import DeltaLang.Proofs.Trait.Memo
import Mathlib.Data.List.Nodup
import Mathlib.Data.List.Perm.Subperm

/-!
# What trait expressions denote

An expression denotes a method set if the traits it refers to are not cyclic.  A resolution
without findings shows that the expression denotes its result, and once an expression denotes a
set, every resolution finds that set, whatever is known before.

Sets are known by qualified names, which have to tell traits apart.
-/

namespace DeltaLang

namespace SymbolTable

variable {t : SymbolTable}

/-! ## Which trait a name means -/

/-- The first trait of its module and name, which is the one that names can mean. -/
def IsFirst (t : SymbolTable) (e : Entry TraitDecl) : Prop :=
  t.traits.find? (fun e' => e'.name == e.name && e'.module == e.module) = some e

theorem IsFirst.mem {e : Entry TraitDecl} (h : t.IsFirst e) : e ∈ t.traits :=
  List.mem_of_find?_eq_some h

/-- Traits of one qualified name have the same module and name. -/
def DistinctKeys (t : SymbolTable) : Prop :=
  ∀ e ∈ t.traits, ∀ e' ∈ t.traits, e.qualifiedName = e'.qualifiedName →
    e.module = e'.module ∧ e.name = e'.name

theorem IsFirst.eq_of_key_eq (distinct : t.DistinctKeys) {e e' : Entry TraitDecl}
    (h : t.IsFirst e) (h' : t.IsFirst e') (key : e.qualifiedName = e'.qualifiedName) : e = e' := by
  obtain ⟨module, name⟩ := distinct e h.mem e' h'.mem key
  unfold IsFirst at h h'
  rw [module, name] at h
  exact Option.some.inj (h.symm.trans h')

theorem isFirst_of_resolve {frm : Option String} {name : String} {e : Entry TraitDecl}
    (h : t.traits.resolve frm name = .ok e) : t.IsFirst e :=
  Namespace.find?_of_resolve h

/-! ## Denotations -/

/-- The expression, written in a module, denotes the set, with declared traits nested so deep. -/
inductive Denotes (t : SymbolTable) : Nat → Option String → TraitExpr → MethodSet → Prop where
  | undeclared {module : Option String} {name : String} {loc : Option Location} {err : LookupError}
      (unknown : t.traits.resolve module name = .error err) :
      Denotes t 0 module (.ref name loc) .empty
  | declared {n : Nat} {module : Option String} {name : String} {loc : Option Location}
      {e : Entry TraitDecl} {s : MethodSet} (found : t.traits.resolve module name = .ok e)
      (body : Denotes t n (some e.module) e.decl.expr s) :
      Denotes t (n + 1) module (.ref name loc) s
  | set (module : Option String) (ms : List Method) :
      Denotes t 0 module (.set ms)
        (MethodSet.empty.insertAll "defined twice in one method set" ms).1
  | adds {k n : Nat} {module : Option String} {base extra : TraitExpr} {s s' : MethodSet}
      (first : Denotes t k module base s) (second : Denotes t n module extra s') :
      Denotes t (max k n) module (.adds base extra) (s.addAll s').1
  | modifies {k n : Nat} {module : Option String} {base extra : TraitExpr} {s s' : MethodSet}
      (first : Denotes t k module base s) (second : Denotes t n module extra s') :
      Denotes t (max k n) module (.modifies base extra) (s.modifyAll s')
  | removes {n : Nat} {module : Option String} {base : TraitExpr} {s : MethodSet}
      (first : Denotes t n module base s) (sigs : List Signature) :
      Denotes t n module (.removes base sigs) (s.removeAll sigs).1

/-- The expression of the trait denotes the set. -/
def TraitDenotes (t : SymbolTable) (n : Nat) (e : Entry TraitDecl) (s : MethodSet) : Prop :=
  t.Denotes n (some e.module) e.decl.expr s

theorem Denotes.unique {n n' : Nat} {module : Option String} {x : TraitExpr} {s s' : MethodSet}
    (h : t.Denotes n module x s) (h' : t.Denotes n' module x s') : n = n' ∧ s = s' := by
  induction h generalizing n' s' with
  | undeclared unknown =>
    cases h' with
    | undeclared _ => exact ⟨rfl, rfl⟩
    | declared found => cases unknown.symm.trans found
  | declared found _ ih =>
    cases h' with
    | undeclared unknown => cases found.symm.trans unknown
    | declared found' body' =>
      obtain rfl := Except.ok.inj (found.symm.trans found')
      obtain ⟨rfl, rfl⟩ := ih body'
      exact ⟨rfl, rfl⟩
  | set =>
    cases h'
    exact ⟨rfl, rfl⟩
  | adds _ _ ih ih' =>
    cases h' with
    | adds first second =>
      obtain ⟨rfl, rfl⟩ := ih first
      obtain ⟨rfl, rfl⟩ := ih' second
      exact ⟨rfl, rfl⟩
  | modifies _ _ ih ih' =>
    cases h' with
    | modifies first second =>
      obtain ⟨rfl, rfl⟩ := ih first
      obtain ⟨rfl, rfl⟩ := ih' second
      exact ⟨rfl, rfl⟩
  | removes _ sigs ih =>
    cases h' with
    | removes first =>
      obtain ⟨rfl, rfl⟩ := ih first
      exact ⟨rfl, rfl⟩

end SymbolTable

/-! ## Sound knowledge -/

namespace Resolver

variable {t : SymbolTable} {r : Resolver}

/-- What is known of a trait is what it denotes, and the traits being resolved are distinct ones
that are declared. -/
structure Sound (t : SymbolTable) (r : Resolver) : Prop where
  known : ∀ {e : Entry TraitDecl} {s : MethodSet}, t.IsFirst e →
    r.memo.lookup e.qualifiedName = some s → ∃ n, t.TraitDenotes n e s
  nodup : r.visiting.Nodup
  declared : r.visiting ⊆ t.traits.map Entry.qualifiedName

theorem sound_fresh (t : SymbolTable) : fresh.Sound t where
  known _ h := by cases h
  nodup := List.nodup_nil
  declared := List.nil_subset _

theorem Sound.length_le (h : r.Sound t) : r.visiting.length ≤ t.traits.length := by
  have le := (List.subperm_of_subset h.nodup h.declared).length_le
  rwa [List.length_map] at le

theorem Sound.enter (h : r.Sound t) {e : Entry TraitDecl} (first : t.IsFirst e)
    (new : e.qualifiedName ∉ r.visiting) :
    Sound t { r with visiting := r.visiting ++ [e.qualifiedName] } where
  known := h.known
  nodup := List.concat_eq_append ▸ h.nodup.concat new
  declared := List.append_subset.2 ⟨h.declared,
    List.cons_subset.2 ⟨List.mem_map_of_mem first.mem, List.nil_subset _⟩⟩

theorem Sound.leave (h : r.Sound t) (distinct : t.DistinctKeys) {body : Resolver}
    (sound : body.Sound t) {e : Entry TraitDecl} (first : t.IsFirst e) {n : Nat} {s : MethodSet}
    (denotes : t.TraitDenotes n e s) :
    Sound t ⟨(e.qualifiedName, s) :: body.memo, r.visiting⟩ where
  known {e' s'} first' known := by
    rw [List.lookup_cons] at known
    split at known
    · rename_i key
      obtain rfl := first'.eq_of_key_eq distinct first (beq_iff_eq.1 key)
      obtain rfl := Option.some.inj known
      exact ⟨n, denotes⟩
    · exact sound.known first' known
  nodup := h.nodup
  declared := h.declared

end Resolver

namespace SymbolTable

variable {t : SymbolTable} {module : Option String}

/-! ## A resolution without findings -/

theorem resolveExprWith_denotes {declared : Entry TraitDecl → Resolver → Resolved}
    {P : Resolver → Prop}
    (step : ∀ e, t.IsFirst e → ∀ r, P r → (declared e r).findings = [] →
      (∃ n, t.TraitDenotes n e (declared e r).set) ∧ P (declared e r).resolver)
    {x : TraitExpr} {r : Resolver} (h : P r)
    (clean : (t.resolveExprWith declared module x r).findings = []) :
    (∃ n, t.Denotes n module x (t.resolveExprWith declared module x r).set) ∧
      P (t.resolveExprWith declared module x r).resolver := by
  induction x generalizing r with
  | ref name loc =>
    rw [resolveExprWith] at clean ⊢
    cases found : t.traits.resolve module name with
    | ok e =>
      rw [found] at clean
      obtain ⟨⟨n, denotes⟩, kept⟩ := step e (isFirst_of_resolve found) r h clean
      exact ⟨⟨n + 1, .declared found denotes⟩, kept⟩
    | error err =>
      rw [found] at clean
      cases clean
  | set ms => exact ⟨⟨0, .set module ms⟩, h⟩
  | adds base extra ihBase ihExtra =>
    obtain ⟨clean, -⟩ := List.append_eq_nil_iff.1 clean
    obtain ⟨cleanBase, cleanExtra⟩ := List.append_eq_nil_iff.1 clean
    obtain ⟨⟨k, first⟩, kept⟩ := ihBase h cleanBase
    obtain ⟨⟨n, second⟩, kept⟩ := ihExtra kept cleanExtra
    exact ⟨⟨max k n, .adds first second⟩, kept⟩
  | modifies base extra ihBase ihExtra =>
    obtain ⟨cleanBase, cleanExtra⟩ := List.append_eq_nil_iff.1 clean
    obtain ⟨⟨k, first⟩, kept⟩ := ihBase h cleanBase
    obtain ⟨⟨n, second⟩, kept⟩ := ihExtra kept cleanExtra
    exact ⟨⟨max k n, .modifies first second⟩, kept⟩
  | removes base sigs ih =>
    obtain ⟨clean, -⟩ := List.append_eq_nil_iff.1 clean
    obtain ⟨⟨n, first⟩, kept⟩ := ih h clean
    exact ⟨⟨n, .removes first sigs⟩, kept⟩

/-- A trait resolved without findings denotes the set found. -/
theorem resolveDeclared_denotes (distinct : t.DistinctKeys) {depth : Nat} {e : Entry TraitDecl}
    (first : t.IsFirst e) {r : Resolver} (sound : r.Sound t)
    (room : t.traits.length < depth + r.visiting.length)
    (clean : (t.resolveDeclared depth e r).findings = []) :
    (∃ n, t.TraitDenotes n e (t.resolveDeclared depth e r).set) ∧
      (t.resolveDeclared depth e r).resolver.Sound t := by
  induction depth generalizing e r with
  | zero =>
    have le := sound.length_le
    omega
  | succ depth ih =>
    rw [resolveDeclared] at clean ⊢
    by_cases entered : e.qualifiedName ∈ r.visiting
    · simp only [entered, if_true] at clean
      cases clean
    · simp only [entered, if_false] at clean ⊢
      cases known : r.memo.lookup e.qualifiedName with
      | some s => exact ⟨sound.known first known, sound⟩
      | none =>
        simp only [known] at clean ⊢
        obtain ⟨⟨n, denotes⟩, body, -⟩ := resolveExprWith_denotes
          (P := fun r => r.Sound t ∧ t.traits.length < depth + r.visiting.length)
          (fun e' first' r' h clean' => by
            obtain ⟨denotes, sound'⟩ := ih first' h.1 h.2 clean'
            refine ⟨denotes, sound', ?_⟩
            rw [(t.resolveDeclared_extends depth e' r').visiting]
            exact h.2)
          ⟨sound.enter first entered, by simp; omega⟩ clean
        exact ⟨⟨n, denotes⟩, sound.leave distinct body first denotes⟩

/-! ## A resolution of what denotes a set -/

/-- The traits being resolved nest at least so deep. -/
def Above (t : SymbolTable) (n : Nat) (visiting : List String) : Prop :=
  ∀ {e : Entry TraitDecl}, t.IsFirst e → e.qualifiedName ∈ visiting →
    ∀ {k : Nat} {s : MethodSet}, t.TraitDenotes k e s → n ≤ k

theorem Above.mono {k n : Nat} {visiting : List String} (h : t.Above n visiting) (le : k ≤ n) :
    t.Above k visiting := fun first mem _ _ denotes => Nat.le_trans le (h first mem denotes)

/-- A trait that nests less deep than all those being resolved is none of them. -/
theorem Above.not_mem {n : Nat} {visiting : List String} (h : t.Above (n + 1) visiting)
    {e : Entry TraitDecl} (first : t.IsFirst e) {s : MethodSet} (denotes : t.TraitDenotes n e s) :
    e.qualifiedName ∉ visiting := fun mem => absurd (h first mem denotes) (by omega)

theorem Above.enter {n : Nat} {visiting : List String} (h : t.Above (n + 1) visiting)
    (distinct : t.DistinctKeys) {e : Entry TraitDecl} (first : t.IsFirst e) {s : MethodSet}
    (denotes : t.TraitDenotes n e s) : t.Above n (visiting ++ [e.qualifiedName]) := by
  intro e' first' mem k s' denotes'
  rcases List.mem_append.1 mem with mem | mem
  · exact h.mono (Nat.le_succ n) first' mem denotes'
  · obtain rfl := first'.eq_of_key_eq distinct first (List.mem_singleton.1 mem)
    exact Nat.le_of_eq (denotes.unique denotes').1

/-- Resolving an expression finds the set it denotes. -/
theorem Denotes.set_resolveExprWith (distinct : t.DistinctKeys) {n : Nat} {x : TraitExpr}
    {s : MethodSet} (h : t.Denotes n module x s) (depth : Nat) {r : Resolver} (sound : r.Sound t)
    (room : t.traits.length < depth + r.visiting.length) (above : t.Above n r.visiting) :
    (t.resolveExprWith (t.resolveDeclared depth) module x r).set = s ∧
      (t.resolveExprWith (t.resolveDeclared depth) module x r).resolver.Sound t := by
  induction h generalizing depth r with
  | undeclared unknown =>
    rw [resolveExprWith, unknown]
    exact ⟨rfl, sound⟩
  | @declared n module name loc e s found body ih =>
    have first := isFirst_of_resolve found
    rw [resolveExprWith, found]
    obtain _ | depth := depth
    · have le := sound.length_le
      omega
    · have entered := above.not_mem first body
      simp only [resolveDeclared, entered, if_false]
      cases known : r.memo.lookup e.qualifiedName with
      | some s' =>
        obtain ⟨k, denotes⟩ := sound.known first known
        exact ⟨(denotes.unique body).2, sound⟩
      | none =>
        obtain ⟨rfl, inner⟩ := ih depth (sound.enter first entered)
          (by simp; omega) (above.enter distinct first body)
        exact ⟨rfl, sound.leave distinct inner first body⟩
  | set module ms => exact ⟨rfl, sound⟩
  | @adds k n module base extra s s' _ _ ih ih' =>
    have visiting := (t.resolveExprWith_extends depth module base r).visiting
    obtain ⟨rfl, sound⟩ := ih depth sound room (above.mono (Nat.le_max_left k n))
    obtain ⟨rfl, sound⟩ := ih' depth sound (visiting.symm ▸ room)
      (visiting.symm ▸ above.mono (Nat.le_max_right k n))
    exact ⟨rfl, sound⟩
  | @modifies k n module base extra s s' _ _ ih ih' =>
    have visiting := (t.resolveExprWith_extends depth module base r).visiting
    obtain ⟨rfl, sound⟩ := ih depth sound room (above.mono (Nat.le_max_left k n))
    obtain ⟨rfl, sound⟩ := ih' depth sound (visiting.symm ▸ room)
      (visiting.symm ▸ above.mono (Nat.le_max_right k n))
    exact ⟨rfl, sound⟩
  | removes _ sigs ih =>
    obtain ⟨rfl, sound⟩ := ih depth sound room above
    exact ⟨rfl, sound⟩

end SymbolTable

end DeltaLang
