import DeltaLang.Proofs.Delta.Composition
import DeltaLang.Proofs.Trait.Recursion
import Mathlib.Algebra.Order.Group.Multiset
import Mathlib.Tactic.Abel

/-!
# Which resolution pays for which finding

A resolution makes the findings of its own expression, and those of each trait that it makes
known; a trait that was known before costs nothing.  Since a trait becomes known once, resolving
all traits of a model reports the findings of each exactly once, and composing its classes
afterwards only those that arise in the classes themselves.
-/

namespace DeltaLang

theorem Resolver.mem_keys_of_lookup {r : Resolver} {key : String} {s : MethodSet}
    (known : r.memo.lookup key = some s) : key ∈ r.memo.map Prod.fst := by
  obtain ⟨front, back, memo, -⟩ := List.lookup_eq_some_iff.1 known
  simp [memo]

namespace SymbolTable

variable {t : SymbolTable} {n depth fuel : Nat} {module : Option String} {x : TraitExpr}
  {s : MethodSet} {r r' r'' : Resolver} {es es' : List (Entry TraitDecl)}

/-! ## Becoming known -/

/-- On the way from what is known first to what is known then, exactly the listed traits become
known, each once, and none of them is among those being resolved all the while. -/
structure Learns (t : SymbolTable) (r r' : Resolver) (es : List (Entry TraitDecl)) : Prop where
  visiting : r'.visiting = r.visiting
  keys : r'.memo.map Prod.fst = es.map Entry.qualifiedName ++ r.memo.map Prod.fst
  first : ∀ e ∈ es, t.IsFirst e
  idle : ∀ e ∈ es, e.qualifiedName ∉ r.visiting
  new : ∀ e ∈ es, e.qualifiedName ∉ r.memo.map Prod.fst
  nodup : (es.map Entry.qualifiedName).Nodup

namespace Learns

theorem refl (r : Resolver) : t.Learns r r [] where
  visiting := rfl
  keys := rfl
  first := by simp
  idle := by simp
  new := by simp
  nodup := .nil

theorem trans (h : t.Learns r r' es) (h' : t.Learns r' r'' es') :
    t.Learns r r'' (es' ++ es) where
  visiting := h'.visiting.trans h.visiting
  keys := by rw [h'.keys, h.keys, List.map_append, List.append_assoc]
  first e mem := (List.mem_append.1 mem).elim (h'.first e) (h.first e)
  idle e mem := (List.mem_append.1 mem).elim (fun mem => h.visiting ▸ h'.idle e mem) (h.idle e)
  new e mem := (List.mem_append.1 mem).elim
    (fun mem old => h'.new e mem (h.keys ▸ List.mem_append_right _ old)) (h.new e)
  nodup := by
    rw [List.map_append, List.nodup_append]
    refine ⟨h'.nodup, h.nodup, ?_⟩
    rintro _ late _ early rfl
    obtain ⟨e, mem, key⟩ := List.mem_map.1 late
    rw [← key] at early
    exact h'.new e mem (h.keys ▸ List.mem_append_left _ early)

/-- A trait becomes known after those that become known while it is resolved. -/
theorem leave {e : Entry TraitDecl} (first : t.IsFirst e) (idle : e.qualifiedName ∉ r.visiting)
    (unknown : r.memo.lookup e.qualifiedName = none)
    (h : t.Learns { r with visiting := r.visiting ++ [e.qualifiedName] } r' es) (s : MethodSet) :
    t.Learns r ⟨(e.qualifiedName, s) :: r'.memo, r.visiting⟩ (e :: es) where
  visiting := rfl
  keys := congrArg (e.qualifiedName :: ·) h.keys
  first := List.forall_mem_cons.2 ⟨first, h.first⟩
  idle := List.forall_mem_cons.2
    ⟨idle, fun e' mem old => h.idle e' mem (List.mem_append_left _ old)⟩
  new := List.forall_mem_cons.2 ⟨fun old => by
    obtain ⟨entry, mem, key⟩ := List.mem_map.1 old
    simpa [key] using List.lookup_eq_none_iff.1 unknown entry mem, h.new⟩
  nodup := by
    refine List.nodup_cons.2 ⟨fun mem => ?_, h.nodup⟩
    obtain ⟨e', mem, key⟩ := List.mem_map.1 mem
    exact h.idle e' mem (List.mem_append_right _ (key ▸ List.mem_singleton_self _))

/-- What is known then and was not known first is among what became known. -/
theorem mem_of_known (h : t.Learns r r' es) {key : String} {s : MethodSet}
    (known : r'.memo.lookup key = some s) (unknown : key ∉ r.memo.map Prod.fst) :
    key ∈ es.map Entry.qualifiedName := by
  have mem := Resolver.mem_keys_of_lookup known
  rw [h.keys] at mem
  exact (List.mem_append.1 mem).resolve_right unknown

/-- Where all traits are known first, none becomes known. -/
theorem eq_nil_of_full (h : t.Learns r r' es) (full : r.Full t) : es = [] := by
  refine List.eq_nil_iff_forall_not_mem.2 fun e mem => ?_
  obtain ⟨s, known⟩ := Option.isSome_iff_exists.1 (full.known e (h.first e mem).mem)
  exact h.new e mem (Resolver.mem_keys_of_lookup known)

/-- Where nothing is known first and all traits are in the end, just these become known. -/
theorem perm_traits (h : t.Learns .fresh r es) (distinct : t.DistinctKeys)
    (first : ∀ e ∈ t.traits, t.IsFirst e) (nodup : t.traits.Nodup) (full : r.Full t) :
    es.Perm t.traits := by
  refine (List.perm_ext_iff_of_nodup h.nodup.of_map nodup).2 fun e =>
    ⟨fun mem => (h.first e mem).mem, fun mem => ?_⟩
  obtain ⟨s, known⟩ := Option.isSome_iff_exists.1 (full.known e mem)
  obtain ⟨e', mem', key⟩ := List.mem_map.1 (h.mem_of_known known List.not_mem_nil)
  rwa [← (h.first e' mem').eq_of_key_eq distinct (first e mem) key]

end Learns

/-! ## Paying for findings -/

/-- The findings made on the way are those given and, in any order, what each trait costs that
becomes known. -/
def Charged (t : SymbolTable) (cost : Entry TraitDecl → Diagnostics) (r : Resolver)
    (own ds : Diagnostics) (r' : Resolver) : Prop :=
  ∃ es, t.Learns r r' es ∧ ds.Perm (own ++ es.flatMap cost)

section

variable {cost : Entry TraitDecl → Diagnostics} {own own' ds ds' : Diagnostics}

/-- Where no trait becomes known, only the findings given are made. -/
theorem charged_refl (own : Diagnostics) : t.Charged cost r own own r :=
  ⟨[], .refl r, by rw [List.flatMap_nil, List.append_nil]⟩

/-- What is made in two steps is paid in two steps. -/
theorem Charged.trans (h : t.Charged cost r own ds r') (h' : t.Charged cost r' own' ds' r'') :
    t.Charged cost r (own ++ own') (ds ++ ds') r'' := by
  obtain ⟨es, learns, paid⟩ := h
  obtain ⟨es', learns', paid'⟩ := h'
  refine ⟨es' ++ es, learns.trans learns', (paid.append paid').trans ?_⟩
  rw [List.flatMap_append, ← Multiset.coe_eq_coe]
  simp only [← Multiset.coe_add]
  abel

/-- What the expression of a trait costs is paid by the trait becoming known. -/
theorem Charged.leave {e : Entry TraitDecl} (first : t.IsFirst e)
    (idle : e.qualifiedName ∉ r.visiting) (unknown : r.memo.lookup e.qualifiedName = none)
    (h : t.Charged cost { r with visiting := r.visiting ++ [e.qualifiedName] } (cost e) ds r')
    (s : MethodSet) :
    t.Charged cost r [] ds ⟨(e.qualifiedName, s) :: r'.memo, r.visiting⟩ := by
  obtain ⟨es, learns, paid⟩ := h
  exact ⟨e :: es, learns.leave first idle unknown s, paid⟩

/-- Where all traits are known, only the findings given are made. -/
theorem Charged.perm_of_full (h : t.Charged cost r own ds r') (full : r.Full t) :
    ds.Perm own := by
  obtain ⟨es, learns, paid⟩ := h
  rwa [learns.eq_nil_of_full full, List.flatMap_nil, List.append_nil] at paid

end

/-- The findings that arise at the operators and references of a trait's own expression. -/
def ownFindings (t : SymbolTable) (depth : Nat) (e : Entry TraitDecl) : Diagnostics :=
  (t.plainExpr (t.plainTrait depth) (some e.module) e.decl.expr).2

/-- The findings are those given and, in any order, those of the traits that become known. -/
def Pays (t : SymbolTable) (depth : Nat) (r : Resolver) (own : Diagnostics) (res : Resolved) :
    Prop :=
  ∃ es, t.Learns r res.resolver es ∧
    res.findings.Perm (own ++ es.flatMap (t.ownFindings depth))

/-- What is made in two steps is paid in two steps. -/
theorem Pays.trans {own own' : Diagnostics} {res res' : Resolved} (h : t.Pays depth r own res)
    (h' : t.Pays depth res.resolver own' res') (s : MethodSet) :
    t.Pays depth r (own ++ own') ⟨s, res.findings ++ res'.findings, res'.resolver⟩ :=
  Charged.trans h h'

/-- An operator adds its own findings. -/
theorem Pays.andThen {own : Diagnostics} {res : Resolved} (h : t.Pays depth r own res)
    (op : MethodSet → MethodSet × Diagnostics) :
    t.Pays depth r (own ++ (op res.set).2) (res.andThen op) := by
  obtain ⟨es, learns, paid⟩ := h
  refine ⟨es, learns, (paid.append_right _).trans ?_⟩
  rw [← Multiset.coe_eq_coe]
  simp only [← Multiset.coe_add]
  abel

/-- Resolving a declared trait pays nothing of its own: if it was not known, it is among those
that become known. -/
theorem pays_resolveDeclared {e : Entry TraitDecl} (first : t.IsFirst e)
    (idle : e.qualifiedName ∉ r.visiting)
    (body : t.Pays depth { r with visiting := r.visiting ++ [e.qualifiedName] }
      (t.ownFindings depth e) (t.resolveExprWith (t.resolveDeclared fuel) (some e.module)
        e.decl.expr { r with visiting := r.visiting ++ [e.qualifiedName] })) :
    t.Pays depth r [] (t.resolveDeclared (fuel + 1) e r) := by
  cases known : r.memo.lookup e.qualifiedName with
  | some s =>
    rw [resolveDeclared_of_known idle known]
    exact charged_refl []
  | none =>
    rw [resolveDeclared_of_unknown idle known]
    exact Charged.leave first idle known body _

/-- Resolving an expression pays for its own findings, and for those of the traits it makes
known. -/
theorem Denotes.pays (distinct : t.DistinctKeys) (h : t.Denotes n module x s) (deep : n ≤ depth)
    (fuel : Nat) (sound : r.Sound t) (room : t.traits.length < fuel + r.visiting.length)
    (above : t.Above n r.visiting) :
    t.Pays depth r (t.plainExpr (t.plainTrait depth) module x).2
      (t.resolveExprWith (t.resolveDeclared fuel) module x r) := by
  induction h generalizing fuel r with
  | undeclared unknown =>
    rw [resolveExprWith, plainExpr, unknown]
    exact charged_refl _
  | @declared n module name loc e s found body ih =>
    have first := isFirst_of_resolve found
    rw [resolveExprWith, plainExpr, found]
    obtain _ | fuel := fuel
    · have le := sound.length_le
      omega
    · have entered := above.not_mem first body
      exact pays_resolveDeclared first entered (ih (Nat.le_of_succ_le deep) fuel
        (sound.enter first entered) (by simp; omega) (above.enter distinct first body))
  | set module ms => exact charged_refl _
  | @adds k n module base extra s s' first second ih ih' =>
    have deep₁ := (Nat.le_max_left k n).trans deep
    have deep₂ := (Nat.le_max_right k n).trans deep
    have visiting := (t.resolveExprWith_extends fuel module base r).visiting
    have above₁ : t.Above k r.visiting := above.mono (Nat.le_max_left k n)
    have above₂ : t.Above n r.visiting := above.mono (Nat.le_max_right k n)
    rw [← visiting] at above₂
    obtain ⟨set₁, sound₁⟩ := first.set_resolveExprWith distinct fuel sound room above₁
    obtain ⟨set₂, -⟩ := second.set_resolveExprWith distinct fuel sound₁ (visiting.symm ▸ room)
      above₂
    have paid := ((ih deep₁ fuel sound room above₁).trans
      (ih' deep₂ fuel sound₁ (visiting.symm ▸ room) above₂) s).andThen fun s => s.addAll s'
    rw [resolveExprWith, plainExpr]
    simp only [first.plainExpr_eq deep₁, second.plainExpr_eq deep₂, set₁, set₂]
    exact paid
  | @modifies k n module base extra s s' first second ih ih' =>
    have visiting := (t.resolveExprWith_extends fuel module base r).visiting
    have above₁ : t.Above k r.visiting := above.mono (Nat.le_max_left k n)
    have above₂ : t.Above n r.visiting := above.mono (Nat.le_max_right k n)
    rw [← visiting] at above₂
    obtain ⟨-, sound₁⟩ := first.set_resolveExprWith distinct fuel sound room above₁
    exact (ih ((Nat.le_max_left k n).trans deep) fuel sound room above₁).trans
      (ih' ((Nat.le_max_right k n).trans deep) fuel sound₁ (visiting.symm ▸ room) above₂) _
  | @removes n module base s first sigs ih =>
    have paid := (ih deep fuel sound room above).andThen fun s => s.removeAll sigs
    obtain ⟨set, -⟩ := first.set_resolveExprWith distinct fuel sound room above
    rw [resolveExprWith, plainExpr]
    simp only [first.plainExpr_eq deep]
    rw [set] at paid
    exact paid

/-! ## Resolving all traits -/

/-- When all traits are resolved, each costs once what can be seen of its findings, if resolving one
of them charges that. -/
theorem perm_resolveTraits {cost : Entry TraitDecl → Diagnostics} {I : Resolver → Prop}
    (see : Diagnostics → Diagnostics) (distinct : t.DistinctKeys)
    (first : ∀ e ∈ t.traits, t.IsFirst e) (nodup : t.traits.Nodup) (nil : see [] = [])
    (append : ∀ ds ds', see (ds ++ ds') = see ds ++ see ds') (start : I .fresh)
    (step : ∀ e ∈ t.traits, ∀ r, I r → I (t.resolveTrait e r).resolver ∧
      t.Charged cost r [] (see (t.resolveTrait e r).findings) (t.resolveTrait e r).resolver) :
    (see (Model.resolveTraits t .fresh).2).Perm (t.traits.flatMap cost) := by
  have charged : I (Model.resolveTraits t .fresh).1 ∧ t.Charged cost .fresh []
      (see (Model.resolveTraits t .fresh).2) (Model.resolveTraits t .fresh).1 := by
    refine List.foldlRecOn (motive := fun st : Resolver × Diagnostics =>
      I st.1 ∧ t.Charged cost .fresh [] (see st.2) st.1) t.traits _ ?_ fun st ih e mem => ?_
    · exact ⟨start, nil.symm ▸ charged_refl []⟩
    · obtain ⟨kept, here⟩ := step e mem st.1 ih.1
      exact ⟨kept, (append _ _).symm ▸ ih.2.trans here⟩
  obtain ⟨-, es, learns, paid⟩ := charged
  exact paid.trans (List.Perm.flatMap_right _
    (learns.perm_traits distinct first nodup t.resolveTraits_full))

section

variable (acyclic : t.Acyclic) (distinct : t.DistinctKeys) (deep : t.traits.length ≤ depth)

include acyclic distinct deep

theorem Acyclic.pays_resolveTrait (ready : r.Ready t) {e : Entry TraitDecl}
    (first : t.IsFirst e) : t.Pays depth r [] (t.resolveTrait e r) := by
  obtain ⟨n, s, denotes, lt⟩ := acyclic.exists_traitDenotes first.mem
  have idle : e.qualifiedName ∉ r.visiting := by simp [ready.idle]
  have above : t.Above (n + 1) r.visiting := by simp [Above, ready.idle]
  exact pays_resolveDeclared first idle (denotes.pays distinct (lt.le.trans deep) _
    (ready.sound.enter first idle) (by simp; omega) (above.enter distinct first denotes))

/-- When all traits are resolved, the findings of each are reported once. -/
theorem Acyclic.perm_findings_resolveTraits (first : ∀ e ∈ t.traits, t.IsFirst e)
    (nodup : t.traits.Nodup) :
    (Model.resolveTraits t .fresh).2.Perm (t.traits.flatMap (t.ownFindings depth)) :=
  perm_resolveTraits (I := Resolver.Ready t) id distinct first nodup rfl (fun _ _ => rfl)
    (Resolver.ready_fresh t) fun e mem _ ready =>
      ⟨(acyclic.settled distinct).ready_resolveTrait ready (first e mem),
        acyclic.pays_resolveTrait distinct deep ready (first e mem)⟩

end

/-! ## Composing classes -/

/-- Applies one `uses` clause to the methods so far, given the sets of declared traits.  Findings
are those that arise at the clause and in its own expression. -/
def plainUse (t : SymbolTable) (declared : Entry TraitDecl → MethodSet) (module : String)
    (acc : MethodSet × Diagnostics) : TraitUse → MethodSet × Diagnostics
  | .adds x =>
    let (extra, ds) := t.plainExpr declared (some module) x
    let (sum, taken) := acc.1.addAll extra
    (sum, acc.2 ++ ds ++ taken)
  | .modifies x =>
    let (extra, ds) := t.plainExpr declared (some module) x
    (acc.1.modifyAll extra, acc.2 ++ ds)
  | .removes sigs =>
    let (rest, missing) := acc.1.removeAll sigs
    (rest, acc.2 ++ missing)

/-- The methods of a class of a module once composed, given the sets of declared traits, and the
findings that arise in the class itself. -/
def plainClass (t : SymbolTable) (declared : Entry TraitDecl → MethodSet) (module : String)
    (c : ClassDecl) : MethodSet × Diagnostics :=
  let own := MethodSet.empty.insertAll ("defined twice in class " ++ c.name) c.methods
  let (s, ds) := c.uses.foldl (t.plainUse declared module) own
  (s, ds ++ s.methods.flatMap (unboundOriginals c.name))

/-- The declared traits are known to have these sets, and none is being resolved. -/
structure Knows (t : SymbolTable) (r : Resolver) (declared : Entry TraitDecl → MethodSet) : Prop
    where
  idle : r.visiting = []
  known : ∀ e ∈ t.traits, r.memo.lookup e.qualifiedName = some (declared e)

namespace Knows

variable {declared : Entry TraitDecl → MethodSet} (h : t.Knows r declared)

include h

/-- Where all traits are known, only an expression's own findings are made. -/
theorem resolveExpr_eq (module : Option String) (x : TraitExpr) :
    t.resolveExpr module x r =
      ⟨(t.plainExpr declared module x).1, (t.plainExpr declared module x).2, r⟩ := by
  rw [resolveExpr]
  induction x with
  | ref name loc =>
    rw [resolveExprWith, plainExpr]
    cases found : t.traits.resolve module name with
    | ok e =>
      exact resolveDeclared_of_known (by simp [h.idle])
        (h.known e (Namespace.mem_of_resolve_eq_ok found)) _
    | error err => rfl
  | set ms => rfl
  | adds base extra ihBase ihExtra =>
    simp only [resolveExprWith, plainExpr, ihBase, ihExtra, Resolved.andThen]
  | modifies base extra ihBase ihExtra =>
    simp only [resolveExprWith, plainExpr, ihBase, ihExtra]
  | removes base sigs ih => simp only [resolveExprWith, plainExpr, ih, Resolved.andThen]

theorem applyUse_eq (module : String) (acc : MethodSet × Diagnostics) (u : TraitUse) :
    t.applyUse module ⟨acc.1, acc.2, r⟩ u =
      ⟨(t.plainUse declared module acc u).1, (t.plainUse declared module acc u).2, r⟩ := by
  cases u <;> simp only [applyUse, plainUse, h.resolveExpr_eq, Resolved.andThen]

theorem composeClass_eq (module : String) (c : ClassDecl) :
    t.composeClass module c r =
      ⟨(t.plainClass declared module c).1, (t.plainClass declared module c).2, r⟩ := by
  have folded (own : MethodSet × Diagnostics) :
      c.uses.foldl (t.applyUse module) ⟨own.1, own.2, r⟩ =
        ⟨(c.uses.foldl (t.plainUse declared module) own).1,
          (c.uses.foldl (t.plainUse declared module) own).2, r⟩ :=
    List.foldl_hom (fun acc : MethodSet × Diagnostics => Resolved.mk acc.1 acc.2 r)
      (h.applyUse_eq module)
  simp only [composeClass, plainClass, Resolved.andThen, List.nil_append, folded]

end Knows

/-- Once all traits are resolved, they are known to have the sets that plain recursion finds. -/
theorem Acyclic.knows (acyclic : t.Acyclic) (deep : t.traits.length ≤ depth)
    (first : ∀ e ∈ t.traits, t.IsFirst e) (full : r.Full t) (ready : r.Ready t) :
    t.Knows r (t.plainTrait depth) where
  idle := full.visiting
  known e mem := by
    obtain ⟨s, known⟩ := Option.isSome_iff_exists.1 (full.known e mem)
    obtain ⟨n, denotes⟩ := ready.sound.known (first e mem) known
    obtain ⟨n', s', denotes', lt⟩ := acyclic.exists_traitDenotes mem
    obtain ⟨rfl, rfl⟩ := denotes.unique denotes'
    rw [known, TraitDenotes.plainTrait_eq denotes (lt.trans_le deep)]

end SymbolTable

/-! ## Models -/

namespace Model

open SymbolTable

theorem resolver_eq_foldl_after (m : Model) :
    m.resolver =
      (m.traitEntries.map Query.declared).foldl (SymbolTable.ofModel m).after .fresh := by
  rw [List.foldl_map]
  exact (List.foldl_hom Prod.fst fun _ _ => rfl).symm

/-- Let traits be told apart by their modules and names, and also by their qualified names, by which
resolvers remember them, and let them not lead back to themselves.  Then an expression is resolved
to the set that plain recursion over the traits evaluates it to, whatever the resolver was asked
before.  And composing all classes reports, in some order, the findings at each trait's own
expression exactly once, and besides them only those that arise in the classes. -/
theorem memoized_resolution_faithful (m : Model) (distinct : m.DistinctTraits)
    (keys : (SymbolTable.ofModel m).DistinctKeys) (acyclic : (SymbolTable.ofModel m).Acyclic)
    {depth : Nat} (deep : m.traitEntries.length ≤ depth) :
    let t := SymbolTable.ofModel m
    (∀ qs : List Query, (∀ e, .declared e ∈ qs → e ∈ m.traitEntries) → ∀ module x,
      (t.resolveExpr module x (qs.foldl t.after .fresh)).set =
        (t.plainExpr (t.plainTrait depth) module x).1) ∧
    m.composeClasses.findings.Perm
      ((m.traitEntries.flatMap fun e =>
          (t.plainExpr (t.plainTrait depth) (some e.module) e.decl.expr).2) ++
        m.classEntries.flatMap fun c =>
          (t.plainClass (t.plainTrait depth) c.module c.decl).2) := by
  intro t
  have settled := acyclic.settled keys
  have first : ∀ e ∈ t.traits, t.IsFirst e := fun e mem => distinct.isFirst mem
  constructor
  · intro qs declared module x
    have ready : (qs.foldl t.after .fresh).Ready t :=
      settled.ready_foldl_after (Resolver.ready_fresh t) fun e mem => first e (declared e mem)
    exact acyclic.set_resolveExpr keys ready deep module x
  · have ready : m.resolver.Ready t := by
      rw [m.resolver_eq_foldl_after]
      refine settled.ready_foldl_after (Resolver.ready_fresh t) fun e mem => ?_
      obtain ⟨e', mem, eq⟩ := List.mem_map.1 mem
      cases eq
      exact first e mem
    have knows := acyclic.knows deep first m.resolver_full ready
    have classes : (m.classEntries.flatMap fun c => (m.composition c).findings) =
        m.classEntries.flatMap fun c => (t.plainClass (t.plainTrait depth) c.module c.decl).2 :=
      List.flatMap_congr fun c _ => by rw [composition, knows.composeClass_eq]
    rw [composeClasses_eq, classes]
    exact (acyclic.perm_findings_resolveTraits keys deep first
      (distinct.nodup_keys.of_map _)).append_right _

/-- A trait that defines a method twice, one of another module that builds on it and removes a
method it does not have, and two classes that use both. -/
def sharedTraitModel : Model :=
  let m : Method := .ofVersion { (default : Version) with
    sig := { (default : Signature) with name := "m" } }
  let other : Signature := { (default : Signature) with name := "n" }
  let c (name : String) (trait : String) : Decl := .class { (default : ClassDecl) with
    name := name, uses := [.adds (.ref trait none), .modifies (.ref "A.T" none)] }
  ⟨[⟨none, [
    ⟨"B", [.trait ⟨"U", .removes (.ref "A.T" none) [other], none⟩, c "C" "U"], none⟩,
    ⟨"A", [.trait ⟨"T", .set [m, m], none⟩, c "D" "T"], none⟩]⟩]⟩

theorem memoized_resolution_faithful_sharedTraitModel :
    let t := SymbolTable.ofModel sharedTraitModel
    (∀ c, (t.resolveExpr (some "B") (.ref "U" none) (t.after .fresh (.class "A" c))).set.names =
      ["m"]) ∧
    sharedTraitModel.composeClasses.findings.Perm [
      MethodSet.missing { (default : Signature) with name := "n" },
      MethodSet.duplicate "defined twice in one method set" (.ofVersion
        { (default : Version) with sig := { (default : Signature) with name := "m" } })] := by
  intro t
  have acyclic : t.Acyclic :=
    acyclic_of_rank (fun e => if e.name = "U" then 1 else 0) (by decide +kernel)
  have plain : ∀ e ∈ sharedTraitModel.traitEntries, '.' ∉ e.name.toList := by decide +kernel
  have keys : t.DistinctKeys := distinctKeys_of_plainNames plain
  have deep : sharedTraitModel.traitEntries.length ≤ 2 := by decide +kernel
  obtain ⟨sets, findings⟩ := memoized_resolution_faithful sharedTraitModel
    ⟨by decide +kernel, by decide +kernel⟩ keys acyclic deep
  refine ⟨fun c => ?_, findings.trans (.of_eq ?_)⟩
  · have found := sets [.class "A" c] (by simp) (some "B") (.ref "U" none)
    rw [List.foldl_cons, List.foldl_nil] at found
    rw [found]
    decide +kernel
  · decide +kernel

/-- Of two traits of one qualified name, only the one that is resolved first becomes known: the
other one has its methods from then on, and the finding at its own expression is never made. -/
theorem memoized_resolution_confuses_overlappingModel :
    let method : Method := .ofVersion { (default : Version) with
      sig := { (default : Signature) with name := "m" } }
    let m := overlappingModel (.set []) (.set [method, method]) []
    let t := SymbolTable.ofModel m
    m.DistinctTraits ∧ t.Acyclic ∧
      (∃ e ∈ m.traitEntries, e.name = "A.T" ∧ (t.resolveExpr (some "M.A") (.ref "T" none)
        (t.after .fresh (.declared e))).set.names = []) ∧
      (t.plainExpr (t.plainTrait 2) (some "M.A") (.ref "T" none)).1.names = ["m"] ∧
      m.composeClasses.findings = [] ∧
      (m.traitEntries.flatMap fun e =>
        (t.plainExpr (t.plainTrait 2) (some e.module) e.decl.expr).2) ≠ [] := by
  intro method m t
  have acyclic : t.Acyclic := acyclic_of_rank (fun _ => 0) (by decide +kernel)
  exact ⟨distinctTraits_overlappingModel _ _, acyclic, by decide +kernel, by decide +kernel,
    by decide +kernel, by decide +kernel⟩

end Model

end DeltaLang
