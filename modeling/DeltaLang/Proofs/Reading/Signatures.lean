import DeltaLang.Proofs.Grammar.Layout
import DeltaLang.Proofs.Program.Tokens

/-!
# Reading types and signatures

A type or signature that can be written is read as itself in every layout of its tokens, where no
type argument could follow.
-/

namespace DeltaLang

open Grammar Concrete

namespace Concrete

section

variable {us : List String}

/-! ## Lists of nodes -/

/-- Nodes that are read one by one are read as a list. -/
theorem Each.mapM {α β γ : Type} {f : Elaborate.Tree → Except BuildError β} {key : β → γ}
    {key' : α → γ} {as : List α} {ts : List Elaborate.Tree}
    (h : Each (fun a => Gives f fun b => key b = key' a) as ts) :
    ∃ bs, ts.mapM f = .ok bs ∧ bs.map key = as.map key' := by
  induction as generalizing ts with
  | nil =>
    obtain rfl := h
    exact ⟨[], rfl, rfl⟩
  | cons a as ih =>
    obtain ⟨_, ys, rfl, ⟨t, b, rfl, done, same⟩, rest⟩ := h
    obtain ⟨bs, dones, sames⟩ := ih rest
    refine ⟨b :: bs, ?_, by rw [List.map_cons, List.map_cons, same, sames]⟩
    rw [List.singleton_append, List.mapM_cons, done, dones]
    rfl

/-- Of a list with commas the elements are read, where no comma follows. -/
theorem takes_commaList {α : Type} {a : Peg Rule} {toks : α → List String}
    {P : α → List Elaborate.Tree → Prop} (stop : Bars (.word ",") us) {xs : List α}
    (some : xs ≠ []) (each : ∀ x ∈ xs, ∀ us, Takes a (toks x) us (P x)) :
    Takes (.commaList a) (listTokens toks xs) us (Each P xs) := by
  cases xs with
  | nil => exact absurd rfl some
  | cons x xs =>
    have more := takes_many (fun y => "," :: toks y) stop.cat xs fun y mem us =>
      (takes_word "," _).seq_then (each y (List.mem_cons_of_mem x mem) us)
    exact (each x (List.mem_cons_self ..) _).seq more

/-! ## Types -/

/-- A bracketed annotation. -/
def AnnotationOf (a : String) : List Elaborate.Tree → Prop :=
  Node .bracketed (NodeOf .identifier a.toList Silent)

theorem takes_bracketed {a : String} (id : isIdentifier a = true) (us : List String) :
    Takes (.rule .bracketed) ["[", a, "]"] us (AnnotationOf a) :=
  Takes.rule rfl ((takes_word "[" _).seq_then
    ((takes_identifier id _).seq_before (takes_word "]" us)))

theorem typeParts_annotations {as : List String} {ts : List Elaborate.Tree}
    (h : Each AnnotationOf as ts) (type : TypeUse) (more : List Elaborate.Tree) :
    Elaborate.typeParts type (ts ++ more) =
      Elaborate.typeParts { type with annotations := type.annotations ++ as } more := by
  induction as generalizing ts type with
  | nil =>
    obtain rfl := h
    rw [List.append_nil, List.nil_append]
    cases type
    rfl
  | cons a as ih =>
    obtain ⟨_, ys, rfl, ⟨pos, text, _, rfl, pos', xs, rfl, -⟩, rest⟩ := h
    rw [List.append_assoc, List.singleton_append, Elaborate.typeParts, String.ofList_toList,
      ih rest, List.append_assoc]
    rfl

theorem typeParts_args {as : List TypeUse} {ts : List Elaborate.Tree}
    (h : Each (fun a => Gives Elaborate.typeUse (· = a)) as ts) (type : TypeUse) :
    Elaborate.typeParts type ts = .ok { type with args := type.args ++ as } := by
  induction as generalizing ts type with
  | nil =>
    obtain rfl := h
    rw [List.append_nil, Elaborate.typeParts]
    cases type
    rfl
  | cons a as ih =>
    obtain ⟨_, ys, rfl, ⟨t, _, rfl, done, rfl⟩, rest⟩ := h
    obtain ⟨r, pos, text, xs⟩ := t
    obtain rfl : r = .typeUse := by
      unfold Elaborate.typeUse at done
      split at done
      · rename_i same
        cases same
        rfl
      · cases done
    rw [List.singleton_append, Elaborate.typeParts]
    rotate_left
    · simp
    · simp
    rw [done]
    exact (ih rest _).trans (by rw [List.append_assoc]; rfl)

theorem bars_bracketed {name : String} (h : IsQualifiedName name) (us : List String) :
    Bars (.rule .bracketed) (name :: us) := by
  refine bars_of_isQualifiedName h fun c rest start => Refuses.rule rfl (Refuses.cat ?_)
  refine refuses_lit_cons ?_
  rintro rfl
  exact absurd start (by decide)

mutual

/-- A type is read as itself where no type argument could follow. -/
theorem takes_typeUse : (t : TypeUse) → t.Writable → ∀ us, Bars (.word "<") us →
    Takes (.rule .typeUse) t.tokens us (Gives Elaborate.typeUse (· = t))
  | ⟨name, args, annotations⟩, writable, us, stop => by
    obtain ⟨named, ids, writables⟩ := writable
    have brackets := takes_many (fun a => ["[", a, "]"])
      (bars_bracketed named (TypeUse.argTokens args ++ us)) annotations fun a mem us =>
        takes_bracketed (ids a mem) us
    have behind := (takes_qualifiedName named _).seq (takes_argTokens args writables us stop)
    have token := Takes.rule (r := .typeUse) rfl (brackets.seq behind)
    refine token.imp fun nodes node => node.gives ?_
    rintro pos text _ ⟨as, _, rfl, annotated, _, bs, rfl, ⟨pos', xs, rfl, -⟩, given⟩
    refine ⟨⟨name, args, annotations⟩, ?_, rfl⟩
    rw [Elaborate.typeUse, typeParts_annotations annotated, List.singleton_append,
      Elaborate.typeParts, String.ofList_toList, typeParts_args given]
    rfl

theorem takes_argTokens : (args : List TypeUse) → TypeUse.WritableAll args → ∀ us,
    Bars (.word "<") us →
    Takes (.opt (.sequence [.word "<", .rule .typeUse,
      .many (.seq (.word ",") (.rule .typeUse)), .word ">"])) (TypeUse.argTokens args) us
      (Each (fun a => Gives Elaborate.typeUse (· = a)) args)
  | [], _, us, stop => stop.cat.opt
  | t :: ts, writable, us, _ => by
    have comma (us : List String) : Bars (.word "<") ("," :: us) :=
      bars_of_refuses fun rest _ => refuses_lit_cons (by decide)
    have close : Bars (.word "<") (">" :: us) :=
      bars_of_refuses fun rest _ => refuses_lit_cons (by decide)
    have noComma : Bars (.seq (.word ",") (.rule .typeUse)) (">" :: us) :=
      Bars.cat (bars_of_refuses fun rest _ => refuses_lit_cons (by decide))
    have more := takes_many_of_follow (fun t => "," :: TypeUse.tokens t) _ noComma close
      (fun _ _ => comma _) ts fun a mem us stop =>
        (takes_word "," _).seq_then (takes_typeUses ts writable.2 a mem us stop)
    rw [← TypeUse.moreTokens_eq_flatMap] at more
    have follows : Bars (.word "<") (TypeUse.moreTokens ts ++ [">"] ++ us) := by
      cases ts with
      | nil => exact close
      | cons t ts => exact comma _
    have within := (takes_typeUse t writable.1 _ follows).seq
      (more.seq_before (takes_word ">" us))
    exact ((takes_word "<" _).seq_then within).opt

theorem takes_typeUses : (ts : List TypeUse) → TypeUse.WritableAll ts → ∀ t ∈ ts, ∀ us,
    Bars (.word "<") us →
    Takes (.rule .typeUse) t.tokens us (Gives Elaborate.typeUse (· = t))
  | [], _, _, mem, _, _ => absurd mem List.not_mem_nil
  | t :: ts, writable, a, mem, us, stop => by
    rcases List.mem_cons.1 mem with same | mem
    · rw [same]
      exact takes_typeUse t writable.1 us stop
    · exact takes_typeUses ts writable.2 a mem us stop

end

/-! ## Parameters and signatures -/

variable (file : Option String)

theorem bars_lessThan_of_isIdentifier {name : String} (id : isIdentifier name = true)
    (us : List String) : Bars (.word "<") (name :: us) := by
  refine bars_of_isQualifiedName (.identifier id) fun c rest start => refuses_lit_cons ?_
  rintro rfl
  exact absurd start (by decide)

theorem takes_param {p : Param} (writable : p.Writable) (us : List String) :
    Takes (.rule .param) p.tokens us
      (Gives (Elaborate.param file) (·.unlocated = p.unlocated)) := by
  have type := takes_typeUse p.type writable.type _
    (bars_lessThan_of_isIdentifier writable.name us)
  have token := Takes.rule (r := .param) rfl (type.seq (takes_identifier writable.name us))
  refine token.imp fun nodes node => node.gives ?_
  rintro pos text _ ⟨_, _, rfl, ⟨t, _, rfl, done, rfl⟩, pos', xs, rfl, -⟩
  refine ⟨⟨p.name, p.type, Elaborate.locate file pos⟩, ?_, rfl⟩
  rw [String.ofList_toList]
  show (do return Param.mk p.name (← Elaborate.typeUse t) (Elaborate.locate file pos)) = _
  rw [done]
  rfl

theorem takes_params (ps : List Param) (writable : ∀ p ∈ ps, p.Writable) (us : List String) :
    Takes (.opt params) (listTokens Param.tokens ps) (")" :: us)
      (Each (fun p => Gives (Elaborate.param file) (·.unlocated = p.unlocated)) ps) := by
  cases ps with
  | nil =>
    refine Bars.opt (bars_of_refuses fun rest _ => ?_)
    show grammar.Refuses params .normal (')' :: rest)
    exact refuses_of_match? 60 fun _ _ => ⟨_, rfl⟩
  | cons p ps =>
    have stop : Bars (.word ",") (")" :: us) :=
      bars_of_refuses fun rest _ => refuses_lit_cons (by decide)
    exact (takes_commaList stop (List.cons_ne_nil p ps) fun q mem us =>
      takes_param file (writable q mem) us).opt

theorem takes_methodSig {s : Signature} (writable : s.Writable) (us : List String) :
    Takes (.rule .methodSig) s.tokens us
      (Gives (Elaborate.signature file) (·.unlocated = s.unlocated)) := by
  have listed := (takes_word "(" _).seq_then
    ((takes_params file s.params writable.params us).seq_before (takes_word ")" us))
  have type := takes_typeUse s.ret writable.ret _ (bars_lessThan_of_isIdentifier writable.name
    ("(" :: (listTokens Param.tokens s.params ++ [")"]) ++ us))
  have token := Takes.rule (r := .methodSig) rfl
    (type.seq ((takes_identifier writable.name _).seq listed))
  refine token.imp fun nodes node => node.gives ?_
  rintro pos text _ ⟨_, _, rfl, ⟨t, _, rfl, done, rfl⟩, _, ts, rfl, ⟨pos', xs, rfl, -⟩, given⟩
  obtain ⟨ps, dones, same⟩ := given.mapM
  refine ⟨⟨s.name, s.ret, ps, Elaborate.locate file pos⟩, ?_, ?_⟩
  · rw [String.ofList_toList]
    show (do
      let ret ← Elaborate.typeUse t
      return Signature.mk s.name ret (← ts.mapM (Elaborate.param file))
        (Elaborate.locate file pos)) = _
    rw [done, dones]
    rfl
  · simp only [Signature.unlocated, same]

end

end Concrete

end DeltaLang
