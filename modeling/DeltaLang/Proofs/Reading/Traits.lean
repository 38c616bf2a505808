import DeltaLang.Proofs.Grammar.Depth
import DeltaLang.Proofs.Reading.Returned
import DeltaLang.Proofs.Reading.Signatures

/-!
# Reading trait expressions

The operators of a trait expression are read as a fold from the left, however many there are, and
tell their operands from what follows by the next token alone.
-/

namespace DeltaLang

open Grammar Concrete

namespace Concrete

/-! ## Reserved words are not names -/

section

variable {w : String} {rest : List Char} {mode : RuleMode}

/-- A reserved word that ends is read as such, and is no identifier. -/
theorem refuses_identifier_reserved (reserved : w ∈ keywords) (ended : NameEnds rest) :
    grammar.Refuses (.rule .identifier) mode (w.toList ++ rest) := by
  have apart : ∀ w ∈ keywords, ∀ v ∈ keywords, v.toList <+: w.toList → v = w := by decide +kernel
  obtain ⟨front, back, split, first⟩ := List.eq_append_cons_of_mem reserved
  have earlier : grammar.Refuses (.choice (front.map .word)) .atomic (w.toList ++ rest) := by
    refine refuses_choice fun a mem => ?_
    obtain ⟨v, mem', rfl⟩ := List.mem_map.1 mem
    have reserved' : v ∈ keywords := split ▸ List.mem_append_left _ mem'
    refine refuses_lit fun starts => ?_
    obtain ⟨y, longer⟩ := exists_longer (isNameChar_of_mem_keywords reserved') ended starts
    obtain rfl := apart w reserved v reserved' ⟨y, longer.symm⟩
    exact first mem'
  have word : grammar.Spells (.choice (keywords.map .word)) .atomic w.toList rest Silent := by
    rw [split, List.map_append, List.map_cons]
    exact Refuses.or_choice earlier (spells_lit .atomic w.toList rest).choice
  have keyword : grammar.Spells (.rule .keyword) .atomic (w.toList ++ ([] ++ [])) rest Silent :=
    (Spells.seq_then (spells_skip_atomic _) word (spells_boundary ended)).rule_atomic rfl
  rw [List.append_nil, List.append_nil] at keyword
  exact Refuses.rule rfl keyword.not.cat

theorem refuses_qualifiedName_reserved (reserved : w ∈ keywords) (ended : NameEnds rest) :
    grammar.Refuses (.rule .qualifiedName) mode (w.toList ++ rest) := by
  have first : grammar.Refuses (.rule .identifier) .atomic (w.toList ++ rest) :=
    refuses_identifier_reserved reserved ended
  exact Refuses.rule rfl first.cat

end

/-! ## Methods that skip -/

section

variable {rest : List Char}

/-- What begins with a type does not match at the statement that skips. -/
theorem refuses_typeUse_skip (ended : NameEnds rest) :
    grammar.Refuses (.rule .typeUse) .normal ("skip".toList ++ rest) := by
  have plain : grammar.Refuses (.rule .bracketed) .normal ("skip".toList ++ rest) :=
    Refuses.rule rfl (refuses_lit_cons (by decide)).cat
  have named : grammar.Refuses (.rule .qualifiedName) .normal ("skip".toList ++ rest) :=
    refuses_qualifiedName_reserved (by decide) ended
  exact Refuses.rule rfl (Spells.refuses_seq (spells_skip_nil (Place.solid_word (by decide) _))
    plain.many named.cat :)

theorem refuses_expr_skip (ended : NameEnds rest) :
    grammar.Refuses expr .normal ("skip".toList ++ rest) := by
  have word {w : String} {mode : RuleMode} {c : Char} {cs : List Char} (split : w.toList = c :: cs)
      (other : 's' ≠ c) : grammar.Refuses (.word w) mode ("skip".toList ++ rest) := by
    rw [Peg.word, split]
    exact refuses_lit_cons other
  have named : grammar.Refuses (.rule .identifier) .normal ("skip".toList ++ rest) :=
    refuses_identifier_reserved (by decide) ended
  have operand : grammar.Refuses primary .normal ("skip".toList ++ rest) := by
    refine refuses_choice ?_
    simp only [List.forall_mem_cons]
    refine ⟨Refuses.rule rfl (word rfl (by decide)).cat,
      Refuses.rule rfl (word rfl (by decide)).cat, Refuses.rule rfl (word rfl (by decide)).cat,
      Refuses.rule rfl (word rfl (by decide)).cat,
      Refuses.rule rfl (Refuses.cat ((word rfl (by decide)).alt (word rfl (by decide)))),
      Refuses.rule rfl (word rfl (by decide)).cat, Refuses.rule rfl named,
      Refuses.rule rfl (Refuses.cat (refuses_one ?_)), Refuses.rule rfl (word rfl (by decide)).cat,
      (word rfl (by decide)).cat, List.forall_mem_nil _⟩
    intro c next
    obtain rfl := Option.some.inj next
    decide
  have operator : grammar.Refuses (.rule .unaryOp) .normal ("skip".toList ++ rest) :=
    Refuses.rule rfl ((word rfl (by decide)).alt (word rfl (by decide)))
  have called : grammar.Refuses (.rule .postfixExpr) .normal ("skip".toList ++ rest) :=
    Refuses.rule rfl operand.cat
  have unary : grammar.Refuses (.rule .unaryExpr) .normal ("skip".toList ++ rest) :=
    Refuses.rule rfl (Spells.refuses_seq (spells_skip_nil (Place.solid_word (by decide) _))
      operator.many called :)
  have lift {r s : Rule} {e : Peg Rule} (normal : mode r = .normal)
      (first : body r = .seq (.rule s) e)
      (h : grammar.Refuses (.rule s) .normal ("skip".toList ++ rest)) :
      grammar.Refuses (.rule r) .normal ("skip".toList ++ rest) := by
    refine Refuses.rule (if_pos normal).symm (?_ : grammar.Refuses (body r) .normal _)
    rw [first]
    exact h.cat
  exact lift (r := .orExpr) rfl rfl (lift (r := .andExpr) rfl rfl (lift (r := .eqExpr) rfl rfl
    (lift (r := .relExpr) rfl rfl (lift (r := .addExpr) rfl rfl (lift (r := .mulExpr) rfl rfl
      unary)))))

end

section

variable (file : Option String) (us : List String)

theorem takes_skipStmt :
    Takes stmt ["skip", ";"] us (Gives (Elaborate.stmt file) (·.unlocated = .skip none)) := by
  have earlier : Bars (.choice [.rule .varDecl, .rule .assignStmt, .rule .exprStmt,
      .rule .returnStmt]) ("skip" :: ";" :: us) := by
    refine bars_of_refuses fun rest parted => ?_
    have ended : NameEnds rest := fun c next =>
      (head_of_isParted (c := 's') rfl (by decide) parted c next).1
    have named : grammar.Refuses (.rule .identifier) .normal ("skip".toList ++ rest) :=
      refuses_identifier_reserved (by decide) ended
    have targets : grammar.Refuses (.choice [.rule .thisField, .rule .varRef]) .normal
        ("skip".toList ++ rest) :=
      Refuses.alt (Refuses.rule rfl (refuses_lit_cons (by decide)).cat) (Refuses.rule rfl named)
    refine refuses_choice ?_
    simp only [List.forall_mem_cons]
    exact ⟨Refuses.rule rfl (refuses_typeUse_skip ended).cat, Refuses.rule rfl targets.cat,
      Refuses.rule rfl (refuses_expr_skip ended).cat,
      Refuses.rule rfl (refuses_lit_cons (by decide)).cat, List.forall_mem_nil _⟩
  have token := Takes.rule (r := .skipStmt) rfl ((takes_word "skip" _).seq_then (takes_word ";" us))
  refine earlier.or_choice (Takes.choice (token.imp fun nodes node => node.gives ?_))
  rintro pos text _ rfl
  exact ⟨.skip (Elaborate.locate file pos), rfl, rfl⟩

theorem takes_block :
    Takes (.rule .block) ["\x7b", "skip", ";", "\x7d"] us
      (Gives (Elaborate.block file) (Stmt.unlocatedAll · = [.skip none])) := by
  have stop : Bars stmt ("\x7d" :: us) := bars_of_refuses fun rest _ => refuses_stmt rest
  have once := takes_one stop (takes_skipStmt file _)
  have token := Takes.rule (r := .block) rfl
    ((takes_word "\x7b" _).seq_then (once.seq_before (takes_word "\x7d" us)))
  refine token.imp fun nodes node => node.gives ?_
  rintro pos text _ ⟨t, s, rfl, done, same⟩
  refine ⟨[s], ?_, by rw [Stmt.unlocatedAll, same]; rfl⟩
  show (do return [← Elaborate.stmt file t]) = _
  rw [done]
  rfl

theorem takes_methodImpl {m : Method} (skips : m.Skips) :
    Takes (.rule .methodImpl) m.tokens us
      (Gives (Elaborate.method file) (·.unlocated = m.unlocated)) := by
  have token := Takes.rule (r := .methodImpl) rfl
    ((takes_methodSig file skips.sig _).seq (takes_block file us))
  refine token.imp fun nodes node => node.gives ?_
  rintro pos text _ ⟨_, _, rfl, ⟨s, sig, rfl, doneSig, same⟩, b, body, rfl, doneBody, only⟩
  refine ⟨.ofVersion ⟨sig, body⟩, ?_, ?_⟩
  · show (do
      let sig ← Elaborate.signature file s
      return Method.ofVersion ⟨sig, ← Elaborate.block file b⟩) = _
    rw [doneSig, doneBody]
    rfl
  · rw [skips.unlocated, ← same, ← only]
    rfl

/-! ## Operands and operators -/

theorem takes_traitAtom {e : TraitExpr} (operand : e.IsOperand) :
    Takes traitAtom e.tokens us (Gives (Elaborate.traitAtom file) (·.unlocated = e.unlocated)) := by
  cases e with
  | ref name loc =>
    have noSet : Bars (.choice [.rule .methodSet]) (name :: us) := by
      refine bars_of_isQualifiedName operand fun c rest start => Refuses.rule rfl (Refuses.cat ?_)
      refine refuses_lit_cons ?_
      rintro rfl
      exact absurd start (by decide)
    have token := Takes.rule (r := .traitRef) rfl (takes_qualifiedName operand us)
    refine noSet.or_choice (Takes.choice (token.imp fun nodes node => node.gives ?_))
    rintro pos text _ ⟨pos', xs, rfl, -⟩
    exact ⟨_, rfl, by rw [String.ofList_toList]; rfl⟩
  | set ms =>
    have stop : Bars (.rule .methodImpl) ("\x7d" :: us) := bars_of_refuses fun rest _ => by
      show grammar.Refuses _ .normal ('}' :: rest)
      exact refuses_of_match? 60 fun _ _ => ⟨_, rfl⟩
    have methods := takes_many Method.tokens stop ms fun m mem us =>
      takes_methodImpl file us (operand m mem)
    have token := Takes.rule (r := .methodSet) rfl
      ((takes_word "\x7b" _).seq_then (methods.seq_before (takes_word "\x7d" us)))
    refine Takes.choice (token.imp fun nodes node => node.gives ?_)
    rintro pos text xs given
    obtain ⟨ms', dones, same⟩ := given.mapM
    refine ⟨.set ms', ?_, congrArg TraitExpr.set same⟩
    show (do return TraitExpr.set (← xs.mapM (Elaborate.method file))) = _
    rw [dones]
    rfl
  | _ => cases operand

theorem takes_sigSet {sigs : List Signature} (writable : ∀ s ∈ sigs, s.Writable) :
    Takes (.rule .sigSet) (sigSetTokens sigs) us (Gives (Elaborate.sigSet file)
      fun sigs' => sigs'.map Signature.unlocated = sigs.map Signature.unlocated) := by
  have stop : Bars (.seq (.rule .methodSig) (.word ";")) ("\x7d" :: us) :=
    bars_of_refuses fun rest _ => by
      show grammar.Refuses _ .normal ('}' :: rest)
      exact refuses_of_match? 60 fun _ _ => ⟨_, rfl⟩
  have listed := takes_many (fun s => s.tokens ++ [";"]) stop sigs fun s mem us =>
    (takes_methodSig file (writable s mem) _).seq_before (takes_word ";" us)
  have token := Takes.rule (r := .sigSet) rfl
    ((takes_word "\x7b" _).seq_then (listed.seq_before (takes_word "\x7d" us))).alt
  refine token.imp fun nodes node => node.gives ?_
  rintro pos text xs given
  obtain ⟨sigs', dones, same⟩ := given.mapM
  exact ⟨sigs', dones, same⟩

/-- One node, which applies the operator, locations aside, to whatever stands left of it. -/
def Applies (u : TraitUse) (nodes : List Elaborate.Tree) : Prop :=
  ∃ (t : Elaborate.Tree) (u' : TraitUse), nodes = [t] ∧ u'.unlocated = u.unlocated ∧
    ∀ base, Elaborate.traitOp file base t = .ok (u'.apply base)

theorem takes_traitOp {u : TraitUse} (operator : u.IsOperator) :
    Takes traitOp u.tokens us (Applies file u) := by
  cases u with
  | adds e =>
    have token := Takes.rule (r := .traitAdds) rfl
      ((takes_word "adds" _).seq_then (takes_traitAtom file us operator))
    refine Takes.choice (token.imp ?_)
    rintro _ ⟨pos, text, _, rfl, t, e', rfl, done, same⟩
    refine ⟨_, .adds e', rfl, congrArg TraitUse.adds same, fun base => ?_⟩
    show (do return TraitExpr.adds base (← Elaborate.traitAtom file t)) = _
    rw [done]
    rfl
  | modifies e =>
    have earlier : Bars (.choice [.rule .traitAdds]) ("modifies" :: (e.tokens ++ us)) :=
      bars_of_refuses fun rest _ => Refuses.rule rfl (refuses_lit_cons (by decide)).cat
    have token := Takes.rule (r := .traitModifies) rfl
      ((takes_word "modifies" _).seq_then (takes_traitAtom file us operator))
    refine earlier.or_choice (Takes.choice (token.imp ?_))
    rintro _ ⟨pos, text, _, rfl, t, e', rfl, done, same⟩
    refine ⟨_, .modifies e', rfl, congrArg TraitUse.modifies same, fun base => ?_⟩
    show (do return TraitExpr.modifies base (← Elaborate.traitAtom file t)) = _
    rw [done]
    rfl
  | removes sigs =>
    have earlier : Bars (.choice [.rule .traitAdds, .rule .traitModifies])
        ("removes" :: (sigSetTokens sigs ++ us)) :=
      bars_of_refuses fun rest _ => Refuses.alt
        (Refuses.rule rfl (refuses_lit_cons (by decide)).cat)
        (Refuses.rule rfl (refuses_lit_cons (by decide)).cat)
    have token := Takes.rule (r := .traitRemoves) rfl
      ((takes_word "removes" _).seq_then (takes_sigSet file us operator))
    refine earlier.or_choice (Takes.choice (token.imp ?_))
    rintro _ ⟨pos, text, _, rfl, t, sigs', rfl, done, same⟩
    refine ⟨_, .removes sigs', rfl, congrArg TraitUse.removes same, fun base => ?_⟩
    show (do return TraitExpr.removes base (← Elaborate.sigSet file t)) = _
    rw [done]
    rfl

theorem Each.foldlM_traitOp {ops : List TraitUse} {ts : List Elaborate.Tree}
    (h : Each (Applies file) ops ts) (base : TraitExpr) :
    ∃ ops' : List TraitUse,
      ts.foldlM (Elaborate.traitOp file) base = .ok (ops'.foldl TraitUse.apply base) ∧
      ops'.map TraitUse.unlocated = ops.map TraitUse.unlocated := by
  induction ops generalizing ts base with
  | nil =>
    obtain rfl := h
    exact ⟨[], rfl, rfl⟩
  | cons u ops ih =>
    obtain ⟨_, ys, rfl, ⟨t, u', rfl, same, done⟩, rest⟩ := h
    obtain ⟨ops', dones, sames⟩ := ih rest (u'.apply base)
    refine ⟨u' :: ops', ?_, by rw [List.map_cons, List.map_cons, same, sames]⟩
    rw [List.singleton_append, List.foldlM_cons, done]
    exact dones

/-- The flat list of operators is folded to the left. -/
theorem takes_traitExpr {first : TraitExpr} {ops : List TraitUse} (operand : first.IsOperand)
    (operators : ∀ u ∈ ops, u.IsOperator) (stop : Bars traitOp us) :
    Takes (.rule .traitExpr) (ops.foldl TraitUse.apply first).tokens us
      (Gives (Elaborate.traitExpr file)
        (·.unlocated = (ops.foldl TraitUse.apply first).unlocated)) := by
  have behind := takes_many TraitUse.tokens stop ops fun u mem us =>
    takes_traitOp file us (operators u mem)
  have token := Takes.rule (r := .traitExpr) rfl ((takes_traitAtom file _ operand).seq behind)
  rw [TraitUse.tokens_foldl_apply]
  refine token.imp fun nodes node => node.gives ?_
  rintro pos text _ ⟨_, ts, rfl, ⟨t, e, rfl, done, same⟩, applied⟩
  obtain ⟨ops', dones, sames⟩ := applied.foldlM_traitOp file e
  refine ⟨ops'.foldl TraitUse.apply e, ?_, ?_⟩
  · show (do ts.foldlM (Elaborate.traitOp file) (← Elaborate.traitAtom file t)) = _
    rw [done]
    exact dones
  · rw [TraitUse.unlocated_foldl_apply, TraitUse.unlocated_foldl_apply, same, sames]

/-! ## Declarations and modules -/

/-- The trait has that name and that expression, locations aside. -/
def IsTrait (name : String) (e : TraitExpr) (d : TraitDecl) : Prop :=
  d.name = name ∧ d.expr.unlocated = e.unlocated

/-- A trait is declared with or without a semicolon at the end. -/
theorem takes_traitDecl {name : String} {first : TraitExpr} {ops : List TraitUse}
    (id : isIdentifier name = true) (operand : first.IsOperand)
    (operators : ∀ u ∈ ops, u.IsOperator) (closed : Bool) :
    Takes decl ("trait" :: name :: "=" :: ((ops.foldl TraitUse.apply first).tokens ++
      if closed then [";"] else [])) [] (Gives (Elaborate.decl file) fun d =>
        ∃ d', d = .trait d' ∧ IsTrait name (ops.foldl TraitUse.apply first) d') := by
  have earlier (us : List String) :
      Bars (.choice [.rule .interfaceDecl, .rule .classDecl]) ("trait" :: us) :=
    bars_of_refuses fun rest _ => by
      show grammar.Refuses _ .normal ('t' :: 'r' :: 'a' :: 'i' :: 't' :: rest)
      exact refuses_of_match? 60 fun _ _ => ⟨_, rfl⟩
  have ended : Takes (.seq (.rule .traitExpr) (.opt (.word ";")))
      ((ops.foldl TraitUse.apply first).tokens ++ if closed then [";"] else []) []
      (Gives (Elaborate.traitExpr file)
        (·.unlocated = (ops.foldl TraitUse.apply first).unlocated)) := by
    cases closed with
    | true =>
      have stop : Bars traitOp [";"] := bars_of_refuses fun rest _ => by
        show grammar.Refuses _ .normal (';' :: rest)
        exact refuses_of_match? 60 fun _ _ => ⟨_, rfl⟩
      exact (takes_traitExpr file [";"] operand operators stop).seq_before (takes_word ";" []).opt
    | false =>
      have stop : Bars traitOp [] := bars_nil (refuses_of_match? 60 fun _ _ => ⟨_, rfl⟩)
      have open' : Bars (.word ";") [] := bars_nil (refuses_of_match? 60 fun _ _ => ⟨_, rfl⟩)
      exact (takes_traitExpr file [] operand operators stop).seq_before open'.opt
  have token := Takes.rule (r := .traitDecl) rfl ((takes_word "trait" _).seq_then
    ((takes_identifier id _).seq ((takes_word "=" _).seq_then ended)))
  refine (earlier _).or_choice (Takes.choice (token.imp fun nodes node => node.gives ?_))
  rintro pos text _ ⟨_, _, rfl, ⟨pos', xs, rfl, -⟩, t, e, rfl, done, same⟩
  refine ⟨.trait ⟨name, e, Elaborate.locate file pos⟩, ?_, _, rfl, rfl, same⟩
  rw [String.ofList_toList]
  show (do
    let d ← (do
      return TraitDecl.mk name (← Elaborate.traitExpr file t) (Elaborate.locate file pos))
    return Decl.trait d) = _
  rw [done]
  rfl

end

/-- The tokens of a module with one trait. -/
def traitTokens (module name : String) (e : TraitExpr) (closed : Bool) : List String :=
  "module" :: module :: ";" :: "trait" :: name :: "=" :: (e.tokens ++ if closed then [";"] else [])

theorem takes_modules (file : Option String) {module name : String} {first : TraitExpr}
    {ops : List TraitUse} (isModule : IsQualifiedName module) (id : isIdentifier name = true)
    (operand : first.IsOperand) (operators : ∀ u ∈ ops, u.IsOperator) (closed : Bool) :
    Takes (.many (.rule .moduleDecl))
      (traitTokens module name (ops.foldl TraitUse.apply first) closed) []
      (Gives (Elaborate.module? file) fun found => ∃ loc d, found = some ⟨module, [.trait d], loc⟩ ∧
        IsTrait name (ops.foldl TraitUse.apply first) d) := by
  have atEnd : Bars decl [] := bars_nil (refuses_of_match? 60 fun _ _ => ⟨_, rfl⟩)
  have noModule : Bars (.rule .moduleDecl) [] := bars_nil (refuses_of_match? 60 fun _ _ => ⟨_, rfl⟩)
  have declared := takes_one atEnd (takes_traitDecl file id operand operators closed)
  have token := Takes.rule (r := .moduleDecl) rfl ((takes_word "module" _).seq_then
    ((takes_qualifiedName isModule _).seq ((takes_word ";" _).seq_then declared)))
  refine takes_one noModule (token.imp fun nodes node => node.gives ?_)
  rintro pos text _ ⟨_, _, rfl, ⟨pos', xs, rfl, -⟩, t, _, rfl, done, d, rfl, good⟩
  refine ⟨_, ?_, Elaborate.locate file pos, d, rfl, good⟩
  rw [String.ofList_toList]
  show (do
    return some (Module.mk module (← [t].mapM (Elaborate.decl file))
      (Elaborate.locate file pos))) = _
  rw [List.mapM_cons, done]
  rfl

end Concrete

/-- Trait operators are read as a left fold of any length.  However a trait declaration with an
operand and operators behind it is laid out, it is read as the expression that applies them from
left to right, locations aside; and this refers to the named operands, from left to right. -/
theorem parseUnit_traitTokens (file : Option String) {module name : String} {first : TraitExpr}
    {ops : List TraitUse} (isModule : IsQualifiedName module) (id : isIdentifier name = true)
    (operand : first.IsOperand) (operators : ∀ u ∈ ops, u.IsOperator) (closed : Bool)
    {text : String}
    (laid : isLayout (traitTokens module name (ops.foldl TraitUse.apply first) closed)
      text.toList = true) :
    ∃ unit loc d, parseUnit file text = .ok unit ∧ unit.modules = [⟨module, [.trait d], loc⟩] ∧
      d.name = name ∧ d.expr.unlocated = (ops.foldl TraitUse.apply first).unlocated ∧
      d.expr.references =
        (first :: ops.filterMap TraitUse.expr?).filterMap TraitExpr.name? := by
  have modules := takes_modules file isModule id operand operators closed
  obtain ⟨pos, _, parsed, _, _, rfl, ⟨t, _, rfl, done, loc, d, rfl, named, same⟩, _, _, rfl, -⟩ :=
    exists_parseTree file (spells_unit_of_takes modules laid)
  refine ⟨⟨file, [⟨module, [.trait d], loc⟩]⟩, loc, d, parseUnit_eq_ok parsed ?_, rfl, named, same,
    ?_⟩
  · show (do
      return CompilationUnit.mk file (← [t, _].filterMapM (Elaborate.module? file))) = _
    rw [List.filterMapM_cons, done]
    rfl
  · rw [← d.expr.references_unlocated, same, TraitExpr.references_unlocated,
      TraitUse.references_foldl_apply operators, operand.references, List.filterMap_cons,
      List.filterMap_filterMap]
    cases first.name? <;> rfl

/-- A signature with an annotation, type arguments and parameters. -/
def pairedSig : Signature :=
  ⟨"pair", ⟨"Fut", [.named "Int", ⟨"lib.Set", [.named "Bool"], []⟩], ["Near"]⟩,
    [⟨"skipped", .named "Int", none⟩, ⟨"b", .named "Bool", none⟩], none⟩

/-- Operands with names that start with reserved words, and sets with and without elements. -/
def braidedOps : List TraitUse :=
  [.adds (.ref "lib.adds_" none),
    .removes [pairedSig, ⟨"m", .named "Unit", [], none⟩],
    .modifies (.set [.ofVersion ⟨pairedSig, [.skip none]⟩]),
    .adds (.set []), .removes [], .modifies (.ref "removesAll" none)]

/-- The pieces of a text with these operators. -/
def braidedLines : List String :=
  ["// all\nmodule a.M; trait X = T ", "adds lib.adds_ removes \x7b [Near] ",
    "Fut<Int, lib.Set<Bool>> pair", "(Int skipped, Bool b); Unit m(); \x7d ",
    "modifies\x7b[Near]Fut<Int,lib.Set<Bool>>", "pair(Int skipped,Bool b)\x7bskip;\x7d\x7d\n",
    "adds \x7b \x7d removes \x7b\x7d ", "/* last */ modifies removesAll "]

def braidedText : String := String.ofList (braidedLines.flatMap String.toList)

theorem writable_pairedSig : pairedSig.Writable where
  name := by decide
  ret := by
    have set : IsQualifiedName ("lib" ++ "." ++ "Set") :=
      .member (by decide) (.identifier (by decide))
    exact ⟨.identifier (by decide), by decide, ⟨.identifier (by decide), by decide, trivial⟩,
      ⟨set, by decide, ⟨.identifier (by decide), by decide, trivial⟩, trivial⟩, trivial⟩
  params := by
    have int : (TypeUse.named "Int").Writable := ⟨.identifier (by decide), by decide, trivial⟩
    have bool : (TypeUse.named "Bool").Writable := ⟨.identifier (by decide), by decide, trivial⟩
    simp only [pairedSig, List.forall_mem_cons]
    exact ⟨⟨by decide, int⟩, ⟨by decide, bool⟩, List.forall_mem_nil _⟩

theorem isOperator_of_mem_braidedOps : ∀ u ∈ braidedOps, u.IsOperator := by
  have qualified : IsQualifiedName ("lib" ++ "." ++ "adds_") :=
    .member (by decide) (.identifier (by decide))
  have plain : Signature.Writable ⟨"m", .named "Unit", [], none⟩ :=
    ⟨by decide, ⟨.identifier (by decide), by decide, trivial⟩, List.forall_mem_nil _⟩
  simp only [braidedOps, List.forall_mem_cons]
  exact ⟨qualified, List.forall_mem_cons.2 ⟨writable_pairedSig, List.forall_mem_singleton.2 plain⟩,
    List.forall_mem_singleton.2 ⟨writable_pairedSig, rfl⟩, List.forall_mem_nil _,
    List.forall_mem_nil _, .identifier (by decide), List.forall_mem_nil _⟩

theorem parseUnit_traitTokens_braidedText :
    ∃ unit loc d, parseUnit (some "a.abs") braidedText = .ok unit ∧
      unit.modules = [⟨"a.M", [.trait d], loc⟩] ∧ d.name = "X" ∧
      d.expr.unlocated = (braidedOps.foldl TraitUse.apply (.ref "T" none)).unlocated ∧
      d.expr.references = ["T", "lib.adds_", "removesAll"] := by
  have isModule : IsQualifiedName ("a" ++ "." ++ "M") :=
    .member (by decide) (.identifier (by decide))
  have operand : (TraitExpr.ref "T" none).IsOperand := IsQualifiedName.identifier (by decide)
  have laid : isLayout (traitTokens "a.M" "X" (braidedOps.foldl TraitUse.apply (.ref "T" none))
      false) braidedText.toList = true := by
    rw [braidedText, String.toList_ofList]
    decide +kernel
  exact parseUnit_traitTokens (some "a.abs") isModule (by decide) operand
    isOperator_of_mem_braidedOps false laid

end DeltaLang
