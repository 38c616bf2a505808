import DeltaLang.Proofs.Reading.Written

/-!
# Reading a method that returns what is written

A module with one class, which has one method, which returns an expression, is parsed, and the
expression that the method returns is the written one.
-/

namespace DeltaLang

open Grammar Concrete

/-- A text in braces. -/
def inBraces (text : List Char) : List Char := ['{'] ++ ([' '] ++ (text ++ ([' '] ++ ['}'])))

/-- The text of a method that returns a value. -/
def methodText (method : String) (value : List Char) : List Char :=
  "Int".toList ++ [' '] ++ (method.toList ++ ("(".toList ++ ")".toList)) ++
    ([' '] ++ inBraces ("return".toList ++ ([' '] ++ (value ++ ";".toList))))

/-- The text of a class with one method. -/
def classText (cls method : String) (value : List Char) : List Char :=
  "class".toList ++ ([' '] ++ (cls.toList ++ ([' '] ++ inBraces (methodText method value))))

/-- The text of a module with one class. -/
def moduleText (module cls method : String) (value : List Char) : List Char :=
  "module".toList ++ ([' '] ++ (module.toList ++ (";".toList ++ ([' '] ++
    classText cls method value))))

/-- The text of a module with one class and one method, which returns the expression. -/
def returning (gap : List Char) (module cls method : String) (e : Expr) : String :=
  String.ofList (moduleText module cls method (e.written gap ++ gap))

/-- The body returns the expression, aside from locations, and does nothing else. -/
def Block.Returns (e : Expr) (body : Block) : Prop :=
  ∃ e' loc, body = [.ret e' loc] ∧ e'.unlocated = e.unlocated

/-- The method has that name and returns the expression. -/
def Method.Returns (method : String) (e : Expr) (m : Method) : Prop :=
  m.sig.name = method ∧ Block.Returns e m.body

/-- The class has that name and only such a method. -/
def ClassDecl.Returns (cls method : String) (e : Expr) (c : ClassDecl) : Prop :=
  c.name = cls ∧ ∃ m, c.methods = [m] ∧ m.Returns method e

/-- The module has that name and only such a class. -/
def Module.Returns (module cls method : String) (e : Expr) (m : Module) : Prop :=
  m.name = module ∧ ∃ c, m.decls = [.class c] ∧ c.Returns cls method e

namespace Concrete

section

variable (file : Option String) {cs rest : List Char} {e : Expr}

theorem spells_space (solid : Place.Solid rest) :
    grammar.Spells .skip .normal [' '] rest Silent :=
  spells_skip (List.forall_mem_singleton.2 rfl) solid

theorem spells_returnStmt (solid : ∀ rest, Place.Solid (cs ++ rest))
    (value : ∀ rest, Closed rest → grammar.Spells expr .normal cs rest (Yields file e)) :
    grammar.Spells stmt .normal ("return".toList ++ ([' '] ++ (cs ++ ";".toList))) rest
      (Gives (Elaborate.stmt file) fun s => ∃ e' loc, s = .ret e' loc ∧
        e'.unlocated = e.unlocated) := by
  have closed : Closed (";".toList ++ rest) := .semicolon rest
  have earlier : grammar.Refuses (.choice [.rule .varDecl, .rule .assignStmt, .rule .exprStmt])
      .normal ("return".toList ++ ([' '] ++ (cs ++ ";".toList)) ++ rest) := by
    show grammar.Refuses _ .normal
      ('r' :: 'e' :: 't' :: 'u' :: 'r' :: 'n' :: ' ' :: (cs ++ ";".toList ++ rest))
    exact refuses_of_match? 60 fun _ _ => ⟨_, rfl⟩
  have ended := Spells.seq_before (spells_skip_nil closed.solid) (value _ closed)
    (spells_lit .normal ";".toList rest)
  have token := (Spells.seq_then (spells_space (Place.solid_append solid _ _))
    (spells_lit .normal "return".toList _) ended).rule_normal (r := Rule.returnStmt) rfl
  refine earlier.or_choice (Spells.choice (token.imp fun ts node => node.gives ?_))
  rintro pos _ ⟨t, e', rfl, done, same⟩
  refine ⟨.ret e' (Elaborate.locate file pos), ?_, e', _, rfl, same⟩
  show (do return Stmt.ret (← Elaborate.expr file t) (Elaborate.locate file pos)) = _
  rw [done]
  rfl

/-- Something between braces that is repeated no further. -/
theorem spells_inBraces {a : Peg Rule} {P : List Elaborate.Tree → Prop}
    (solid : ∀ rest, Place.Solid (cs ++ rest))
    (only : ∀ rest, grammar.Spells a .normal cs rest P)
    (stop : ∀ rest, grammar.Refuses a .normal ('}' :: rest)) (rest : List Char) :
    grammar.Spells (.sequence [leftBrace, .many a, rightBrace]) .normal (inBraces cs) rest P := by
  have close : Place.Solid (['}'] ++ rest) := Place.solid_cons (by decide) (by decide)
  have once := (only ([' '] ++ (['}'] ++ rest))).many_one
    ((spells_space close).refuses_cat (stop rest))
  have closed := Spells.seq_before (spells_space close) once (spells_lit .normal ['}'] rest)
  exact Spells.seq_then (spells_space (Place.solid_append solid _ _)) (spells_lit .normal ['{'] _)
    closed

/-- No statement starts with a closing brace. -/
theorem refuses_stmt (rest : List Char) : grammar.Refuses stmt .normal ('}' :: rest) := by
  refine refuses_choice ?_
  simp only [List.forall_mem_cons]
  refine ⟨?_, ?_, ?_, ?_, ?_, ?_, ?_, List.forall_mem_nil _⟩
  all_goals exact refuses_of_match? 60 fun _ _ => ⟨_, rfl⟩

theorem spells_block (solid : ∀ rest, Place.Solid (cs ++ rest))
    (value : ∀ rest, Closed rest → grammar.Spells expr .normal cs rest (Yields file e))
    (rest : List Char) :
    grammar.Spells (.rule .block) .normal
      (inBraces ("return".toList ++ ([' '] ++ (cs ++ ";".toList)))) rest
      (Gives (Elaborate.block file) (Block.Returns e)) := by
  have start (rest : List Char) :
      Place.Solid ("return".toList ++ ([' '] ++ (cs ++ ";".toList)) ++ rest) :=
    Place.solid_append (Place.solid_word (by decide)) _ _
  have token := (spells_inBraces start (fun _ => spells_returnStmt file solid value)
    refuses_stmt rest).rule_normal
    (r := Rule.block) rfl
  refine token.imp fun ts node => node.gives ?_
  rintro pos _ ⟨t, _, rfl, done, e', loc, rfl, same⟩
  refine ⟨[.ret e' loc], ?_, e', loc, rfl, same⟩
  show (do return [← Elaborate.stmt file t]) = _
  rw [done]
  rfl

/-! ## The method -/

theorem spells_typeUse (solid : Place.Solid rest)
    (stop : grammar.Refuses (.word "<") .normal rest) :
    grammar.Spells (.rule .typeUse) .normal ("Int".toList ++ [' ']) rest
      (Gives Elaborate.typeUse fun t => t = .named "Int") := by
  have plain : grammar.Refuses (.rule .bracketed) .normal ("Int".toList ++ [' '] ++ rest) := by
    show grammar.Refuses _ .normal ('I' :: 'n' :: 't' :: ' ' :: rest)
    exact refuses_of_match? 60 fun _ _ => ⟨_, rfl⟩
  have named : IsQualifiedName "Int" := .identifier (by decide)
  have name : grammar.Spells (.rule .qualifiedName) .normal "Int".toList ([' '] ++ rest)
      (NodeOf .qualifiedName "Int".toList Silent) := by
    refine named.spells (nameEnds_cons (by decide)) fun c next => ?_
    obtain rfl := Option.some.inj next
    decide
  have start : Place.Solid ("Int".toList ++ [' '] ++ rest) :=
    Place.solid_append (Place.solid_word (by decide)) _ _
  have token : grammar.Spells (.rule .typeUse) .normal ("Int".toList ++ [' ']) rest
      (NodeOf .typeUse _ (NodeOf .qualifiedName "Int".toList Silent)) :=
    (Spells.seq_then (spells_skip_nil start) plain.many
      (Spells.seq_blanks (spells_space solid) name stop.cat.opt)).rule_normal rfl
  refine token.imp fun ts node => node.gives ?_
  rintro pos _ ⟨pos', _, rfl, rfl⟩
  exact ⟨_, rfl, by rw [String.ofList_toList]; rfl⟩

theorem spells_methodSig {name : String} (id : isIdentifier name = true) (rest : List Char) :
    grammar.Spells (.rule .methodSig) .normal
      ("Int".toList ++ [' '] ++ (name.toList ++ ("(".toList ++ ")".toList))) rest
      (Gives (Elaborate.signature file) fun sig => sig.name = name ∧ sig.params = []) := by
  have opens := opens_of_isIdentifier id
  have close : Place.Solid (")".toList ++ rest) := Place.solid_word (by decide) rest
  have noParams : grammar.Refuses params .normal (')' :: rest) :=
    refuses_of_match? 60 fun _ _ => ⟨_, rfl⟩
  have empty := (Spells.seq_then (spells_skip_nil close) (spells_lit .normal "(".toList _)
    (Spells.seq_then (spells_skip_nil close) noParams.opt (spells_lit .normal ")".toList rest)) :)
  have paren : Place.Solid ("(".toList ++ ")".toList ++ rest) :=
    Place.solid_append (Place.solid_word (by decide)) _ _
  have named := (Spells.seq_before (spells_skip_nil paren)
    (spells_identifier id (nameEnds_cons (by decide))) empty :)
  have start : Place.Solid (name.toList ++ ("(".toList ++ ")".toList) ++ rest) :=
    Place.solid_append opens.solid _ _
  have noArguments : grammar.Refuses (.word "<") .normal
      (name.toList ++ ("(".toList ++ ")".toList) ++ rest) := by
    obtain ⟨c, cs, split, letter⟩ := exists_cons_of_isIdentifier id
    rw [split]
    exact refuses_mark_of_isNameChar (isNameChar_of_isNameStart letter) (by decide)
  have token : grammar.Spells (.rule .methodSig) .normal
      ("Int".toList ++ [' '] ++ (name.toList ++ ("(".toList ++ ")".toList))) rest
      (NodeOf .methodSig _ (Both (Gives Elaborate.typeUse fun t => t = .named "Int")
        (NodeOf .identifier name.toList Silent))) :=
    (Spells.seq (spells_skip_nil start) (spells_typeUse start noArguments) named :).rule_normal rfl
  refine token.imp fun ts node => node.gives ?_
  rintro pos _ ⟨_, _, rfl, ⟨t, _, rfl, done, rfl⟩, pos', _, rfl, rfl⟩
  refine ⟨⟨name, .named "Int", [], Elaborate.locate file pos⟩, ?_, rfl, rfl⟩
  rw [String.ofList_toList]
  show (do
    let ret ← Elaborate.typeUse t
    return Signature.mk name ret [] (Elaborate.locate file pos)) = _
  rw [done]
  rfl

/-- Whatever members the class has so far, the method is added behind them. -/
theorem spells_classMember {name : String} (id : isIdentifier name = true)
    (solid : ∀ rest, Place.Solid (cs ++ rest))
    (value : ∀ rest, Closed rest → grammar.Spells expr .normal cs rest (Yields file e))
    (rest : List Char) :
    grammar.Spells classMember .normal (methodText name cs) rest fun ts =>
      ∀ c, Gives (Elaborate.classPart file c)
        (fun c' => ∃ m, c' = { c with methods := c.methods ++ [m] } ∧ m.Returns name e) ts := by
  have earlier : grammar.Refuses
      (.choice [.rule .traitUse, .rule .recoverBlock, .rule .initBlock]) .normal
      (methodText name cs ++ rest) := by
    show grammar.Refuses _ .normal ('I' :: 'n' :: 't' :: ' ' ::
      (name.toList ++ ['(', ')'] ++ (' ' :: inBraces ("return".toList ++ ([' '] ++
        (cs ++ ";".toList)))) ++ rest))
    exact refuses_of_match? 60 fun _ _ => ⟨_, rfl⟩
  have token := (Spells.seq (spells_space (Place.solid_cons (by decide) (by decide)))
    (spells_methodSig file id _) (spells_block file solid value rest)).rule_normal
    (r := Rule.methodImpl) rfl
  refine earlier.or_choice (Spells.choice (token.imp fun ts node c => node.gives ?_))
  rintro pos _ ⟨_, _, rfl, ⟨s, sig, rfl, doneSig, named, -⟩, b, body, rfl, doneBody, returns⟩
  refine ⟨_, ?_, .ofVersion ⟨sig, body⟩, rfl, named, returns⟩
  show (do
    let m ← (do
      let sig ← Elaborate.signature file s
      return Method.ofVersion ⟨sig, ← Elaborate.block file b⟩)
    return { c with methods := c.methods ++ [m] }) = _
  rw [doneSig, doneBody]
  rfl

/-! ## The module -/

theorem spells_decl {cls name : String} (isClass : isIdentifier cls = true)
    (id : isIdentifier name = true) (solid : ∀ rest, Place.Solid (cs ++ rest))
    (value : ∀ rest, Closed rest → grammar.Spells expr .normal cs rest (Yields file e))
    (rest : List Char) :
    grammar.Spells decl .normal (classText cls name cs) rest
      (Gives (Elaborate.decl file) fun d => ∃ c, d = .class c ∧ c.Returns cls name e) := by
  have earlier : grammar.Refuses (.choice [.rule .interfaceDecl]) .normal
      (classText cls name cs ++ rest) := by
    show grammar.Refuses _ .normal ('c' :: 'l' :: 'a' :: 's' :: 's' :: ([' '] ++ (cls.toList ++
      ([' '] ++ inBraces (methodText name cs))) ++ rest))
    exact refuses_of_match? 60 fun _ _ => ⟨_, rfl⟩
  have brace : Place.Solid (inBraces (methodText name cs) ++ rest) :=
    Place.solid_cons (by decide) (by decide)
  have noParams : grammar.Refuses (.rule .classParams) .normal
      (inBraces (methodText name cs) ++ rest) := by
    show grammar.Refuses _ .normal ('{' :: (' ' :: (methodText name cs ++ [' ', '}']) ++ rest))
    exact refuses_of_match? 60 fun _ _ => ⟨_, rfl⟩
  have noInterfaces : grammar.Refuses (.rule .implementsClause) .normal
      (inBraces (methodText name cs) ++ rest) := by
    show grammar.Refuses _ .normal ('{' :: (' ' :: (methodText name cs ++ [' ', '}']) ++ rest))
    exact refuses_of_match? 60 fun _ _ => ⟨_, rfl⟩
  have stop (rest : List Char) : grammar.Refuses classMember .normal ('}' :: rest) :=
    refuses_of_match? 60 fun _ _ => ⟨_, rfl⟩
  have start (rest : List Char) : Place.Solid (methodText name cs ++ rest) :=
    Place.solid_cons (c := 'I') (by decide) (by decide)
  have members := spells_inBraces start (spells_classMember file id solid value) stop rest
  have header := (Spells.seq_then (spells_skip_nil brace) noParams.opt
    (Spells.seq_then (spells_skip_nil brace) noInterfaces.opt members :) :)
  have named := Spells.seq (spells_space brace)
    (spells_identifier isClass (nameEnds_cons (by decide))) header
  have spaced : Place.Solid (cls.toList ++ ([' '] ++ inBraces (methodText name cs)) ++ rest) :=
    Place.solid_append (solid_of_isIdentifier isClass) _ _
  have token := (Spells.seq_then (spells_space spaced) (spells_lit .normal "class".toList _)
    named).rule_normal (r := Rule.classDecl) rfl
  refine earlier.or_choice (Spells.choice (token.imp fun ts node => node.gives ?_))
  rintro pos _ ⟨_, ts, rfl, ⟨pos', _, rfl, rfl⟩, member⟩
  obtain ⟨t, _, rfl, done, m, rfl, returns⟩ := member
    ⟨cls, [], [], none, none, [], [], [], Elaborate.locate file pos⟩
  refine ⟨.class ⟨cls, [], [], none, none, [], [], [m], Elaborate.locate file pos⟩, ?_, _, rfl, rfl,
    m, rfl, returns⟩
  rw [String.ofList_toList]
  show (do
    let c ← [t].foldlM (Elaborate.classPart file)
      ⟨cls, [], [], none, none, [], [], [], Elaborate.locate file pos⟩
    return Decl.class c) = _
  rw [List.foldlM_cons, done]
  rfl

theorem spells_moduleDecl {module cls name : String} (isModule : IsQualifiedName module)
    (isClass : isIdentifier cls = true) (id : isIdentifier name = true)
    (solid : ∀ rest, Place.Solid (cs ++ rest))
    (value : ∀ rest, Closed rest → grammar.Spells expr .normal cs rest (Yields file e)) :
    grammar.Spells (.rule .moduleDecl) .normal (moduleText module cls name cs) []
      (Gives (Elaborate.module? file) fun found =>
        ∃ md, found = some md ∧ md.Returns module cls name e) := by
  have atEnd : grammar.Refuses decl .normal [] := refuses_of_match? 60 fun _ _ => ⟨_, rfl⟩
  have decls := (spells_decl file isClass id solid value []).many_one
    ((spells_skip_nil fun _ => rfl).refuses_cat atEnd)
  have body := Spells.seq_then (spells_space (Place.solid_cons (c := 'c') (by decide) (by decide)))
    (spells_lit .normal ";".toList _) decls
  have named := (Spells.seq (spells_skip_nil (Place.solid_cons (c := ';') (by decide) (by decide)))
    (isModule.spells (nameEnds_cons (by decide)) fun c next => by
      obtain rfl := Option.some.inj next
      decide) body :)
  have token := (Spells.seq_then (spells_space (Place.solid_append isModule.solid _ _))
    (spells_lit .normal "module".toList _) named).rule_normal (r := Rule.moduleDecl) rfl
  refine token.imp fun ts node => node.gives ?_
  rintro pos _ ⟨_, _, rfl, ⟨pos', _, rfl, rfl⟩, t, _, rfl, done, c, rfl, returns⟩
  refine ⟨some ⟨module, [.class c], Elaborate.locate file pos⟩, ?_, _, rfl, rfl, c, rfl, returns⟩
  rw [String.ofList_toList]
  show (do
    return some (Module.mk module (← [t].mapM (Elaborate.decl file))
      (Elaborate.locate file pos))) = _
  rw [List.mapM_cons, done]
  rfl

theorem spells_unit {module cls name : String} (isModule : IsQualifiedName module)
    (isClass : isIdentifier cls = true) (id : isIdentifier name = true)
    (solid : ∀ rest, Place.Solid (cs ++ rest))
    (value : ∀ rest, Closed rest → grammar.Spells expr .normal cs rest (Yields file e)) :
    grammar.Spells (.rule .unit) .normal (moduleText module cls name cs) []
      (NodeOf .unit (moduleText module cls name cs) (Both
        (Gives (Elaborate.module? file) fun found =>
          ∃ md, found = some md ∧ md.Returns module cls name e)
        (NodeOf .endOfInput [] Silent))) := by
  have nothing : Place.Solid [] := fun _ => rfl
  have atEnd : grammar.Refuses (.rule .moduleDecl) .normal [] :=
    refuses_of_match? 60 fun _ _ => ⟨_, rfl⟩
  have ended : grammar.Spells (.rule .endOfInput) .normal [] [] (NodeOf .endOfInput [] Silent) :=
    (spells_endOfText .normal).rule_normal rfl
  have modules := (spells_moduleDecl file isModule isClass id solid value).many_one
    ((spells_skip_nil nothing).refuses_cat atEnd)
  have whole := Spells.seq (spells_skip_nil nothing) modules ended
  rw [List.append_nil, List.append_nil] at whole
  have start : Place.Solid (moduleText module cls name cs ++ []) :=
    Place.solid_cons (c := 'm') (by decide) (by decide)
  exact (Spells.seq_then (spells_skip_nil start) (spells_empty .normal _) whole :).rule_normal rfl

end

end Concrete

theorem parseUnit_eq_ok {file : Option String} {text : String} {tree : ParseTree Rule}
    {unit : CompilationUnit} (parsed : parseTree file text = .ok tree)
    (read : Elaborate.unit file tree = .ok unit) : parseUnit file text = .ok unit := by
  simp only [parseUnit, parsed, bind, Except.bind, read]

/-- Full parentheses are undone: the text of a method that returns an expression is parsed, and the
method returns that expression, locations aside. -/
theorem parseUnit_returning (file : Option String) {gap : List Char}
    (blank : ∀ c ∈ gap, Place.isBlank c = true) {module cls method : String} {e : Expr}
    (isModule : IsQualifiedName module) (isClass : isIdentifier cls = true)
    (isMethod : isIdentifier method = true) (writable : e.Writable) :
    ∃ unit m, parseUnit file (returning gap module cls method e) = .ok unit ∧
      unit.modules = [m] ∧ m.Returns module cls method e := by
  have value : Reads file gap e := reads blank e writable
  have spells := spells_unit file isModule isClass isMethod (Place.solid_append value.solid gap)
    value.spells
  rw [← String.toList_ofList (l := moduleText module cls method (e.written gap ++ gap))] at spells
  obtain ⟨pos, _, parsed, _, _, rfl, ⟨t, _, rfl, done, m, rfl, returns⟩, pos', _, rfl, -⟩ :=
    exists_parseTree file spells
  refine ⟨⟨file, [m]⟩, m, parseUnit_eq_ok parsed ?_, rfl, returns⟩
  show (do
    return CompilationUnit.mk file (← [t, _].filterMapM (Elaborate.module? file))) = _
  rw [List.filterMapM_cons, done]
  rfl

/-- An expression with names that start with reserved words, a method named like the reading of a
future, both forms of calls, and creations within each other. -/
def intricate : Expr :=
  .binary .and
    (.binary .eq
      (.binary .sub (.var "newer" none) (.unary .neg (.int 1 none) none) none)
      (.get (.call (.call (.var "returned" none) "get" [] false none) "thisOne"
        [.str "new" none, .field "trueish" none] true none) none) none)
    (.original [.new "local_.Impl" [.new "A" [.null none, .bool false none] true none] false none]
      none) none

theorem writable_intricate : intricate.Writable := by
  have id : ∀ name ∈ ["newer", "returned", "get", "thisOne", "trueish", "local_", "Impl", "A"],
      isIdentifier name = true := by decide
  have cls : IsQualifiedName ("local_" ++ "." ++ "Impl") :=
    .member (id _ (by decide)) (.identifier (id _ (by decide)))
  have created : Expr.WritableAll
      [.new "local_.Impl" [.new "A" [.null none, .bool false none] true none] false none] :=
    ⟨⟨cls, ⟨.identifier (id _ (by decide)), trivial, trivial, trivial⟩, trivial⟩, trivial⟩
  have quotes : '"' ∉ "new".toList := by decide
  have called : Expr.Writable (.call (.call (.var "returned" none) "get" [] false none) "thisOne"
      [.str "new" none, .field "trueish" none] true none) :=
    ⟨⟨id _ (by decide), id _ (by decide), trivial⟩, id _ (by decide), quotes, id _ (by decide),
      trivial⟩
  have difference : Expr.Writable
      (.binary .sub (.var "newer" none) (.unary .neg (.int 1 none) none) none) :=
    ⟨id _ (by decide), by decide, by decide⟩
  exact ⟨⟨difference, called⟩, created⟩

theorem parseUnit_returning_intricate :
    ∃ unit m, parseUnit (some "a.abs")
        (returning [' '] "M" "newC" "isTrue" intricate) = .ok unit ∧
      unit.modules = [m] ∧ m.Returns "M" "newC" "isTrue" intricate :=
  parseUnit_returning (some "a.abs") (List.forall_mem_singleton.2 rfl) (.identifier (by decide))
    (by decide) (by decide) writable_intricate

end DeltaLang
