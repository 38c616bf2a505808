/-!
# Rules of the concrete form

The rules of the language's grammar, in their order.  The order and the names show in syntax
errors, which list the rules expected at the place of the error.
-/

namespace DeltaLang

/-- A rule of the grammar that yields a node of the parse tree or is named in syntax errors. -/
inductive Rule where
  | endOfInput
  | keyword
  | identifier
  | qualifiedName
  | unit
  | moduleDecl
  | bracketed
  | typeUse
  | param
  | methodSig
  | interfaceDecl
  | extendsClause
  | classDecl
  | classParams
  | implementsClause
  | initBlock
  | recoverBlock
  | methodImpl
  | fieldDecl
  | traitUse
  | traitUseModifies
  | traitUseRemoves
  | sigSet
  | traitDecl
  | traitExpr
  | methodSet
  | traitRef
  | traitAdds
  | traitModifies
  | traitRemoves
  | deltaDecl
  | deltaAfter
  | deltaBefore
  | deltaWhen
  | deltaUses
  | appCond
  | appAnd
  | appNot
  | appFeature
  | deltaAdds
  | deltaRemoves
  | removesClass
  | removesInterface
  | removesTrait
  | modifiesClass
  | addedInterfaces
  | classAdds
  | classModifies
  | classRemoves
  | removedMethod
  | removedField
  | modifiesInterface
  | interfaceAdds
  | interfaceRemoves
  | modifiesTrait
  | productDecl
  | block
  | varDecl
  | assignStmt
  | exprStmt
  | returnStmt
  | skipStmt
  | ifStmt
  | whileStmt
  | orExpr
  | andExpr
  | eqExpr
  | eqOp
  | relExpr
  | relOp
  | addExpr
  | addOp
  | mulExpr
  | mulOp
  | unaryExpr
  | unaryOp
  | postfixExpr
  | syncCall
  | asyncCall
  | getSuffix
  | newExpr
  | localKw
  | originalCall
  | thisField
  | thisExpr
  | boolLit
  | nullLit
  | varRef
  | intLit
  | stringLit
  | stringInner
deriving DecidableEq, Inhabited, Repr

namespace Rule

/-- Every rule, once, in their order. -/
def all : List Rule :=
  [.endOfInput, .keyword, .identifier, .qualifiedName, .unit, .moduleDecl, .bracketed,
    .typeUse, .param, .methodSig, .interfaceDecl, .extendsClause, .classDecl, .classParams,
    .implementsClause, .initBlock, .recoverBlock, .methodImpl, .fieldDecl, .traitUse,
    .traitUseModifies, .traitUseRemoves, .sigSet, .traitDecl, .traitExpr, .methodSet,
    .traitRef, .traitAdds, .traitModifies, .traitRemoves, .deltaDecl, .deltaAfter,
    .deltaBefore, .deltaWhen, .deltaUses, .appCond, .appAnd, .appNot, .appFeature, .deltaAdds,
    .deltaRemoves, .removesClass, .removesInterface, .removesTrait, .modifiesClass,
    .addedInterfaces, .classAdds, .classModifies, .classRemoves, .removedMethod,
    .removedField, .modifiesInterface, .interfaceAdds, .interfaceRemoves, .modifiesTrait,
    .productDecl, .block, .varDecl, .assignStmt, .exprStmt, .returnStmt, .skipStmt, .ifStmt,
    .whileStmt, .orExpr, .andExpr, .eqExpr, .eqOp, .relExpr, .relOp, .addExpr, .addOp,
    .mulExpr, .mulOp, .unaryExpr, .unaryOp, .postfixExpr, .syncCall, .asyncCall, .getSuffix,
    .newExpr, .localKw, .originalCall, .thisField, .thisExpr, .boolLit, .nullLit, .varRef,
    .intLit, .stringLit, .stringInner]

/-- The name shown in syntax errors. -/
def name : Rule → String
  | endOfInput => "EOI"
  | keyword => "keyword"
  | identifier => "identifier"
  | qualifiedName => "qualified_name"
  | unit => "unit"
  | moduleDecl => "module_decl"
  | bracketed => "annotation"
  | typeUse => "type_use"
  | param => "param"
  | methodSig => "method_sig"
  | interfaceDecl => "interface_decl"
  | extendsClause => "extends_clause"
  | classDecl => "class_decl"
  | classParams => "class_params"
  | implementsClause => "implements_clause"
  | initBlock => "init_block"
  | recoverBlock => "recover_block"
  | methodImpl => "method_impl"
  | fieldDecl => "field_decl"
  | traitUse => "trait_use"
  | traitUseModifies => "trait_use_modifies"
  | traitUseRemoves => "trait_use_removes"
  | sigSet => "sig_set"
  | traitDecl => "trait_decl"
  | traitExpr => "trait_expr"
  | methodSet => "method_set"
  | traitRef => "trait_ref"
  | traitAdds => "trait_adds"
  | traitModifies => "trait_modifies"
  | traitRemoves => "trait_removes"
  | deltaDecl => "delta_decl"
  | deltaAfter => "delta_after"
  | deltaBefore => "delta_before"
  | deltaWhen => "delta_when"
  | deltaUses => "delta_uses"
  | appCond => "app_cond"
  | appAnd => "app_and"
  | appNot => "app_not"
  | appFeature => "app_feature"
  | deltaAdds => "delta_adds"
  | deltaRemoves => "delta_removes"
  | removesClass => "removes_class"
  | removesInterface => "removes_interface"
  | removesTrait => "removes_trait"
  | modifiesClass => "modifies_class"
  | addedInterfaces => "added_interfaces"
  | classAdds => "class_adds"
  | classModifies => "class_modifies"
  | classRemoves => "class_removes"
  | removedMethod => "removed_method"
  | removedField => "removed_field"
  | modifiesInterface => "modifies_interface"
  | interfaceAdds => "interface_adds"
  | interfaceRemoves => "interface_removes"
  | modifiesTrait => "modifies_trait"
  | productDecl => "product_decl"
  | block => "block"
  | varDecl => "var_decl"
  | assignStmt => "assign_stmt"
  | exprStmt => "expr_stmt"
  | returnStmt => "return_stmt"
  | skipStmt => "skip_stmt"
  | ifStmt => "if_stmt"
  | whileStmt => "while_stmt"
  | orExpr => "or_expr"
  | andExpr => "and_expr"
  | eqExpr => "eq_expr"
  | eqOp => "eq_op"
  | relExpr => "rel_expr"
  | relOp => "rel_op"
  | addExpr => "add_expr"
  | addOp => "add_op"
  | mulExpr => "mul_expr"
  | mulOp => "mul_op"
  | unaryExpr => "unary_expr"
  | unaryOp => "unary_op"
  | postfixExpr => "postfix_expr"
  | syncCall => "sync_call"
  | asyncCall => "async_call"
  | getSuffix => "get_suffix"
  | newExpr => "new_expr"
  | localKw => "local_kw"
  | originalCall => "original_call"
  | thisField => "this_field"
  | thisExpr => "this_expr"
  | boolLit => "bool_lit"
  | nullLit => "null_lit"
  | varRef => "var_ref"
  | intLit => "int_lit"
  | stringLit => "string_lit"
  | stringInner => "string_inner"

theorem mem_all (r : Rule) : r ∈ all := by cases r <;> decide

end Rule

end DeltaLang
