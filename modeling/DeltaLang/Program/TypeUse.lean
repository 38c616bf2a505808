/-!
# Uses of types

A type is used by its name, with type arguments and bracketed annotations, as in
`[Near] Service` or `Fut<Bool>`.  Annotations are kept but are no part of the written type.
-/

namespace DeltaLang

/-- A type as it is written: `[a] [b] Name<args>`. -/
structure TypeUse where
  name : String
  args : List TypeUse
  annotations : List String
deriving Inhabited

namespace TypeUse

/-- The type with no arguments and no annotations. -/
def named (name : String) : TypeUse := ⟨name, [], []⟩

def isAnnotated (t : TypeUse) (a : String) : Bool := t.annotations.contains a

mutual

/-- The written form, `Name<arg, arg>`, without annotations. -/
def text : TypeUse → String
  | ⟨name, [], _⟩ => name
  | ⟨name, arg :: args, _⟩ => name ++ "<" ++ text arg ++ textMore args ++ ">"

/-- The arguments after the first, each after a comma. -/
def textMore : List TypeUse → String
  | [] => ""
  | arg :: args => ", " ++ text arg ++ textMore args

end

/-! ## Equality -/

mutual

/-- Equality of type uses is decidable. -/
def decEq : (a b : TypeUse) → Decidable (a = b)
  | ⟨n₁, as₁, ns₁⟩, ⟨n₂, as₂, ns₂⟩ =>
    if hn : n₁ = n₂ then
      if hns : ns₁ = ns₂ then
        match decEqList as₁ as₂ with
        | isTrue h => isTrue (by rw [hn, h, hns])
        | isFalse h => isFalse fun e => h (congrArg TypeUse.args e)
      else isFalse fun e => hns (congrArg TypeUse.annotations e)
    else isFalse fun e => hn (congrArg TypeUse.name e)

/-- Equality of lists of type uses is decidable. -/
def decEqList : (as bs : List TypeUse) → Decidable (as = bs)
  | [], [] => isTrue rfl
  | [], _ :: _ => isFalse (by simp)
  | _ :: _, [] => isFalse (by simp)
  | a :: as, b :: bs =>
    match decEq a b, decEqList as bs with
    | isTrue h, isTrue hs => isTrue (by rw [h, hs])
    | isFalse h, _ => isFalse fun e => h (List.cons.inj e).1
    | _, isFalse hs => isFalse fun e => hs (List.cons.inj e).2

end

instance : DecidableEq TypeUse := decEq

end TypeUse

end DeltaLang
