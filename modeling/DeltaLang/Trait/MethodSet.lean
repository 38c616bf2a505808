import DeltaLang.Diagnostic
import DeltaLang.Program.Method

/-!
# Method sets

An ordered set of methods with distinct names: adding appends, replacing keeps the place of the
replaced method, and removing closes the gap.  The three operators of the trait algebra act on
method sets; a name that is taken, or missing, is reported and the operation goes on without it.
-/

namespace DeltaLang

/-- Methods in order, no two of one name. -/
structure MethodSet where
  methods : List Method
  distinct : (methods.map (·.name)).Nodup

namespace MethodSet

/-- The set without methods. -/
def empty : MethodSet := ⟨[], by simp⟩

instance : Inhabited MethodSet := ⟨empty⟩

theorem ext {a b : MethodSet} (h : a.methods = b.methods) : a = b := by
  cases a; cases b; simp_all

def names (s : MethodSet) : List String := s.methods.map (·.name)

def get? (s : MethodSet) (name : String) : Option Method :=
  s.methods.find? (fun m => m.name == name)

def contains (s : MethodSet) (name : String) : Bool := s.methods.any (fun m => m.name == name)

theorem contains_iff {s : MethodSet} {name : String} :
    s.contains name = true ↔ name ∈ s.names := by
  simp [contains, names]

/-! ## Single methods -/

/-- The methods with `m` in the place of the method of its name. -/
def put (m : Method) (ms : List Method) : List Method :=
  ms.map fun old => if old.name = m.name then m else old

theorem map_name_put (m : Method) (ms : List Method) :
    (put m ms).map (·.name) = ms.map (·.name) := by
  simp only [put, List.map_map]
  apply List.map_congr_left
  intro old _
  by_cases h : old.name = m.name <;> simp [h]

theorem nodup_append {ms : List Method} {m : Method} (hms : (ms.map (·.name)).Nodup)
    (hm : m.name ∉ ms.map (·.name)) : ((ms ++ [m]).map (·.name)).Nodup := by
  rw [List.map_append, List.map_singleton, List.nodup_append]
  refine ⟨hms, by simp, ?_⟩
  rintro a ha b hb rfl
  exact hm (List.mem_singleton.1 hb ▸ ha)

/-- Adds a method, unless its name is taken. -/
def insert? (s : MethodSet) (m : Method) : Option MethodSet :=
  if h : m.name ∈ s.names then none else some ⟨s.methods ++ [m], nodup_append s.distinct h⟩

/-- Puts a method in the place of the one of its name, or at the end if there is none. -/
def replace (s : MethodSet) (m : Method) : MethodSet :=
  if h : m.name ∈ s.names then ⟨put m s.methods, map_name_put m s.methods ▸ s.distinct⟩
  else ⟨s.methods ++ [m], nodup_append s.distinct h⟩

/-- Removes the method of that name, if there is one. -/
def erase (s : MethodSet) (name : String) : MethodSet where
  methods := s.methods.filter (fun m => m.name ≠ name)
  distinct := List.Nodup.sublist (List.Sublist.map _ List.filter_sublist) s.distinct

/-- Puts a method in the place of the one of its name, which becomes its earlier version; a new
name is added at the end. -/
def modify (s : MethodSet) (m : Method) : MethodSet :=
  s.replace (match s.get? m.name with
    | some old => m.replacing old
    | none => m)

/-! ## The operators of the trait algebra -/

/-- The finding that a method's name is taken. -/
def duplicate (what : String) (m : Method) : Diagnostic :=
  .errorAt .duplicateMethod ("method " ++ m.name ++ " is " ++ what) m.sig.loc

/-- Adds methods in order.  One whose name is taken is reported as `what` and left out. -/
def insertAll (what : String) (s : MethodSet) : List Method → MethodSet × Diagnostics
  | [] => (s, [])
  | m :: ms =>
    match s.insert? m with
    | some s' => insertAll what s' ms
    | none =>
      let (s', ds) := insertAll what s ms
      (s', duplicate what m :: ds)

/-- The union of two sets; a shared name keeps the method of the first and is reported. -/
def addAll (base extra : MethodSet) : MethodSet × Diagnostics :=
  base.insertAll "already present" extra.methods

/-- Puts every method of the second set in front of the version in the first. -/
def modifyAll (base extra : MethodSet) : MethodSet := extra.methods.foldl modify base

/-- The finding that there is no method to remove. -/
def missing (sig : Signature) : Diagnostic :=
  .errorAt .removeMissingMethod ("cannot remove method " ++ sig.name ++ ": no such method") sig.loc

/-- Removes the methods of those names in order; a missing name is reported. -/
def removeAll (s : MethodSet) : List Signature → MethodSet × Diagnostics
  | [] => (s, [])
  | sig :: sigs =>
    if s.contains sig.name then removeAll (s.erase sig.name) sigs
    else
      let (s', ds) := removeAll s sigs
      (s', missing sig :: ds)

end MethodSet

end DeltaLang
