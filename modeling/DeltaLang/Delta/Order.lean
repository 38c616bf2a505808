import DeltaLang.Program.Decl

/-!
# Ordering deltas

The `after` and `before` clauses of a list of deltas are edges between positions of the list, from
the delta that comes first to the one that follows.  A stable order places, again and again, the
earliest delta all of whose predecessors are placed.  It exists if the edges have no cycle;
otherwise the deltas that cannot be placed are named.
-/

namespace DeltaLang

namespace DeltaOrder

abbrev Edge := Nat × Nat

/-- Whether an edge comes before another one: by its source, then by its target. -/
def edgeLt (a b : Edge) : Bool := a.1 < b.1 || (a.1 == b.1 && a.2 < b.2)

/-- Puts an edge into a strictly ascending list, unless it is there. -/
def insertEdge (e : Edge) : List Edge → List Edge
  | [] => [e]
  | f :: fs =>
    if edgeLt e f then e :: f :: fs
    else if edgeLt f e then f :: insertEdge e fs
    else f :: fs

/-- The position of the first delta of that name. -/
def indexOf? (ds : List DeltaDecl) (name : String) : Option Nat :=
  ds.findIdx? (fun d => d.name == name)

/-- The edges that the clauses of the delta at position `i` ask for; names that are not in the
list are passed over. -/
def clauseEdges (ds : List DeltaDecl) (d : DeltaDecl) (i : Nat) : List Edge :=
  (d.after.filterMap (indexOf? ds)).map (fun j => (j, i)) ++
    (d.before.filterMap (indexOf? ds)).map (fun j => (i, j))

/-- All edges, in ascending order, each once. -/
def edges (ds : List DeltaDecl) : List Edge :=
  (ds.zipIdx.flatMap fun (d, i) => clauseEdges ds d i).foldr insertEdge []

/-! ## Placing -/

/-- Puts a position into a strictly ascending list, unless it is there. -/
def insertIndex (i : Nat) : List Nat → List Nat
  | [] => [i]
  | j :: js => if i < j then i :: j :: js else if j < i then j :: insertIndex i js else j :: js

/-- How far the placing is: for each position the number of its edges from positions not placed,
the positions ready to be placed in ascending order, and those placed. -/
structure Progress where
  waiting : List Nat
  ready : List Nat
  placed : List Nat

/-- The number of edges into a position. -/
def inDegree (es : List Edge) (i : Nat) : Nat := es.countP (·.2 == i)

/-- Nothing is placed yet, and what has no predecessor is ready. -/
def Progress.initial (n : Nat) (es : List Edge) : Progress where
  waiting := (List.range n).map (inDegree es)
  ready := (List.range n).filter (inDegree es · == 0)
  placed := []

/-- Counts one edge into a position as done; with the last one the position becomes ready. -/
def Progress.release (st : Progress) (i : Nat) : Progress :=
  let left := st.waiting.getD i 0 - 1
  { st with
    waiting := st.waiting.set i left
    ready := if left = 0 then insertIndex i st.ready else st.ready }

/-- Places the first ready position, again and again.  The first argument bounds how often. -/
def place (es : List Edge) : Nat → Progress → Progress
  | 0, st => st
  | n + 1, st =>
    match st.ready with
    | [] => st
    | i :: ready =>
      let next := { st with ready := ready, placed := st.placed ++ [i] }
      place es n ((es.filter (·.1 == i)).foldl (fun st e => st.release e.2) next)

/-- The positions of the deltas in a stable order, or the names of the deltas that cannot be
placed because of a cycle. -/
def order (ds : List DeltaDecl) : Except (List String) (List Nat) :=
  let es := edges ds
  let placed := (place es ds.length (Progress.initial ds.length es)).placed
  if placed.length = ds.length then .ok placed
  else .error ((ds.zipIdx.filter fun (_, i) => i ∉ placed).map fun (d, _) => d.name)

end DeltaOrder

end DeltaLang
