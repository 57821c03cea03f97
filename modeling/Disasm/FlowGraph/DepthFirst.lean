/-! # Depth-first search

A search from a vertex finds the vertices that it reaches through others that
were not seen before. They are listed in reverse order of completion: a vertex
before all that was found from it, and what a later successor finds before what
an earlier one finds.
-/

namespace Disasm.DepthFirst

variable {α : Type} [DecidableEq α]

/-- Visits some vertices in turn; each visit has seen what the visits before it found. -/
def sweep (visit : List α → α → List α) : List α → List α → List α
  | _, [] => []
  | seen, v :: vs =>
    let found := visit seen v
    sweep visit (found ++ seen) vs ++ found

/-- Visits a vertex and what it reaches, on search paths of at most `depth` vertices. -/
def visit (successors : α → List α) : Nat → List α → α → List α
  | 0, _, _ => []
  | depth + 1, seen, v =>
    if v ∈ seen then []
    else v :: sweep (visit successors depth) (v :: seen) (successors v)

/-- Visits those of some vertices that were not found from the ones before them; one group
of found vertices for each. -/
def forest (successors : α → List α) (depth : Nat) : List α → List α → List (List α)
  | _, [] => []
  | seen, v :: vs =>
    if v ∈ seen then forest successors depth seen vs
    else
      let found := visit successors depth seen v
      found :: forest successors depth (found ++ seen) vs

end Disasm.DepthFirst
