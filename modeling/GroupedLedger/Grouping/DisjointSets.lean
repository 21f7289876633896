namespace GroupedLedger

/-- A parent and a rank for each number. A root is its own parent. -/
structure DisjointSets where
  parent : Array Nat
  rank : Array Nat

namespace DisjointSets

def singletons (count : Nat) : DisjointSets :=
  ⟨(List.range count).toArray, Array.replicate count 0⟩

/-- The parent of a node; a number out of range is on its own. -/
def up (sets : DisjointSets) (node : Nat) : Nat := sets.parent.getD node node

/-- Walks up at most `steps` times, linking each node passed to its grandparent. -/
def climb : Nat → DisjointSets → Nat → Nat × DisjointSets
  | 0, sets, node => (node, sets)
  | steps + 1, sets, node =>
    if sets.up node = node then (node, sets)
    else
      let grandparent := sets.up (sets.up node)
      climb steps { sets with parent := sets.parent.setIfInBounds node grandparent } grandparent

/-- The root over a node. No path is longer than there are nodes. -/
def find (sets : DisjointSets) (node : Nat) : Nat × DisjointSets :=
  sets.climb sets.parent.size node

/-- Unites the sets of two nodes. Of two roots of one rank the first stays a root. -/
def unite (sets : DisjointSets) (a b : Nat) : DisjointSets :=
  let (a, sets) := sets.find a
  let (b, sets) := sets.find b
  if a = b then sets
  else
    let rankA := sets.rank.getD a 0
    let rankB := sets.rank.getD b 0
    if rankA < rankB then { sets with parent := sets.parent.setIfInBounds a b }
    else if rankB < rankA then { sets with parent := sets.parent.setIfInBounds b a }
    else ⟨sets.parent.setIfInBounds b a, sets.rank.setIfInBounds a (rankA + 1)⟩

def root (sets : DisjointSets) (node : Nat) : Nat := (sets.find node).1

/-- The roots over some nodes, each found in the trees as the one before it left them. -/
def roots (sets : DisjointSets) : List Nat → List Nat
  | [] => []
  | node :: nodes =>
    let (top, sets) := sets.find node
    top :: sets.roots nodes

end DisjointSets
end GroupedLedger
