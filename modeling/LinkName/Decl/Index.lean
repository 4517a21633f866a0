import LinkName.Decl.TypeNode

/-!
Type nodes by place and places by node. A list of nodes answers which node stands at a place; its
index answers at which place a node stands, the first if there are several, without going through
the list. The two are kept together, so that neither can be ahead of the other.
-/
namespace LinkName

/-- The places of `nodes`. -/
structure Index (nodes : List TypeNode) where
  entries : List (TypeNode × Nat)
  lookup_eq (node : TypeNode) : entries.lookup node = nodes.idxOf? node
  deriving Repr

namespace Index

theorem lookup_zipIdx (nodes : List TypeNode) (node : TypeNode) (start : Nat) :
    (nodes.zipIdx start).lookup node = (nodes.idxOf? node).map (· + start) := by
  induction nodes generalizing start with
  | nil => rfl
  | cons first rest ih =>
      rw [List.zipIdx_cons, List.lookup_cons, List.idxOf?_cons]
      by_cases same : first = node
      · simp [same]
      · simp only [beq_eq_false_iff_ne.mpr same, beq_eq_false_iff_ne.mpr (Ne.symm same), ih]
        cases rest.idxOf? node with
        | none => rfl
        | some place => exact congrArg some (show place + (start + 1) = place + 1 + start by omega)

/-- The index of a list that is given at once. -/
def of (nodes : List TypeNode) : Index nodes where
  entries := nodes.zipIdx
  lookup_eq node := by simp [lookup_zipIdx]

variable {nodes : List TypeNode}

def find? (index : Index nodes) (node : TypeNode) : Option Nat := index.entries.lookup node

/-- The index after `node` has been added to the list. -/
def insert (index : Index nodes) (node : TypeNode) : Index (nodes ++ [node]) where
  entries := index.entries ++ [(node, nodes.length)]
  lookup_eq other := by
    rw [List.lookup_append, index.lookup_eq]
    unfold List.idxOf?
    rw [List.findIdx?_append]
    by_cases same : node = other
    · simp [same]
    · simp [List.lookup_cons, beq_eq_false_iff_ne.mpr (Ne.symm same), same]

@[simp] theorem find?_eq (index : Index nodes) (node : TypeNode) :
    index.find? node = nodes.idxOf? node := index.lookup_eq node

end Index

end LinkName
