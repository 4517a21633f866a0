import LinkName.Decl.Graph

/-!
Types derived while a name is made: references for parameters passed by reference, thunks for lazy
ones, types without their `const`. They are numbered on from the types of the graph, which stays as
it is, and a derived node that the graph holds already keeps the graph's handle.
-/
namespace LinkName

structure Overlay (graph : Graph) where
  derived : List TypeNode := []
  /-- The way back from a derived node to its offset. -/
  index : Index derived := .of derived
  deriving Repr

namespace Overlay

variable {graph : Graph}

def type (overlay : Overlay graph) (id : TypeId) : Except Fault TypeNode :=
  match graph.types[id.index]? with
  | some node => .ok node
  | none =>
    match overlay.derived[id.index - graph.types.length]? with
    | some node => .ok node
    | none => .error (.noType id)

def intern (overlay : Overlay graph) (node : TypeNode) : TypeId × Overlay graph :=
  match graph.findType? node with
  | some id => (id, overlay)
  | none =>
    match overlay.index.find? node with
    | some offset => (⟨graph.types.length + offset⟩, overlay)
    | none =>
      (⟨graph.types.length + overlay.derived.length⟩,
        { derived := overlay.derived ++ [node], index := overlay.index.insert node })

def referenceTo (overlay : Overlay graph) (target : TypeId) : TypeId × Overlay graph :=
  overlay.intern { form := .reference target }

def pointerTo (overlay : Overlay graph) (target : TypeId) : TypeId × Overlay graph :=
  overlay.intern { form := .pointer target }

/-- The type `id` without its `const`. -/
def mutableOf (overlay : Overlay graph) (id : TypeId) : Except Fault (TypeId × Overlay graph) := do
  return overlay.intern (← overlay.type id).mutable

/-- A pointer to a C++ function without parameters that returns `result`. -/
def thunkOf (overlay : Overlay graph) (result : TypeId) : TypeId × Overlay graph :=
  let (function, overlay) := overlay.intern { form := .function { result } }
  overlay.pointerTo function

/-- The C++ type of a parameter. -/
def passed (overlay : Overlay graph) (param : Param) : TypeId × Overlay graph :=
  match param.passing with
  | .value => (param.type, overlay)
  | .ref | .out => overlay.referenceTo param.type
  | .lazy => overlay.thunkOf param.type

/-- The C++ type that a function of this signature returns. -/
def returned (overlay : Overlay graph) (signature : Signature) : TypeId × Overlay graph :=
  if signature.refResult then overlay.referenceTo signature.result
  else (signature.result, overlay)

/-- No chain of distinct symbols and types is longer. -/
def reach (overlay : Overlay graph) : Nat :=
  graph.symbols.length + graph.types.length + overlay.derived.length + 1

/-- The dimensions of nested arrays, outermost first, and the type of their elements. -/
def shapeWithin (overlay : Overlay graph) : Nat → TypeId → Except Fault (List Nat × TypeId)
  | 0, _ => .error .endless
  | fuel + 1, id => do
    match (← overlay.type id).form with
    | .staticArray dim element =>
      let (dims, base) ← overlay.shapeWithin fuel element
      return (dim :: dims, base)
    | _ => return ([], id)

def shape (overlay : Overlay graph) (id : TypeId) : Except Fault (List Nat × TypeId) :=
  overlay.shapeWithin overlay.reach id

theorem type_eq_ok_iff {overlay : Overlay graph} {id : TypeId} {node : TypeNode} :
    overlay.type id = .ok node ↔ (graph.types ++ overlay.derived)[id.index]? = some node := by
  unfold type
  by_cases inside : id.index < graph.types.length
  · rw [List.getElem?_append_left inside, List.getElem?_eq_getElem inside]
    simp
  · rw [List.getElem?_append_right (by omega), List.getElem?_eq_none (by omega)]
    split
    · simp_all
    · split <;> simp_all

end Overlay

end LinkName
