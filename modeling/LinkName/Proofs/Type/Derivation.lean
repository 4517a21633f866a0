import LinkName.Proofs.Type.Identity
import LinkName.Proofs.Type.Weight

/-!
How much is derived. Whatever a name derives comes from a type of the graph in one of four ways; so
there are at most four derived types to each type of the graph, and none of them is much heavier than
those of the graph.
-/
namespace LinkName

theorem TypeNode.isConst_of_dropsConst {node : TypeNode} (drops : node.dropsConst = true) :
    node.isConst = true := by
  rcases node with ⟨form, quals⟩
  cases form <;> simp_all [TypeNode.dropsConst]

namespace Overlay

variable {graph : Graph} {overlay later : Overlay graph} {node : TypeNode} {id : TypeId}

/-- What a name derives from the types of the graph: references to them, functions that return them,
pointers to such functions, and the types themselves without their `const`. -/
inductive Derivable (overlay : Overlay graph) : TypeNode → Prop where
  | reference {target : TypeId} (held : graph.Holds (.type target)) :
      Derivable overlay { form := .reference target }
  | function {result : TypeId} (held : graph.Holds (.type result)) :
      Derivable overlay { form := .function { result } }
  | thunk {function result : TypeId} (held : graph.Holds (.type result))
      (found : overlay.type function = .ok { form := .function { result } }) :
      Derivable overlay { form := .pointer function }
  | mutable {node : TypeNode} (listed : node ∈ graph.types) : Derivable overlay node.mutable

theorem Derivable.mono (derivable : overlay.Derivable node) (grown : overlay ≤ later) :
    later.Derivable node := by
  cases derivable with
  | reference held => exact .reference held
  | function held => exact .function held
  | thunk held found => exact .thunk held (type_mono grown found)
  | mutable listed => exact .mutable listed

/-- The state that an overlay is always in: nothing is derived but from the graph. -/
def Modest (overlay : Overlay graph) : Prop := ∀ node ∈ overlay.derived, overlay.Derivable node

namespace Modest

theorem empty : ({} : Overlay graph).Modest := by
  intro node listed
  cases listed

theorem intern (modest : overlay.Modest)
    (derivable : (overlay.intern node).2.Derivable node) : (overlay.intern node).2.Modest := by
  intro other listed
  have older : other ∈ overlay.derived ∨ other = node := by
    unfold Overlay.intern at listed
    split at listed
    · exact .inl listed
    · split at listed
      · exact .inl listed
      · simpa using listed
  rcases older with older | rfl
  · exact (modest other older).mono le_intern
  · exact derivable

theorem referenceTo (modest : overlay.Modest) (held : graph.Holds (.type id)) :
    (overlay.referenceTo id).2.Modest :=
  modest.intern (.reference held)

theorem thunkOf (modest : overlay.Modest) (held : graph.Holds (.type id)) :
    (overlay.thunkOf id).2.Modest :=
  (modest.intern (.function held)).intern (.thunk held (type_mono le_intern type_intern))

theorem passed (modest : overlay.Modest) {param : Param} (held : graph.Holds (.type param.type)) :
    (overlay.passed param).2.Modest := by
  unfold Overlay.passed
  cases param.passing with
  | value => exact modest
  | ref | out => exact modest.referenceTo held
  | lazy => exact modest.thunkOf held

theorem returned (modest : overlay.Modest) {signature : Signature}
    (held : graph.Holds (.type signature.result)) : (overlay.returned signature).2.Modest := by
  unfold Overlay.returned
  split
  · exact modest.referenceTo held
  · exact modest

/-! ## What is never derived from -/

/-- The type of a parameter, and what a function returns, is a type of the graph. -/
theorem holds_part (modest : overlay.Modest) (formed : graph.WellFormed) {signature : Signature}
    {quals : Qualifiers} (found : overlay.type id = .ok { form := .function signature, quals }) :
    ∀ part ∈ (TypeForm.function signature).parts, graph.Holds (.type part) := by
  have stored {index : Nat} {node : TypeNode} (stored : graph.types[index]? = some node) :
      ∀ part ∈ node.form.parts, graph.Holds (.type part) := by
    intro part listed
    refine formed.closed (.type ⟨index⟩) _ ?_
    rw [Graph.mentions_type (Graph.type_eq_ok_iff.mpr stored)]
    exact List.mem_append_left _ (List.mem_map_of_mem listed)
  rcases type_cases found with known | ⟨-, derived⟩
  · exact stored (Graph.type_eq_ok_iff.mp known)
  · generalize same : ({ form := .function signature, quals } : TypeNode) = node at derived
    cases modest node (List.mem_of_getElem? derived) with
    | reference | thunk => simp at same
    | function held =>
        cases same
        simpa [TypeForm.parts] using held
    | @mutable general listed =>
        obtain ⟨index, inside⟩ := List.getElem?_of_mem listed
        have form : general.form = .function signature := (congrArg TypeNode.form same).symm
        exact form ▸ stored inside

/-- A const type is one of the graph. -/
theorem mem_of_isConst (modest : overlay.Modest) (found : overlay.type id = .ok node)
    (const : node.isConst = true) : node ∈ graph.types := by
  rcases type_cases found with known | ⟨-, derived⟩
  · exact List.mem_of_getElem? (Graph.type_eq_ok_iff.mp known)
  · cases modest node (List.mem_of_getElem? derived) <;> cases const

/-- The graph has every array, as far as its dimension and its element go. -/
theorem exists_array (modest : overlay.Modest) {dim : Nat} {element : TypeId} {quals : Qualifiers}
    (found : overlay.type id = .ok { form := .staticArray dim element, quals }) :
    ∃ node ∈ graph.types, node.form = .staticArray dim element := by
  rcases type_cases found with known | ⟨-, derived⟩
  · exact ⟨_, List.mem_of_getElem? (Graph.type_eq_ok_iff.mp known), rfl⟩
  · generalize same : ({ form := .staticArray dim element, quals } : TypeNode) = node at derived
    cases modest node (List.mem_of_getElem? derived) with
    | reference | function | thunk => simp at same
    | @mutable general listed => exact ⟨general, listed, (congrArg TypeNode.form same).symm⟩

/-! ## The weight of derived types -/

theorem weight_of_held (formed : graph.WellFormed) (order : graph.Order) {tree : TypeTree}
    (held : graph.Holds (.type id)) (unfolds : overlay.Unfolds id tree) :
    tree.weight (fun symbol => order.rank (.symbol symbol)) + 8 ≤
      8 * (graph.symbols.length + graph.types.length) := by
  have weight := formed.weight_tree_le order held
  have lower := order.rank_lt (.type id) held
  rw [unfolds.unique (formed.unfolds_tree held overlay)]
  omega

/-- A type around another one is not much heavier. -/
theorem weight_tree_le_of_part {rank : SymbolId → Nat} {part : TypeId → TypeTree} (inner : TypeId)
    (unnamed : node.form.symbol? = none) (only : node.form.parts = [inner]) :
    (node.tree part).weight rank ≤ (part inner).weight rank + 4 := by
  refine TypeNode.weight_tree_le (by simp [unnamed]) fun other listed => ?_
  rw [only, List.mem_singleton] at listed
  rw [listed]

/-- No type of an overlay is nested deeper than names ever are. -/
theorem weight_lt (modest : overlay.Modest) (formed : graph.WellFormed) (order : graph.Order)
    {tree : TypeTree} (unfolds : overlay.Unfolds id tree) :
    tree.weight (fun symbol => order.rank (.symbol symbol)) <
      8 * (graph.symbols.length + graph.types.length + 1) := by
  obtain ⟨node, part, found, rfl, parts⟩ := unfolds.found
  rcases type_cases found with known | ⟨-, derived⟩
  · have light := weight_of_held formed order (Graph.holds_type_iff.mpr ⟨node, known⟩) unfolds
    omega
  · cases modest node (List.mem_of_getElem? derived) with
    | @reference result held | @function result held =>
        have light := weight_of_held formed order held (parts result List.mem_cons_self)
        refine (weight_tree_le_of_part result rfl rfl).trans_lt ?_
        omega
    | @thunk function result held inner =>
        obtain ⟨node, part', found', whole, parts'⟩ := (parts function List.mem_cons_self).found
        obtain rfl := Except.ok.inj (inner.symm.trans found')
        have light := weight_of_held formed order held (parts' result List.mem_cons_self)
        refine (weight_tree_le_of_part function rfl rfl).trans_lt ?_
        rw [whole]
        refine (Nat.add_le_add_right (weight_tree_le_of_part result rfl rfl) 4).trans_lt ?_
        omega
    | @mutable general listed =>
        obtain ⟨index, stored⟩ := List.getElem?_of_mem listed
        have known : graph.type ⟨index⟩ = .ok general := Graph.type_eq_ok_iff.mpr stored
        have light := weight_of_held formed order (Graph.holds_type_iff.mpr ⟨general, known⟩)
          (.node (type_of_graph known) parts)
        rw [TypeNode.mutable_tree, TypeTree.weight_mutable]
        omega

/-! ## The number of derived types -/

/-- Everything that could be derived. -/
def candidates (overlay : Overlay graph) : List TypeNode :=
  let ids := (List.range graph.types.length).map TypeId.mk
  ids.map (fun id => { form := .reference id }) ++
    ids.map (fun id => { form := .function { result := id } }) ++
    ids.map (fun id =>
      { form := .pointer (overlay.intern { form := .function { result := id } }).1 }) ++
    graph.types.map TypeNode.mutable

theorem length_candidates : (candidates overlay).length = 4 * graph.types.length := by
  simp only [candidates, List.length_append, List.length_map, List.length_range]
  omega

theorem mem_candidates (sound : overlay.Sound) (derivable : overlay.Derivable node) :
    node ∈ candidates overlay := by
  have listed {id : TypeId} (held : graph.Holds (.type id)) :
      id ∈ (List.range graph.types.length).map TypeId.mk :=
    List.mem_map.mpr ⟨id.index, List.mem_range.mpr held, rfl⟩
  simp only [candidates, List.mem_append]
  cases derivable with
  | reference held => exact .inl (.inl (.inl (List.mem_map_of_mem (listed held))))
  | function held => exact .inl (.inl (.inr (List.mem_map_of_mem (listed held))))
  | @thunk function result held found =>
      have stored : overlay.nodes[function.index]? = some { form := .function { result } } :=
        type_eq_ok_iff.mp found
      have same : (overlay.intern { form := .function { result } }).1 = function := by
        obtain ⟨inside, known⟩ := List.getElem?_eq_some_iff.mp stored
        rw [intern_fst, ← known]
        exact congrArg TypeId.mk (List.Nodup.idxOf_getElem sound.shared function.index inside)
      exact .inl (.inr (List.mem_map.mpr ⟨result, listed held, by rw [same]⟩))
  | mutable general => exact .inr (List.mem_map_of_mem general)

/-- There are four derived types at most to each type of the graph. -/
theorem length_le (modest : overlay.Modest) (sound : overlay.Sound) :
    overlay.derived.length ≤ 4 * graph.types.length := by
  have distinct : overlay.derived.Nodup := (List.nodup_append.mp sound.shared).2.1
  have inside : overlay.derived ⊆ candidates overlay :=
    fun node listed => mem_candidates sound (modest node listed)
  exact length_candidates ▸ (distinct.subperm inside).length_le

end Modest

end Overlay

end LinkName
