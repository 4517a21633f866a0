import LinkName.Proofs.Microsoft.Plan

/-!
The parts of an item: every other item whose script its own is made from. They need less than it
does, so the scripts of a plan are settled once it is deep enough.
-/
namespace LinkName.Microsoft.Item

variable (graph : Graph)

/-- What one level of a name is made of, the scope that it may repeat included. -/
def ofLevel (id : SymbolId) : List Item :=
  match graph.symbol id with
  | .ok symbol => symbol.parent.toList.map .scope ++ LinkName.Item.ofName graph id
  | .error _ => []

def ofLevels (id : SymbolId) : List Item :=
  match graph.levels id with
  | .ok names => names.flatMap (ofLevel graph)
  | .error _ => []

def ofPointee (tree : TypeTree) (place : Place) : List Item :=
  [.type tree.shape.2 { place with element := true }, .type tree place]

def ofFunction : TypeTree → List Item
  | .function result params convention _ =>
    .type (TypeTree.returned convention result) { returned := true } ::
      params.map fun param => .type (TypeTree.passed param) {}
  | _ => []

def ofType (tree : TypeTree) (place : Place) : List Item :=
  match tree with
  | .layer _ inner _ => ofPointee inner place.below ++ ofFunction inner
  | .named _ symbol _ => ofLevels graph symbol
  | .basic _ _ | .assocArray _ _ _ | .function _ _ _ _ => []

/-- What the name of a variable or a function is made of besides its levels. -/
def ofSignature (id : SymbolId) : List Item :=
  match graph.symbol id with
  | .ok { sort := .function info, .. } => ofFunction (graph.tree info.type)
  | .ok { sort := .var info, .. } =>
    [.type (graph.tree info.type) {}, .type (graph.tree info.type).mutable {}]
  | _ => []

def ofDeclaration (id : SymbolId) : List Item := ofLevels graph id ++ ofSignature graph id

def parts : Item → List Item
  | .scope id => ofLevels graph id
  | .argument _ arg =>
    match arg with
    | .type id => [.type (graph.tree id) {}]
    | .symbolAlias target => ofDeclaration graph target
    | .value _ _ | .typeAlias _ | .pack _ => []
  | .type tree place => ofType graph tree place

variable {graph} {order : graph.Order}

open LinkName.Item (Below Light)

theorem below_ofLevel (formed : graph.WellFormed) (order : graph.Order) (id : SymbolId) :
    Below order (8 * order.rank (.symbol id)) (ofLevel graph id) := by
  unfold ofLevel
  split
  · next symbol stored =>
    refine Below.append ?_ (.ofName formed order id)
    cases scope : symbol.parent with
    | none => exact .nil
    | some parent => exact .scope formed (Graph.mentions_parent stored scope) le_rfl
  · exact .nil

theorem below_ofLevels (formed : graph.WellFormed) (order : graph.Order) {id : SymbolId}
    (held : graph.Holds (.symbol id)) :
    Below order (8 * order.rank (.symbol id)) (ofLevels graph id) := by
  obtain ⟨names, found, above⟩ := formed.levels_eq_ok held
  intro part listed
  simp only [ofLevels, found] at listed
  obtain ⟨name, known, inside⟩ := List.mem_flatMap.mp listed
  have lower : order.rank (.symbol name) ≤ order.rank (.symbol id) :=
    order.rank_le_of_reaches (above name known)
  exact (below_ofLevel formed order name).mono (by omega) part inside

theorem below_ofPointee {bound : Nat} {tree : TypeTree} (light : Light order bound tree)
    (place : Place) : Below order bound (ofPointee tree place) :=
  (Below.type light.shape _).append (Below.type light place)

theorem below_ofFunction {bound : Nat} {tree : TypeTree} (light : Light order (bound + 1) tree) :
    Below order bound (ofFunction tree) := by
  cases tree with
  | function result params convention quals =>
      refine (Below.type light.returned _).append ?_
      intro part listed
      obtain ⟨param, known, rfl⟩ := List.mem_map.mp listed
      exact light.passed known
  | _ => exact .nil

theorem below_ofType (formed : graph.WellFormed) (order : graph.Order) {tree : TypeTree}
    (held : ∀ symbol ∈ tree.symbols, graph.Holds (.symbol symbol)) (place : Place) :
    Below order (tree.weight fun symbol => order.rank (.symbol symbol))
      (ofType graph tree place) := by
  cases tree with
  | basic | assocArray | function => exact .nil
  | layer around inner quals =>
      have light : Light order (inner.weight (fun symbol => order.rank (.symbol symbol)) + 1)
          inner := ⟨held, Nat.lt_succ_self _⟩
      exact (below_ofPointee light place.below).append
        (below_ofFunction (light.mono (Nat.le_succ _)))
  | named naming symbol quals =>
      exact below_ofLevels formed order (held symbol List.mem_cons_self)

theorem below_ofSignature (formed : graph.WellFormed) (order : graph.Order) (id : SymbolId) :
    Below order (8 * order.rank (.symbol id)) (ofSignature graph id) := by
  unfold ofSignature
  split
  · next ident parent access info stored =>
    have light := Light.of_mentions formed order (Graph.mentions_function stored rfl)
    exact below_ofFunction (light.mono (Nat.le_succ _))
  · next ident parent access info stored =>
    have light := Light.of_mentions formed order (Graph.mentions_variable stored rfl)
    exact (Below.type light _).append (Below.type light.mutable _)
  · exact .nil

theorem below_ofDeclaration (formed : graph.WellFormed) (order : graph.Order) {id : SymbolId}
    (held : graph.Holds (.symbol id)) :
    Below order (8 * order.rank (.symbol id)) (ofDeclaration graph id) :=
  (below_ofLevels formed order held).append (below_ofSignature formed order id)

theorem below_parts (formed : graph.WellFormed) (order : graph.Order) {item : Item}
    (held : item.Held graph) : Below order (item.need order) (parts graph item) := by
  cases item with
  | scope id => exact below_ofLevels formed order held
  | argument owner arg =>
      cases arg with
      | type id =>
          have heldId : graph.Holds (.type id) := held.2 _ rfl
          have weight := formed.weight_tree_le order heldId
          exact List.forall_mem_singleton.mpr
            ⟨formed.holds_symbols heldId, Nat.lt_succ_of_le weight⟩
      | symbolAlias target =>
          exact (below_ofDeclaration formed order (held.2 _ rfl)).mono (Nat.le_succ _)
      | value | typeAlias | pack => exact .nil
  | type tree place => exact below_ofType formed order held place

theorem descends (formed : graph.WellFormed) : LinkName.Item.Descends graph (parts graph) :=
  fun order _ held => below_parts formed order held

end LinkName.Microsoft.Item
