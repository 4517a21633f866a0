import LinkName.Proofs.Itanium.Plan

/-!
The parts of an item: every other item whose script its own is made from. They need less than it
does, so the scripts of a plan are settled once it is deep enough, and items are understood from
their parts.
-/
namespace LinkName.Itanium.Item

variable (graph : Graph)

def ofLevel (level : Level) : List Item :=
  level.scope.toList.map .scope ++ LinkName.Item.ofName graph level.name

/-- What the name of a record, an enumeration or a template is made of. -/
def ofMention (id : SymbolId) : List Item :=
  match graph.level id with
  | .ok level => ofLevel graph level
  | .error _ => []

def ofParameters (params : List (Passing × TypeTree)) : List Item :=
  params.map fun param => .type (TypeTree.passed param).withoutConst .outermost

def ofType : TypeTree → List Item
  | .layer _ inner _ => [.type inner .nested]
  | .named _ symbol _ => ofMention graph symbol
  | .function result params convention _ =>
    .type (TypeTree.returned convention result) .nested :: ofParameters params
  | .basic _ _ | .assocArray _ _ _ => []

def ofSignature (id : SymbolId) : List Item :=
  match graph.symbol id with
  | .ok { sort := .function info, .. } =>
    match graph.tree info.type with
    | .function _ params _ _ => ofParameters params
    | _ => []
  | _ => []

def ofScope (id : SymbolId) : List Item :=
  match graph.scopeParent id with
  | .ok scope => scope.toList.map .scope
  | .error _ => []

/-- What the name of a variable or a function is made of. -/
def ofDeclaration (id : SymbolId) : List Item :=
  ofScope graph id ++ LinkName.Item.ofName graph id ++ ofSignature graph id

def parts : Item → List Item
  | .scope id => ofMention graph id
  | .argument _ arg =>
    match arg with
    | .type id | .value id _ => [.type (graph.tree id) .nested]
    | .symbolAlias target => ofDeclaration graph target ++ ofMention graph target
    | .typeAlias _ | .pack _ => []
  | .type tree _ => ofType graph tree

variable {graph} {order : graph.Order}

open LinkName.Item (Below Light)

theorem below_ofMention (formed : graph.WellFormed) (order : graph.Order) (id : SymbolId) :
    Below order (8 * order.rank (.symbol id)) (ofMention graph id) := by
  unfold ofMention
  split
  · next level found =>
    have isLevel := Graph.isLevel_of_level found
    have lower := isLevel.rank_name_le order
    exact (Below.scope? formed isLevel.scope (by omega)).append
      ((Below.ofName formed order level.name).mono (by omega))
  · exact .nil

theorem below_ofScope (formed : graph.WellFormed) (order : graph.Order) (id : SymbolId) :
    Below order (8 * order.rank (.symbol id)) (ofScope graph id) := by
  unfold ofScope
  split
  · next scope found => exact .scope? formed found le_rfl
  · exact .nil

theorem below_ofParameters {bound : Nat} {result : TypeTree} {params : List (Passing × TypeTree)}
    {convention : Convention} {quals : Qualifiers}
    (light : Light order (bound + 1) (.function result params convention quals)) :
    Below order bound (ofParameters params) := by
  intro part listed
  obtain ⟨param, known, rfl⟩ := List.mem_map.mp listed
  exact (light.passed known).withoutConst

theorem below_ofSignature (formed : graph.WellFormed) (order : graph.Order) (id : SymbolId) :
    Below order (8 * order.rank (.symbol id)) (ofSignature graph id) := by
  unfold ofSignature
  split
  · next ident parent access info stored =>
    have light := Light.of_mentions formed order (Graph.mentions_function stored rfl)
    split
    · next result params convention quals same =>
      rw [same] at light
      exact below_ofParameters (light.mono (Nat.le_succ _))
    · exact .nil
  · exact .nil

theorem below_ofDeclaration (formed : graph.WellFormed) (order : graph.Order) (id : SymbolId) :
    Below order (8 * order.rank (.symbol id)) (ofDeclaration graph id) :=
  ((below_ofScope formed order id).append (.ofName formed order id)).append
    (below_ofSignature formed order id)

theorem below_ofType (formed : graph.WellFormed) (order : graph.Order) {tree : TypeTree}
    (held : ∀ symbol ∈ tree.symbols, graph.Holds (.symbol symbol)) :
    Below order (tree.weight fun symbol => order.rank (.symbol symbol)) (ofType graph tree) := by
  cases tree with
  | basic | assocArray => exact .nil
  | layer around inner quals =>
      exact List.forall_mem_singleton.mpr ⟨held, Nat.lt_succ_self _⟩
  | named naming symbol quals => exact below_ofMention formed order symbol
  | function result params convention quals =>
      have light : Light order (_ + 1) (.function result params convention quals) :=
        ⟨held, Nat.lt_succ_self _⟩
      exact (Below.type light.returned .nested).append (below_ofParameters light)

theorem below_parts (formed : graph.WellFormed) (order : graph.Order) {item : Item}
    (held : item.Held graph) : Below order (item.need order) (parts graph item) := by
  have type {owner : SymbolId} {arg : TemplateArg} {id : TypeId} (heldId : graph.Holds (.type id))
      (named : arg.named? = some (.type id)) :
      Below order ((Item.argument owner arg : Item).need order)
        [(.type (graph.tree id) .nested : Item)] := by
    have weight := formed.weight_tree_le order heldId
    refine List.forall_mem_singleton.mpr ⟨formed.holds_symbols heldId, ?_⟩
    simp only [LinkName.Item.need, named, Option.map_some, Option.getD_some]
    omega
  cases item with
  | scope id => exact below_ofMention formed order id
  | argument owner arg =>
      cases arg with
      | type id => exact type (held.2 _ rfl) rfl
      | value id number => exact type (held.2 _ rfl) rfl
      | symbolAlias target =>
          exact ((below_ofDeclaration formed order target).append
            (below_ofMention formed order target)).mono (Nat.le_succ _)
      | typeAlias | pack => exact .nil
  | type tree place => exact below_ofType formed order held

theorem descends (formed : graph.WellFormed) : LinkName.Item.Descends graph (parts graph) :=
  fun order _ held => below_parts formed order held

end LinkName.Itanium.Item
