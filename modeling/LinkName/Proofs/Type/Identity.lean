import LinkName.Proofs.Type.Unfolding

/-!
Handles and types. A graph numbers its types as they come, and an overlay numbers derived types on
from there; both give a node that they hold the handle that it has. Together they behave as one list
of distinct nodes, each made of nodes before it, in which a handle is the place of its node. So two
handles are equal exactly when their types are equal as trees, and no addition moves a node.
-/
namespace LinkName

namespace TypeNode

/-- Distinct nodes, each made of types that stand before it. -/
structure Canonical (nodes : List TypeNode) : Prop where
  distinct : nodes.Nodup
  parts_lt : ∀ (index : Nat) (node : TypeNode), nodes[index]? = some node →
    ∀ part ∈ node.form.parts, part.index < index

/-- The nodes with one more, unless it is there already. -/
def extend (nodes : List TypeNode) (node : TypeNode) : List TypeNode :=
  if node ∈ nodes then nodes else nodes ++ [node]

variable {nodes : List TypeNode} {node : TypeNode}

theorem prefix_extend : nodes <+: extend nodes node := by
  unfold extend
  split
  · exact List.prefix_rfl
  · exact List.prefix_append _ _

theorem getElem?_extend : (extend nodes node)[nodes.idxOf node]? = some node := by
  unfold extend
  split
  · next listed => exact List.getElem?_idxOf listed
  · next missing => simp [List.idxOf_of_notMem missing]

namespace Canonical

theorem nil : Canonical [] where
  distinct := List.nodup_nil
  parts_lt := by simp

theorem extend (canonical : Canonical nodes)
    (earlier : ∀ part ∈ node.form.parts, part.index < nodes.length) :
    Canonical (TypeNode.extend nodes node) := by
  unfold TypeNode.extend
  split
  · exact canonical
  · next missing =>
    refine ⟨List.concat_eq_append ▸ canonical.distinct.concat missing, ?_⟩
    intro index other stored part listed
    by_cases older : index < nodes.length
    · rw [List.getElem?_append_left older] at stored
      exact canonical.parts_lt index other stored part listed
    · rw [List.getElem?_append_right (Nat.not_lt.mp older)] at stored
      obtain rfl : other = node := List.mem_singleton.mp (List.mem_of_getElem? stored)
      exact (earlier part listed).trans_le (Nat.not_lt.mp older)

theorem idxOf_eq (canonical : Canonical nodes) {index : Nat} (stored : nodes[index]? = some node) :
    nodes.idxOf node = index := by
  obtain ⟨inside, rfl⟩ := List.getElem?_eq_some_iff.mp stored
  exact canonical.distinct.idxOf_getElem index inside

end Canonical

end TypeNode

/-! ## The two stores -/

namespace Graph

variable {graph : Graph} {node : TypeNode}

theorem internType_fst : (graph.internType node).1 = ⟨graph.types.idxOf node⟩ := by
  cases found : graph.types.idxOf? node <;>
    simp [internType, findType?, List.idxOf_eq_getD_idxOf?, found]

theorem internType_types : (graph.internType node).2.types = TypeNode.extend graph.types node :=
  types_internType graph node

/-- A node is found under the handle that it is given. -/
theorem type_internType : (graph.internType node).2.type (graph.internType node).1 = .ok node := by
  rw [type_eq_ok_iff, internType_types, internType_fst, TypeNode.getElem?_extend]

/-- The nodes of a graph and the way back to their handles are inverse to each other. -/
theorem findType?_eq_some_iff (distinct : graph.types.Nodup) {id : TypeId} :
    graph.findType? node = some id ↔ graph.type id = .ok node := by
  rw [type_eq_ok_iff, findType?, Index.find?_eq, Option.map_eq_some_iff]
  constructor
  · rintro ⟨index, known, rfl⟩
    obtain ⟨inside, same, -⟩ := List.idxOf?_eq_some_iff.mp known
    exact List.getElem?_eq_some_iff.mpr ⟨inside, same⟩
  · intro stored
    obtain ⟨inside, rfl⟩ := List.getElem?_eq_some_iff.mp stored
    refine ⟨id.index, List.idxOf?_eq_some_iff.mpr ⟨inside, rfl, fun place earlier same => ?_⟩, rfl⟩
    exact absurd (distinct.getElem_inj_iff.mp same) earlier.ne

/-- A node that has a handle is given that one, and nothing is added. -/
theorem internType_type (canonical : TypeNode.Canonical graph.types) {id : TypeId}
    (found : graph.type id = .ok node) : graph.internType node = (id, graph) := by
  have stored : graph.types[id.index]? = some node := type_eq_ok_iff.mp found
  refine Prod.ext ?_ ?_
  · rw [internType_fst, canonical.idxOf_eq stored]
  · unfold internType
    split
    · rfl
    · next missing =>
      exact absurd (List.mem_of_getElem? stored) (by simpa [findType?] using missing)

/-- One addition to the types of a graph, made of types that the graph holds. Its symbols may change
meanwhile in any way. -/
inductive AddsType (graph : Graph) : Graph → Prop where
  | intern (node : TypeNode) (earlier : ∀ part ∈ node.form.parts, graph.Holds (.type part)) :
      AddsType graph (graph.internType node).2
  | qualify {id other : TypeId} {quals : Qualifiers} {later : Graph}
      (added : graph.qualify id quals = .ok (other, later)) : AddsType graph later
  | symbols (symbols : List Symbol) : AddsType graph { graph with symbols }

theorem AddsType.keeps {later : Graph} (adds : graph.AddsType later)
    (canonical : TypeNode.Canonical graph.types) :
    graph.types <+: later.types ∧ TypeNode.Canonical later.types := by
  cases adds with
  | intern node earlier =>
      rw [internType_types]
      exact ⟨TypeNode.prefix_extend, canonical.extend earlier⟩
  | symbols symbols => exact ⟨List.prefix_rfl, canonical⟩
  | @qualify id other quals later added =>
      cases found : graph.type id with
      | error fault => simp [Graph.qualify, found, bind, Except.bind] at added
      | ok node =>
          have grown : graph.internType (node.qualified quals) = (other, later) := by
            simpa [Graph.qualify, found, bind, Except.bind, pure, Except.pure] using added
          have stored := type_eq_ok_iff.mp found
          have earlier (part : TypeId) (listed : part ∈ (node.qualified quals).form.parts) :
              part.index < graph.types.length :=
            (canonical.parts_lt _ node stored part listed).trans
              (List.getElem?_eq_some_iff.mp stored).1
          have types : later.types = TypeNode.extend graph.types (node.qualified quals) := by
            rw [← internType_types, grown]
          rw [types]
          exact ⟨TypeNode.prefix_extend, canonical.extend earlier⟩

/-- Whatever is added to a graph, the types that it holds keep their handles. -/
theorem keeps_of_additions {later : Graph} (canonical : TypeNode.Canonical graph.types)
    (added : Relation.ReflTransGen AddsType graph later) :
    graph.types <+: later.types ∧ TypeNode.Canonical later.types := by
  induction added with
  | refl => exact ⟨List.prefix_rfl, canonical⟩
  | tail _ adds ih =>
      obtain ⟨grown, kept⟩ := adds.keeps ih.2
      exact ⟨ih.1.trans grown, kept⟩

/-- Graphs of declarations grow in this way. -/
theorem Built.additions (built : graph.Built) : Relation.ReflTransGen AddsType {} graph := by
  induction built with
  | empty => exact .refl
  | addSymbol _ _ _ _ ih => exact ih.tail (.symbols _)
  | @specialize graph next id template args _ _ added ih =>
      cases found : graph.symbol template with
      | error fault => simp [Graph.specialize, found, bind, Except.bind] at added
      | ok general =>
          simp only [Graph.specialize, found, bind, Except.bind, pure, Except.pure, Except.ok.injEq,
            Graph.addSymbol, Prod.mk.injEq] at added
          rw [← added.2]
          exact ih.tail (.symbols _)
  | setMember _ _ ih | setAccess _ ih => exact ih.tail (.symbols _)
  | @internType graph node _ earlier ih =>
      refine ih.tail (.intern node fun part listed => earlier (.type part) ?_)
      exact List.mem_append_left _ (List.mem_map_of_mem listed)

end Graph

namespace Overlay

variable {graph : Graph} {overlay : Overlay graph} {node : TypeNode}

/-- The types of the graph and those derived from them, in the order of their handles. -/
def nodes (overlay : Overlay graph) : List TypeNode := graph.types ++ overlay.derived

theorem intern_fst : (overlay.intern node).1 = ⟨overlay.nodes.idxOf node⟩ := by
  cases known : graph.types.idxOf? node with
  | some index =>
      have listed : node ∈ graph.types := List.isSome_idxOf?.mp (Option.isSome_of_eq_some known)
      rw [nodes, List.idxOf_append_of_mem listed, List.idxOf_eq_getD_idxOf?, known]
      simp [intern, Graph.findType?, known]
  | none =>
      rw [nodes, List.idxOf_append_of_notMem (List.idxOf?_eq_none_iff.mp known),
        List.idxOf_eq_getD_idxOf?]
      cases also : overlay.derived.idxOf? node <;> simp [intern, Graph.findType?, known, also]

theorem nodes_intern : (overlay.intern node).2.nodes = TypeNode.extend overlay.nodes node := by
  cases known : graph.types.idxOf? node with
  | some index =>
      have listed : node ∈ graph.types := List.isSome_idxOf?.mp (Option.isSome_of_eq_some known)
      simp [intern, Graph.findType?, known, TypeNode.extend, nodes, listed]
  | none =>
      have unlisted : node ∉ graph.types := List.idxOf?_eq_none_iff.mp known
      cases also : overlay.derived.idxOf? node with
      | some offset =>
          have derived : node ∈ overlay.derived :=
            List.isSome_idxOf?.mp (Option.isSome_of_eq_some also)
          simp [intern, Graph.findType?, known, also, TypeNode.extend, nodes, derived]
      | none =>
          have underived : node ∉ overlay.derived := List.idxOf?_eq_none_iff.mp also
          simp [intern, Graph.findType?, known, also, TypeNode.extend, nodes, unlisted, underived]

theorem le_iff_nodes {later : Overlay graph} : overlay ≤ later ↔ overlay.nodes <+: later.nodes :=
  (List.prefix_append_right_inj _).symm

theorem le_intern : overlay ≤ (overlay.intern node).2 := by
  rw [le_iff_nodes, nodes_intern]
  exact TypeNode.prefix_extend

/-- A node is found under the handle that it is given. -/
theorem type_intern : (overlay.intern node).2.type (overlay.intern node).1 = .ok node := by
  rw [type_eq_ok_iff, intern_fst]
  change (overlay.intern node).2.nodes[_]? = _
  rw [nodes_intern, TypeNode.getElem?_extend]

/-- A node that has a handle is given that one, and nothing is added. -/
theorem intern_type (canonical : TypeNode.Canonical overlay.nodes) {id : TypeId}
    (found : overlay.type id = .ok node) : overlay.intern node = (id, overlay) := by
  have stored : overlay.nodes[id.index]? = some node := type_eq_ok_iff.mp found
  have listed : node ∈ graph.types ++ overlay.derived := List.mem_of_getElem? stored
  refine Prod.ext ?_ ?_
  · rw [intern_fst, canonical.idxOf_eq stored]
  · unfold intern
    split
    · rfl
    · next unknown =>
      split
      · rfl
      · next underived =>
        have outside : node ∉ graph.types := by simpa [Graph.findType?] using unknown
        exact absurd listed (by simpa [outside] using underived)

/-- One derivation, of a type made of types that have handles. -/
inductive Adds (overlay : Overlay graph) : Overlay graph → Prop where
  | intern (node : TypeNode)
      (earlier : ∀ part ∈ node.form.parts, part.index < overlay.nodes.length) :
      Adds overlay (overlay.intern node).2
  | reference (target : TypeId) (earlier : target.index < overlay.nodes.length) :
      Adds overlay (overlay.referenceTo target).2
  | pointer (target : TypeId) (earlier : target.index < overlay.nodes.length) :
      Adds overlay (overlay.pointerTo target).2
  | mutable {id other : TypeId} {later : Overlay graph}
      (added : overlay.mutableOf id = .ok (other, later)) : Adds overlay later
  | thunk (result : TypeId) (earlier : result.index < overlay.nodes.length) :
      Adds overlay (overlay.thunkOf result).2

theorem index_lt_of_type {id : TypeId} (found : overlay.type id = .ok node) :
    id.index < overlay.nodes.length :=
  (List.getElem?_eq_some_iff.mp (type_eq_ok_iff.mp found)).1

theorem keeps_intern (canonical : TypeNode.Canonical overlay.nodes) (node : TypeNode)
    (earlier : ∀ part ∈ node.form.parts, part.index < overlay.nodes.length) :
    overlay ≤ (overlay.intern node).2 ∧ TypeNode.Canonical (overlay.intern node).2.nodes := by
  refine ⟨le_intern, ?_⟩
  rw [nodes_intern]
  exact canonical.extend earlier

theorem Adds.keeps {later : Overlay graph} (adds : overlay.Adds later)
    (canonical : TypeNode.Canonical overlay.nodes) :
    overlay ≤ later ∧ TypeNode.Canonical later.nodes := by
  cases adds with
  | intern node earlier => exact keeps_intern canonical node earlier
  | reference target earlier | pointer target earlier =>
      exact keeps_intern canonical _ (by simpa [TypeForm.parts] using earlier)
  | @mutable id other later added =>
      cases found : overlay.type id with
      | error fault => simp [mutableOf, found, bind, Except.bind] at added
      | ok node =>
          have derived : overlay.intern node.mutable = (other, later) := by
            simpa [mutableOf, found, bind, Except.bind, pure, Except.pure] using added
          have earlier (part : TypeId) (listed : part ∈ node.mutable.form.parts) :
              part.index < overlay.nodes.length :=
            (canonical.parts_lt _ node (type_eq_ok_iff.mp found) part listed).trans
              (index_lt_of_type found)
          have kept := keeps_intern canonical node.mutable earlier
          rwa [derived] at kept
  | thunk result earlier =>
      have function := keeps_intern canonical { form := .function { result } }
        (by simpa [TypeForm.parts] using earlier)
      have pointer := keeps_intern function.2
        { form := .pointer (overlay.intern { form := .function { result } }).1 }
        (by simpa [TypeForm.parts] using index_lt_of_type type_intern)
      exact ⟨function.1.trans pointer.1, pointer.2⟩

/-- Whatever is derived, the types that are there keep their handles. -/
theorem keeps_of_derivations {later : Overlay graph} (canonical : TypeNode.Canonical overlay.nodes)
    (derived : Relation.ReflTransGen Adds overlay later) :
    overlay ≤ later ∧ TypeNode.Canonical later.nodes := by
  induction derived with
  | refl => exact ⟨le_rfl, canonical⟩
  | tail _ adds ih =>
      obtain ⟨grown, kept⟩ := adds.keeps ih.2
      exact ⟨ih.1.trans grown, kept⟩

/-! ## Trees of handles -/

/-- Every handle stands for a tree, since a node is made of nodes before it. -/
theorem exists_unfolds (canonical : TypeNode.Canonical overlay.nodes) {id : TypeId}
    (held : id.index < overlay.nodes.length) : ∃ tree, overlay.Unfolds id tree := by
  induction index : id.index using Nat.strong_induction_on generalizing id with
  | _ _ ih =>
      subst index
      have stored := List.getElem?_eq_getElem held
      have parts (other : TypeId) : ∃ tree,
          other ∈ overlay.nodes[id.index].form.parts → overlay.Unfolds other tree := by
        by_cases listed : other ∈ overlay.nodes[id.index].form.parts
        · have lower := canonical.parts_lt _ _ stored other listed
          obtain ⟨tree, unfolds⟩ := ih _ lower (lower.trans held) rfl
          exact ⟨tree, fun _ => unfolds⟩
        · exact ⟨default, fun also => absurd also listed⟩
      choose part unfolds using parts
      exact ⟨_, .node (type_eq_ok_iff.mpr stored) unfolds⟩

end Overlay

/-- Two handles are equal exactly when their types are equal as trees, whatever has been added to the
graph and derived from it. A node is found under the handle that it is given, and given the handle
under which it is found; no derived node is one of the graph; and the node of a handle stays. -/
theorem handle_eq_iff_tree_eq {graph : Graph} {overlay : Overlay graph}
    (added : Relation.ReflTransGen Graph.AddsType {} graph)
    (derived : Relation.ReflTransGen Overlay.Adds {} overlay) :
    (∀ id, id.index < graph.types.length + overlay.derived.length →
      ∃! tree, overlay.Unfolds id tree) ∧
    (∀ id other tree tree', overlay.Unfolds id tree → overlay.Unfolds other tree' →
      (id = other ↔ tree = tree')) ∧
    (∀ node, (graph.internType node).2.type (graph.internType node).1 = .ok node ∧
      (overlay.intern node).2.type (overlay.intern node).1 = .ok node) ∧
    (∀ id node, (graph.type id = .ok node → graph.internType node = (id, graph)) ∧
      (overlay.type id = .ok node → overlay.intern node = (id, overlay))) ∧
    (∀ node ∈ overlay.derived, node ∉ graph.types) ∧
    (∀ later, Relation.ReflTransGen Graph.AddsType graph later →
      ∀ id node, graph.type id = .ok node → later.type id = .ok node) ∧
    ∀ later, Relation.ReflTransGen Overlay.Adds overlay later →
      ∀ id node, overlay.type id = .ok node → later.type id = .ok node := by
  have types : TypeNode.Canonical graph.types :=
    (Graph.keeps_of_additions TypeNode.Canonical.nil added).2
  have nodes : TypeNode.Canonical overlay.nodes := by
    refine (Overlay.keeps_of_derivations ?_ derived).2
    rwa [Overlay.nodes, List.append_nil]
  refine ⟨?trees, ?handles, ?found, ?given, ?apart, ?graphKeeps, ?overlayKeeps⟩
  case trees =>
    intro id held
    obtain ⟨tree, unfolds⟩ := Overlay.exists_unfolds nodes (by simpa [Overlay.nodes] using held)
    exact ⟨tree, unfolds, fun other also => also.unique unfolds⟩
  case handles =>
    intro id other tree tree' unfolds also
    constructor
    · rintro rfl
      exact unfolds.unique also
    · rintro rfl
      exact unfolds.injective_of_nodup nodes.distinct also
  case found => exact fun node => ⟨Graph.type_internType, Overlay.type_intern⟩
  case given => exact fun id node => ⟨Graph.internType_type types, Overlay.intern_type nodes⟩
  case apart =>
    intro node listed known
    exact List.disjoint_of_nodup_append nodes.distinct known listed
  case graphKeeps =>
    intro later more id node found
    obtain ⟨⟨rest, same⟩, -⟩ := Graph.keeps_of_additions types more
    rw [Graph.type_eq_ok_iff] at found ⊢
    rw [← same, List.getElem?_append_left (List.getElem?_eq_some_iff.mp found).1, found]
  case overlayKeeps =>
    intro later more id node found
    exact Overlay.type_mono (Overlay.keeps_of_derivations nodes more).1 found

/-- `int`, `const int` and `const int &`. -/
def references : Graph where
  types :=
    [{ form := .basic .int32 }, { form := .basic .int32, quals := { isConst := true } },
      { form := .reference ⟨1⟩ }]

theorem references_built : references.Built :=
  Graph.built_of_takeAll?
    [.type { form := .basic .int32 }, .type { form := .basic .int32, quals := { isConst := true } },
      .type { form := .reference ⟨1⟩ }] rfl

/-- A reference derived from the type without `const` is new, and the other one is not. -/
theorem handle_eq_iff_tree_eq_references :
    ∃ (overlay : Overlay references) (tree tree' : TypeTree),
      ({} : Overlay references).referenceTo ⟨0⟩ = (⟨3⟩, overlay) ∧
      overlay.Unfolds ⟨2⟩ tree ∧ overlay.Unfolds ⟨3⟩ tree' ∧ tree ≠ tree' ∧
      overlay.referenceTo ⟨1⟩ = (⟨2⟩, overlay) ∧ overlay.mutableOf ⟨1⟩ = .ok (⟨0⟩, overlay) := by
  have derived : Relation.ReflTransGen Overlay.Adds {}
      (({} : Overlay references).referenceTo ⟨0⟩).2 :=
    .single (.reference ⟨0⟩ (by decide))
  obtain ⟨trees, handles, -, given, -⟩ :=
    handle_eq_iff_tree_eq references_built.additions derived
  obtain ⟨tree, unfolds, -⟩ := trees ⟨2⟩ (by decide)
  obtain ⟨tree', unfolds', -⟩ := trees ⟨3⟩ (by decide)
  refine ⟨_, tree, tree', rfl, unfolds, unfolds', ?_, (given ⟨2⟩ _).2 rfl, ?_⟩
  · exact fun same => absurd ((handles _ _ _ _ unfolds unfolds').mpr same) (by decide)
  · exact congrArg Except.ok ((given ⟨0⟩ { form := .basic .int32 }).2 rfl)

end LinkName
