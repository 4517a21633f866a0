import LinkName.Decl.Overlay
import LinkName.Proofs.Graph.Construction
import LinkName.Proofs.Type.Tree

/-!
The trees of handles. A handle unfolds to one tree, a tree is unfolded from one handle, and neither
changes when more types are derived: in what follows a handle may be replaced by its tree.
-/
namespace LinkName

namespace Overlay

variable {graph : Graph}

/-- The tree that a handle stands for. -/
inductive Unfolds (overlay : Overlay graph) : TypeId → TypeTree → Prop where
  | node {id : TypeId} {node : TypeNode} {part : TypeId → TypeTree}
      (found : overlay.type id = .ok node)
      (parts : ∀ other ∈ node.form.parts, Unfolds overlay other (part other)) :
      Unfolds overlay id (node.tree part)

/-- Types are only ever added to an overlay. -/
instance : Preorder (Overlay graph) where
  le overlay later := overlay.derived <+: later.derived
  le_refl overlay := List.prefix_rfl
  le_trans _ _ _ := List.IsPrefix.trans

theorem empty_le (overlay : Overlay graph) : {} ≤ overlay := List.nil_prefix

/-- The state that an overlay is always in: derived types are new and shared, and made of types that
were there before them. -/
structure Sound (overlay : Overlay graph) : Prop where
  shared : (graph.types ++ overlay.derived).Nodup
  parts_lt : ∀ index node, overlay.derived[index]? = some node →
    ∀ part ∈ node.form.parts, part.index < graph.types.length + index
  symbols : ∀ node ∈ overlay.derived, ∀ symbol ∈ node.form.symbol?, graph.Holds (.symbol symbol)

theorem sound_empty (formed : graph.WellFormed) : ({} : Overlay graph).Sound where
  shared := by simpa using formed.shared
  parts_lt := by simp
  symbols := by simp

variable {overlay later : Overlay graph} {id : TypeId} {node : TypeNode} {tree : TypeTree}

theorem type_mono (grown : overlay ≤ later) (found : overlay.type id = .ok node) :
    later.type id = .ok node := by
  obtain ⟨more, same⟩ := grown
  rw [type_eq_ok_iff] at found ⊢
  rw [← same, ← List.append_assoc, List.getElem?_append_left (List.getElem?_eq_some_iff.mp found).1,
    found]

theorem type_of_graph (found : graph.type id = .ok node) : overlay.type id = .ok node := by
  rw [Graph.type_eq_ok_iff] at found
  rw [type_eq_ok_iff, List.getElem?_append_left (List.getElem?_eq_some_iff.mp found).1, found]

/-- No two handles have the same node. -/
theorem type_injective (shared : (graph.types ++ overlay.derived).Nodup) {other : TypeId}
    (found : overlay.type id = .ok node) (also : overlay.type other = .ok node) : id = other := by
  rw [type_eq_ok_iff] at found also
  have inside := (List.getElem?_eq_some_iff.mp found).1
  exact congrArg TypeId.mk ((List.getElem?_inj inside shared).mp (found.trans also.symm))

namespace Unfolds

theorem mono (unfolds : overlay.Unfolds id tree) (grown : overlay ≤ later) :
    later.Unfolds id tree := by
  induction unfolds with
  | node found _ ih => exact .node (type_mono grown found) ih

theorem found (unfolds : overlay.Unfolds id tree) :
    ∃ node part, overlay.type id = .ok node ∧ tree = node.tree part ∧
      ∀ other ∈ node.form.parts, overlay.Unfolds other (part other) := by
  cases unfolds with
  | node found parts => exact ⟨_, _, found, rfl, parts⟩

theorem unique {other : TypeTree} (unfolds : overlay.Unfolds id tree)
    (also : overlay.Unfolds id other) : tree = other := by
  induction unfolds generalizing other with
  | node found parts ih =>
      obtain ⟨node', part', found', rfl, parts'⟩ := also.found
      obtain rfl : _ = node' := Except.ok.inj (found.symm.trans found')
      exact TypeNode.tree_congr fun part listed => ih part listed (parts' part listed)

theorem injective_of_nodup (shared : (graph.types ++ overlay.derived).Nodup) {other : TypeId}
    (unfolds : overlay.Unfolds id tree) (also : overlay.Unfolds other tree) : id = other := by
  induction unfolds generalizing other with
  | node found parts ih =>
      obtain ⟨node', part', found', same, parts'⟩ := also.found
      have nodes := TypeNode.tree_injective (fun other listed other' listed' alike =>
        ih other listed (by rw [alike]; exact parts' other' listed')) same
      exact type_injective shared found (nodes ▸ found')

theorem injective (sound : overlay.Sound) {other : TypeId} (unfolds : overlay.Unfolds id tree)
    (also : overlay.Unfolds other tree) : id = other :=
  unfolds.injective_of_nodup sound.shared also

theorem eq_iff (sound : overlay.Sound) {other : TypeId} {tree' : TypeTree}
    (unfolds : overlay.Unfolds id tree) (also : overlay.Unfolds other tree') :
    id = other ↔ tree = tree' :=
  ⟨fun same => unfolds.unique (same ▸ also), fun same => unfolds.injective sound (same ▸ also)⟩

theorem index_lt (unfolds : overlay.Unfolds id tree) :
    id.index < graph.types.length + overlay.derived.length := by
  obtain ⟨node, part, found, -, -⟩ := unfolds.found
  rw [type_eq_ok_iff] at found
  simpa using (List.getElem?_eq_some_iff.mp found).1

end Unfolds

/-! ## Ranks in an overlay -/

theorem type_cases (found : overlay.type id = .ok node) :
    graph.type id = .ok node ∨
      graph.types.length ≤ id.index ∧
        overlay.derived[id.index - graph.types.length]? = some node := by
  rw [type_eq_ok_iff] at found
  rw [Graph.type_eq_ok_iff]
  by_cases inside : id.index < graph.types.length
  · rw [List.getElem?_append_left inside] at found
    exact .inl found
  · rw [List.getElem?_append_right (Nat.not_lt.mp inside)] at found
    exact .inr ⟨Nat.not_lt.mp inside, found⟩

theorem Sound.symbol_held (sound : overlay.Sound) (formed : graph.WellFormed)
    (found : overlay.type id = .ok node) {symbol : SymbolId} (named : symbol ∈ node.form.symbol?) :
    graph.Holds (.symbol symbol) := by
  rcases type_cases found with known | ⟨-, derived⟩
  · refine formed.closed (.type id) _ ?_
    rw [Graph.mentions_type known]
    exact List.mem_append_right _ (by simpa using named)
  · exact sound.symbols node (List.mem_of_getElem? derived) symbol named

/-- Derived types rank above everything in the graph, in the order in which they were derived. -/
def rank (order : graph.Order) (id : TypeId) : Nat :=
  if id.index < graph.types.length then order.rank (.type id)
  else graph.symbols.length + id.index

theorem rank_lt_reach (order : graph.Order) (unfolds : overlay.Unfolds id tree) :
    rank order id < graph.symbols.length + graph.types.length + overlay.derived.length := by
  unfold rank
  split
  · next inside => exact (order.rank_lt (.type id) inside).trans_le (Nat.le_add_right _ _)
  · have bound := unfolds.index_lt
    omega

theorem Sound.rank_part_lt (sound : overlay.Sound) (formed : graph.WellFormed) (order : graph.Order)
    (found : overlay.type id = .ok node) {part : TypeId} (listed : part ∈ node.form.parts) :
    rank order part < rank order id := by
  rcases type_cases found with known | ⟨outside, derived⟩
  · have mentioned : graph.Mentions (.type id) (.type part) := by
      unfold Graph.Mentions
      rw [Graph.mentions_type known]
      exact List.mem_append_left _ (List.mem_map_of_mem listed)
    have inside : id.index < graph.types.length := Graph.holds_of_mentions mentioned
    have inside' : part.index < graph.types.length := formed.closed _ _ mentioned
    rw [rank, if_pos inside', rank, if_pos inside]
    exact order.descends _ _ mentioned
  · have earlier := sound.parts_lt _ node derived part listed
    rw [rank, rank, if_neg (Nat.not_lt.mpr outside)]
    split
    · next inside => exact (order.rank_lt (.type part) inside).trans_le (by omega)
    · omega

theorem Sound.rank_symbol_lt (sound : overlay.Sound) (formed : graph.WellFormed)
    (order : graph.Order) (found : overlay.type id = .ok node) {symbol : SymbolId}
    (named : symbol ∈ node.form.symbol?) : order.rank (.symbol symbol) < rank order id := by
  have held := sound.symbol_held formed found named
  rcases type_cases found with known | ⟨outside, derived⟩
  · have mentioned : graph.Mentions (.type id) (.symbol symbol) := by
      unfold Graph.Mentions
      rw [Graph.mentions_type known]
      exact List.mem_append_right _ (by simpa using named)
    have inside : id.index < graph.types.length := Graph.holds_of_mentions mentioned
    rw [rank, if_pos inside]
    exact order.descends _ _ mentioned
  · rw [rank, if_neg (Nat.not_lt.mpr outside)]
    exact (order.rank_lt _ held).trans_le (by omega)

end Overlay

/-! ## The trees of a graph -/

namespace Graph

def treeWithin (graph : Graph) : Nat → TypeId → TypeTree
  | 0, _ => default
  | fuel + 1, id =>
    match graph.type id with
    | .ok node => node.tree (treeWithin graph fuel)
    | .error _ => default

/-- The tree of a type of the graph. -/
def tree (graph : Graph) (id : TypeId) : TypeTree :=
  graph.treeWithin (graph.symbols.length + graph.types.length) id

variable {graph : Graph}

theorem unfolds_treeWithin (formed : graph.WellFormed) (order : graph.Order) (fuel : Nat)
    {id : TypeId} (held : graph.Holds (.type id)) (deep : order.rank (.type id) < fuel) :
    ({} : Overlay graph).Unfolds id (graph.treeWithin fuel id) := by
  induction fuel generalizing id with
  | zero => exact absurd deep (Nat.not_lt_zero _)
  | succ fuel ih =>
      obtain ⟨node, found⟩ := holds_type_iff.mp held
      simp only [treeWithin, found]
      refine .node (Overlay.type_of_graph found) fun part listed => ?_
      have mentioned : graph.Mentions (.type id) (.type part) := by
        unfold Mentions
        rw [mentions_type found]
        exact List.mem_append_left _ (List.mem_map_of_mem listed)
      exact ih (formed.closed _ _ mentioned)
        (Nat.lt_of_lt_of_le (order.descends _ _ mentioned) (Nat.le_of_lt_succ deep))

theorem WellFormed.unfolds_tree (formed : graph.WellFormed) {id : TypeId}
    (held : graph.Holds (.type id)) (overlay : Overlay graph) :
    overlay.Unfolds id (graph.tree id) :=
  (unfolds_treeWithin formed formed.order _ held (formed.order.rank_lt _ held)).mono
    overlay.empty_le

end Graph

/-! ## Deriving types -/

namespace Overlay

variable {graph : Graph} {overlay : Overlay graph} {id : TypeId} {node : TypeNode} {tree : TypeTree}

/-- A derivation leaves the overlay with a handle for `tree`. -/
structure Derives (overlay : Overlay graph) (step : TypeId × Overlay graph) (tree : TypeTree) :
    Prop where
  grown : overlay ≤ step.2
  sound : step.2.Sound
  unfolds : step.2.Unfolds step.1 tree

theorem Sound.push (sound : overlay.Sound) {part : TypeId → TypeTree}
    (unknown : node ∉ graph.types) (underived : node ∉ overlay.derived)
    (parts : ∀ other ∈ node.form.parts, overlay.Unfolds other (part other))
    (symbols : ∀ symbol ∈ node.form.symbol?, graph.Holds (.symbol symbol))
    (index : Index (overlay.derived ++ [node])) :
    ({ derived := overlay.derived ++ [node], index } : Overlay graph).Sound where
  shared := by
    rw [← List.append_assoc, ← List.concat_eq_append]
    exact sound.shared.concat fun listed => (List.mem_append.mp listed).elim unknown underived
  parts_lt index other stored part listed := by
    by_cases older : index < overlay.derived.length
    · rw [List.getElem?_append_left older] at stored
      exact sound.parts_lt index other stored part listed
    · rw [List.getElem?_append_right (Nat.not_lt.mp older)] at stored
      have newest : other = node := List.mem_singleton.mp (List.mem_of_getElem? stored)
      have bound := (parts part (newest ▸ listed)).index_lt
      omega
  symbols other listed symbol named := by
    rcases List.mem_append.mp listed with older | newest
    · exact sound.symbols other older symbol named
    · exact symbols symbol (List.mem_singleton.mp newest ▸ named)

theorem Sound.derives_intern (sound : overlay.Sound) (node : TypeNode) {part : TypeId → TypeTree}
    (parts : ∀ other ∈ node.form.parts, overlay.Unfolds other (part other))
    (symbols : ∀ symbol ∈ node.form.symbol?, graph.Holds (.symbol symbol)) :
    overlay.Derives (overlay.intern node) (node.tree part) := by
  cases known : graph.types.idxOf? node with
  | some index =>
      have step : overlay.intern node = (⟨index⟩, overlay) := by
        simp [intern, Graph.findType?, known]
      obtain ⟨inside, same, -⟩ := List.idxOf?_eq_some_iff.mp known
      rw [step]
      exact ⟨le_rfl, sound, .node (type_of_graph (Graph.type_eq_ok_iff.mpr
        (List.getElem?_eq_some_iff.mpr ⟨inside, same⟩))) parts⟩
  | none =>
      cases derived : overlay.derived.idxOf? node with
      | some offset =>
          have step : overlay.intern node = (⟨graph.types.length + offset⟩, overlay) := by
            simp [intern, Graph.findType?, known, derived]
          obtain ⟨inside, same, -⟩ := List.idxOf?_eq_some_iff.mp derived
          rw [step]
          refine ⟨le_rfl, sound, .node (type_eq_ok_iff.mpr ?_) parts⟩
          rw [List.getElem?_append_right (Nat.le_add_right _ _), Nat.add_sub_cancel_left]
          exact List.getElem?_eq_some_iff.mpr ⟨inside, same⟩
      | none =>
          have step : overlay.intern node = (⟨graph.types.length + overlay.derived.length⟩,
              { derived := overlay.derived ++ [node], index := overlay.index.insert node }) := by
            simp [intern, Graph.findType?, known, derived]
          rw [List.idxOf?_eq_none_iff] at known derived
          have grown : overlay ≤
              { derived := overlay.derived ++ [node], index := overlay.index.insert node } :=
            List.prefix_append _ _
          rw [step]
          refine ⟨grown, sound.push known derived parts symbols _, .node (type_eq_ok_iff.mpr ?_)
            fun other listed => (parts other listed).mono grown⟩
          simp [← List.append_assoc]

theorem Sound.derives_referenceTo (sound : overlay.Sound) (unfolds : overlay.Unfolds id tree) :
    overlay.Derives (overlay.referenceTo id) (.reference tree) :=
  have inside : ∀ other ∈ (TypeForm.reference id).parts, overlay.Unfolds other tree := by
    simpa [TypeForm.parts] using unfolds
  sound.derives_intern { form := .reference id } inside (by simp [TypeForm.symbol?])

theorem Sound.derives_thunkOf (sound : overlay.Sound) (unfolds : overlay.Unfolds id tree) :
    overlay.Derives (overlay.thunkOf id) (.thunk tree) := by
  have inside : ∀ other ∈ (TypeForm.function { result := id }).parts,
      overlay.Unfolds other tree := by
    simpa [TypeForm.parts] using unfolds
  have function : overlay.Derives (overlay.intern { form := .function { result := id } })
      (.function tree [] {} {}) :=
    sound.derives_intern { form := .function { result := id } } inside (by simp [TypeForm.symbol?])
  have target : ∀ other ∈
      (TypeForm.pointer (overlay.intern { form := .function { result := id } }).1).parts,
      (overlay.intern { form := .function { result := id } }).2.Unfolds other
        (.function tree [] {} {}) := by
    simpa [TypeForm.parts] using function.unfolds
  have pointer := function.sound.derives_intern { form := .pointer _ } target
    (by simp [TypeForm.symbol?])
  exact ⟨function.grown.trans pointer.grown, pointer.sound, pointer.unfolds⟩

theorem Sound.derives_passed (sound : overlay.Sound) {param : Param}
    (unfolds : overlay.Unfolds param.type tree) :
    overlay.Derives (overlay.passed param) (.passed (param.passing, tree)) := by
  unfold passed
  cases param.passing with
  | value => exact ⟨le_rfl, sound, unfolds⟩
  | ref | out => exact sound.derives_referenceTo unfolds
  | lazy => exact sound.derives_thunkOf unfolds

theorem Sound.derives_returned (sound : overlay.Sound) {signature : Signature}
    (unfolds : overlay.Unfolds signature.result tree) :
    overlay.Derives (overlay.returned signature) (.returned signature.convention tree) := by
  unfold returned TypeTree.returned Signature.convention
  dsimp only
  split
  · exact sound.derives_referenceTo unfolds
  · exact ⟨le_rfl, sound, unfolds⟩

theorem Sound.derives_mutable (sound : overlay.Sound) (formed : graph.WellFormed)
    (unfolds : overlay.Unfolds id tree) (found : overlay.type id = .ok node) :
    overlay.Derives (overlay.intern node.mutable) tree.mutable := by
  obtain ⟨node', part, found', rfl, parts⟩ := unfolds.found
  obtain rfl : node = node' := Except.ok.inj (found.symm.trans found')
  rw [← TypeNode.mutable_tree]
  exact sound.derives_intern _ parts fun symbol named => sound.symbol_held formed found named

end Overlay

/-! ## Nested arrays -/

/-- The dimensions of nested arrays, outermost first, and the type of their elements. -/
def TypeTree.shape : TypeTree → List Nat × TypeTree
  | .layer (.staticArray dim) inner _ => (dim :: inner.shape.1, inner.shape.2)
  | tree => ([], tree)

theorem TypeTree.isStaticArray_shape (tree : TypeTree) : tree.shape.2.isStaticArray = false := by
  induction tree with
  | layer around inner quals ih =>
      cases around with
      | staticArray dim => exact ih
      | _ => rfl
  | _ => rfl

namespace Overlay

variable {graph : Graph} {overlay : Overlay graph} {id : TypeId} {tree : TypeTree}

theorem Sound.shapeWithin (sound : overlay.Sound) (formed : graph.WellFormed) (fuel : Nat)
    (unfolds : overlay.Unfolds id tree) (deep : rank formed.order id < fuel) :
    ∃ base, overlay.shapeWithin fuel id = .ok (tree.shape.1, base) ∧
      overlay.Unfolds base tree.shape.2 := by
  induction fuel generalizing id tree with
  | zero => exact absurd deep (Nat.not_lt_zero _)
  | succ fuel ih =>
      obtain ⟨⟨form, quals⟩, part, found, rfl, parts⟩ := unfolds.found
      simp only [Overlay.shapeWithin, found]
      cases form
      case staticArray dim element =>
        have listed : element ∈ (TypeForm.staticArray dim element).parts := List.mem_cons_self
        have lower := sound.rank_part_lt formed formed.order found listed
        obtain ⟨base, shaped, unfolded⟩ := ih (parts element listed) (by omega)
        refine ⟨base, ?_, unfolded⟩
        simp [bind, Except.bind, shaped, TypeNode.tree, TypeTree.shape, pure, Except.pure]
      all_goals exact ⟨id, rfl, unfolds⟩

theorem Sound.shape (sound : overlay.Sound) (formed : graph.WellFormed)
    (unfolds : overlay.Unfolds id tree) :
    ∃ base, overlay.shape id = .ok (tree.shape.1, base) ∧ overlay.Unfolds base tree.shape.2 :=
  sound.shapeWithin formed overlay.reach unfolds
    ((rank_lt_reach formed.order unfolds).trans (Nat.lt_succ_self _))

end Overlay

end LinkName
