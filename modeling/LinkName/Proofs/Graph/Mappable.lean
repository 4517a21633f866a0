import LinkName.Proofs.Graph.Siblings
import LinkName.Proofs.Graph.Template
import LinkName.Proofs.Type.Weight

/-!
What has a counterpart in C++. A type is mappable if all that it is made of is, a scope if the
arguments of all specializations around it are, and a declaration if its scope and its parameters
are. An argument may be a declaration, so the four notions are defined together.
-/
namespace LinkName

namespace Graph

variable (graph : Graph)

/-- The type has the form, and no qualifier that C++ does not have. -/
def IsNative (id : TypeId) (form : TypeForm) : Prop :=
  ∃ node, graph.type id = .ok node ∧ node.isForeign = false ∧ node.form = form

/-- An array would have to be copied for the parameter. -/
def CopiesArray (param : Param) : Prop :=
  param.passing = .value ∧ ∃ node, graph.type param.type = .ok node ∧ node.form.isStaticArray = true

mutual

inductive MappableType : TypeId → Prop
  | basic {id : TypeId} {basic : BasicType} (native : graph.IsNative id (.basic basic)) :
      MappableType id
  | pointer {id target : TypeId} (native : graph.IsNative id (.pointer target))
      (inner : MappableType target) : MappableType id
  | reference {id target : TypeId} (native : graph.IsNative id (.reference target))
      (inner : MappableType target) : MappableType id
  | staticArray {id element : TypeId} {dim : Nat}
      (native : graph.IsNative id (.staticArray dim element)) (inner : MappableType element) :
      MappableType id
  | vector {id element : TypeId} (native : graph.IsNative id (.vector element))
      (inner : MappableType element) : MappableType id
  | function {id : TypeId} {signature : Signature}
      (native : graph.IsNative id (.function signature)) (result : MappableType signature.result)
      (params : ∀ param ∈ signature.params, MappableType param.type)
      (passed : ∀ param ∈ signature.params, ¬ graph.CopiesArray param) : MappableType id
  | record {id : TypeId} {symbol : SymbolId} (native : graph.IsNative id (.record symbol))
      (scope : MappableScope symbol) : MappableType id
  | enumeration {id : TypeId} {symbol : SymbolId} {base : BasicType}
      (native : graph.IsNative id (.enumeration symbol base)) (scope : MappableScope symbol) :
      MappableType id
  | classRef {id : TypeId} {symbol : SymbolId} (native : graph.IsNative id (.classRef symbol))
      (scope : MappableScope symbol) : MappableType id

/-- All specializations among a symbol and the scopes around it, up to the first module, have mappable
arguments. -/
inductive MappableScope : SymbolId → Prop
  | intro {id : SymbolId} {symbol : Symbol} {scope : Option SymbolId}
      (stored : graph.symbol id = .ok symbol) (found : graph.scopeParent id = .ok scope)
      (specialized : ∀ template args, symbol.sort = .specialization template args →
        MappableArguments args)
      (outside : ∀ outer, scope = some outer → MappableScope outer) : MappableScope id

/-- A list of mappable arguments, of which the last may be a pack of such arguments. -/
inductive MappableArguments : List TemplateArg → Prop
  | nil : MappableArguments []
  | pack {args : List TemplateArg} (each : ∀ arg ∈ args, MappableArgument arg) :
      MappableArguments [.pack args]
  | cons {first : TemplateArg} {rest : List TemplateArg} (head : MappableArgument first)
      (tail : MappableArguments rest) : MappableArguments (first :: rest)

inductive MappableArgument : TemplateArg → Prop
  | type {id : TypeId} (mappable : MappableType id) : MappableArgument (.type id)
  | value {id : TypeId} {node : TypeNode} {number : Int} (stored : graph.type id = .ok node)
      (integral : node.form.integral?.isSome = true) (mappable : MappableType id) :
      MappableArgument (.value id number)
  | declaration {id : SymbolId} (mappable : MappableDeclaration id) :
      MappableArgument (.symbolAlias id)
  | template {id member : SymbolId} {symbol : Symbol} (stored : graph.symbol id = .ok symbol)
      (sort : symbol.sort = .template (some member)) (scope : MappableScope id) :
      MappableArgument (.symbolAlias id)

/-- A variable that the linker can see, or a function. Only a function with C++ linkage has a scope
and parameters; its return type is not looked at. -/
inductive MappableDeclaration : SymbolId → Prop
  | var {id : SymbolId} {symbol : Symbol} {info : VariableInfo}
      (stored : graph.symbol id = .ok symbol) (sort : symbol.sort = .var info)
      (linkable : info.storage.isLinkable = true) (scope : MappableScope id) :
      MappableDeclaration id
  | function {id : SymbolId} {symbol : Symbol} {info : FunctionInfo} {signature : Signature}
      {quals : Qualifiers} (stored : graph.symbol id = .ok symbol)
      (sort : symbol.sort = .function info)
      (typed : graph.type info.type = .ok { form := .function signature, quals })
      (linkage : signature.linkage = .cpp) (scope : MappableScope id)
      (params : ∀ param ∈ signature.params, MappableType param.type)
      (passed : ∀ param ∈ signature.params, ¬ graph.CopiesArray param) : MappableDeclaration id
  | external {id : SymbolId} {symbol : Symbol} {info : FunctionInfo} {signature : Signature}
      {quals : Qualifiers} (stored : graph.symbol id = .ok symbol)
      (sort : symbol.sort = .function info)
      (typed : graph.type info.type = .ok { form := .function signature, quals })
      (linkage : signature.linkage ≠ .cpp) : MappableDeclaration id

end

end Graph

/-! ## Mappable trees -/

namespace TypeTree

/-- A parameter that is an array, passed by value. -/
def copiesArray (param : Passing × TypeTree) : Bool := (passed param).isStaticArray

/-- The type is mappable if the scopes that it names are. -/
inductive Mappable (scope : SymbolId → Prop) : TypeTree → Prop
  | basic {builtin : BasicType} {quals : Qualifiers}
      (native : (TypeTree.basic builtin quals).isForeign = false) : Mappable scope (.basic builtin quals)
  | layer {around : Layer} {inner : TypeTree} {quals : Qualifiers}
      (native : (TypeTree.layer around inner quals).isForeign = false)
      (spelled : around ≠ .dynamicArray ∧ around ≠ .delegate) (inside : Mappable scope inner) :
      Mappable scope (.layer around inner quals)
  | named {naming : Naming} {symbol : SymbolId} {quals : Qualifiers}
      (native : (TypeTree.named naming symbol quals).isForeign = false) (spelled : naming ≠ .typedef)
      (outside : scope symbol) : Mappable scope (.named naming symbol quals)
  | function {result : TypeTree} {params : List (Passing × TypeTree)} {convention : Convention}
      {quals : Qualifiers}
      (native : (TypeTree.function result params convention quals).isForeign = false)
      (returned : Mappable scope result) (each : ∀ param ∈ params, Mappable scope param.2)
      (passed : ∀ param ∈ params, copiesArray param = false) :
      Mappable scope (.function result params convention quals)

variable {scope : SymbolId → Prop}

theorem Mappable.native {tree : TypeTree} (mappable : tree.Mappable scope) :
    tree.isForeign = false := by
  cases mappable <;> assumption

theorem not_mappable_of_isForeign {tree : TypeTree} (foreign : tree.isForeign = true) :
    ¬ tree.Mappable scope := by
  intro mappable
  rw [mappable.native] at foreign
  cases foreign

theorem mappable_reference_iff {target : TypeTree} :
    (reference target).Mappable scope ↔ target.Mappable scope := by
  constructor
  · rintro ⟨⟩
    assumption
  · exact .layer rfl ⟨nofun, nofun⟩

theorem mappable_thunk_iff {result : TypeTree} :
    (thunk result).Mappable scope ↔ result.Mappable scope := by
  constructor
  · rintro (_ | ⟨_, _, ⟨⟩⟩)
    assumption
  · exact fun mappable => .layer rfl ⟨nofun, nofun⟩ (.function rfl mappable (by simp) (by simp))

theorem mappable_passed_iff {param : Passing × TypeTree} :
    (passed param).Mappable scope ↔ param.2.Mappable scope := by
  rcases param with ⟨passing, type⟩
  cases passing with
  | value => exact Iff.rfl
  | ref | out => exact mappable_reference_iff
  | lazy => exact mappable_thunk_iff

theorem mappable_returned_iff {convention : Convention} {result : TypeTree} :
    (returned convention result).Mappable scope ↔ result.Mappable scope := by
  unfold returned
  split
  · exact mappable_reference_iff
  · exact Iff.rfl

theorem isForeign_mutable (tree : TypeTree) : tree.mutable.isForeign = tree.isForeign := by
  cases tree <;> rfl

/-- Whether a type is mappable does not depend on its `const`. -/
theorem mappable_mutable_iff {tree : TypeTree} :
    tree.mutable.Mappable scope ↔ tree.Mappable scope := by
  have native := isForeign_mutable tree
  constructor
  · intro mappable
    rw [mappable.native] at native
    cases tree with
    | basic => exact .basic native.symm
    | layer =>
        cases mappable with
        | layer _ spelled inside => exact .layer native.symm spelled inside
    | named =>
        cases mappable with
        | named _ spelled outside => exact .named native.symm spelled outside
    | assocArray => cases mappable
    | function =>
        cases mappable with
        | function _ returned each passed => exact .function native.symm returned each passed
  · intro mappable
    rw [mappable.native] at native
    cases mappable with
    | basic => exact .basic native
    | layer _ spelled inside => exact .layer native spelled inside
    | named _ spelled outside => exact .named native spelled outside
    | function _ returned each passed => exact .function native returned each passed

theorem mappable_withoutConst_iff {tree : TypeTree} :
    tree.withoutConst.Mappable scope ↔ tree.Mappable scope := by
  unfold withoutConst
  split
  · exact mappable_mutable_iff
  · exact Iff.rfl

end TypeTree

/-! ## Mappable types as trees -/

namespace Graph

variable {graph : Graph} {id : TypeId}

theorem isNative_iff {form form' : TypeForm} {quals : Qualifiers}
    (stored : graph.type id = .ok ⟨form, quals⟩) :
    graph.IsNative id form' ↔ form' = form ∧ (TypeNode.mk form quals).isForeign = false := by
  constructor
  · rintro ⟨node, stored', native, rfl⟩
    cases stored.symm.trans stored'
    exact ⟨rfl, native⟩
  · rintro ⟨rfl, native⟩
    exact ⟨_, stored, native, rfl⟩

theorem copiesArray_iff (formed : graph.WellFormed) {param : Param}
    (held : graph.Holds (.type param.type)) :
    TypeTree.copiesArray (param.passing, graph.tree param.type) = true ↔ graph.CopiesArray param := by
  obtain ⟨node, stored⟩ := holds_type_iff.mp held
  rcases param with ⟨type, passing⟩
  have array : (graph.tree type).isStaticArray = node.form.isStaticArray := by
    rw [formed.tree_eq stored, TypeNode.isStaticArray_tree]
  constructor
  · intro copies
    cases passing with
    | value => exact ⟨rfl, node, stored, array ▸ copies⟩
    | _ => cases copies
  · rintro ⟨rfl, node', stored', isArray⟩
    cases stored.symm.trans stored'
    exact array.trans isArray

/-- The parameters of a signature are mappable if their trees are. -/
theorem mappable_params_iff (formed : graph.WellFormed) {signature : Signature} {quals : Qualifiers}
    (stored : graph.type id = .ok ⟨.function signature, quals⟩)
    (each : ∀ param ∈ signature.params, graph.MappableType param.type ↔
      (graph.tree param.type).Mappable graph.MappableScope) :
    ((∀ param ∈ signature.params, graph.MappableType param.type) ∧
        ∀ param ∈ signature.params, ¬ graph.CopiesArray param) ↔
      ∀ param ∈ signature.params.map fun param => (param.passing, graph.tree param.type),
        param.2.Mappable graph.MappableScope ∧ TypeTree.copiesArray param = false := by
  rw [List.forall_mem_map, ← forall₂_and]
  refine forall₂_congr fun param listed => ?_
  rw [each param listed, ← copiesArray_iff formed (formed.closed _ _ (mentions_param stored listed)),
    Bool.not_eq_true]

section

variable {form : TypeForm} {quals : Qualifiers} (formed : graph.WellFormed)
variable (stored : graph.type id = .ok ⟨form, quals⟩)
variable (parts : ∀ part ∈ form.parts,
  graph.MappableType part ↔ (graph.tree part).Mappable graph.MappableScope)

include formed stored parts

theorem MappableType.node (mappable : graph.MappableType id) :
    ((TypeNode.mk form quals).tree graph.tree).Mappable graph.MappableScope := by
  have isNative (form' : TypeForm) : graph.IsNative id form' ↔ _ := isNative_iff stored
  have native : ((TypeNode.mk form quals).tree graph.tree).isForeign = _ := TypeNode.isForeign_tree
  cases mappable with
  | basic is =>
      obtain ⟨rfl, fine⟩ := (isNative _).mp is
      exact .basic (native.trans fine)
  | pointer is inner | reference is inner | staticArray is inner | vector is inner =>
      obtain ⟨rfl, fine⟩ := (isNative _).mp is
      exact .layer (native.trans fine) ⟨nofun, nofun⟩ ((parts _ List.mem_cons_self).mp inner)
  | record is scope | enumeration is scope | classRef is scope =>
      obtain ⟨rfl, fine⟩ := (isNative _).mp is
      exact .named (native.trans fine) nofun scope
  | function is result params passed =>
      obtain ⟨rfl, fine⟩ := (isNative _).mp is
      have each := (mappable_params_iff formed stored fun param listed =>
        parts _ (List.mem_cons_of_mem _ (List.mem_map_of_mem listed))).mp ⟨params, passed⟩
      exact .function (native.trans fine) ((parts _ List.mem_cons_self).mp result)
        (fun param listed => (each param listed).1) fun param listed => (each param listed).2

theorem MappableType.of_node
    (mappable : ((TypeNode.mk form quals).tree graph.tree).Mappable graph.MappableScope) :
    graph.MappableType id := by
  have native : ((TypeNode.mk form quals).tree graph.tree).isForeign = _ := TypeNode.isForeign_tree
  have fine := native.symm.trans mappable.native
  have is : graph.IsNative id form := (isNative_iff stored).mpr ⟨rfl, fine⟩
  cases form with
  | basic basic => exact .basic is
  | pointer target =>
      cases mappable with
      | layer _ _ inside => exact .pointer is ((parts _ List.mem_cons_self).mpr inside)
  | reference target =>
      cases mappable with
      | layer _ _ inside => exact .reference is ((parts _ List.mem_cons_self).mpr inside)
  | staticArray dim element =>
      cases mappable with
      | layer _ _ inside => exact .staticArray is ((parts _ List.mem_cons_self).mpr inside)
  | vector element =>
      cases mappable with
      | layer _ _ inside => exact .vector is ((parts _ List.mem_cons_self).mpr inside)
  | function signature =>
      cases mappable with
      | function _ returned each passed =>
          obtain ⟨params, fine⟩ := (mappable_params_iff formed stored fun param listed =>
            parts _ (List.mem_cons_of_mem _ (List.mem_map_of_mem listed))).mpr fun param listed =>
              ⟨each param listed, passed param listed⟩
          exact .function is ((parts _ List.mem_cons_self).mpr returned) params fine
  | record symbol =>
      cases mappable with
      | named _ _ outside => exact .record is outside
  | enumeration symbol base =>
      cases mappable with
      | named _ _ outside => exact .enumeration is outside
  | classRef symbol =>
      cases mappable with
      | named _ _ outside => exact .classRef is outside
  | dynamicArray element =>
      cases mappable with
      | layer _ spelled _ => exact absurd rfl spelled.1
  | delegate function =>
      cases mappable with
      | layer _ spelled _ => exact absurd rfl spelled.2
  | typedef symbol =>
      cases mappable with
      | named _ spelled _ => exact absurd rfl spelled
  | assocArray key value => cases mappable

end

/-- A type is mappable just when its tree is. -/
theorem mappableType_iff (formed : graph.WellFormed) (held : graph.Holds (.type id)) :
    graph.MappableType id ↔ (graph.tree id).Mappable graph.MappableScope := by
  refine formed.type_induction (motive := fun id => graph.MappableType id ↔
    (graph.tree id).Mappable graph.MappableScope) ?_ held
  rintro id ⟨form, quals⟩ stored - - ih
  rw [formed.tree_eq stored]
  exact ⟨MappableType.node formed stored ih, MappableType.of_node formed stored ih⟩

/-! ## Levels of a mappable scope -/

section

variable {id : SymbolId} {symbol : Symbol}

theorem mappableScope_iff {scope : Option SymbolId} (stored : graph.symbol id = .ok symbol)
    (found : graph.scopeParent id = .ok scope) :
    graph.MappableScope id ↔
      (∀ template args, symbol.sort = .specialization template args →
        graph.MappableArguments args) ∧
      ∀ outer, scope = some outer → graph.MappableScope outer := by
  constructor
  · rintro ⟨stored', found', specialized, outside⟩
    cases stored.symm.trans stored'
    cases found.symm.trans found'
    exact ⟨specialized, outside⟩
  · rintro ⟨specialized, outside⟩
    exact .intro stored found specialized outside

/-- A specialization does not lie directly in another one. -/
theorem ProperTemplates.specialization_apart (proper : graph.ProperTemplates)
    {template parent : SymbolId}
    {outer : Symbol} (stored : graph.symbol id = .ok symbol)
    (special : symbol.template? = some template) (inside : symbol.parent = some parent)
    (known : graph.symbol parent = .ok outer) : outer.template? = none := by
  obtain ⟨general, member, found, sort⟩ := proper.general id symbol template stored special
  obtain ⟨copied, found', -, parents⟩ := proper.copies id symbol template stored special
  cases found.symm.trans found'
  exact proper.apart template general member parent outer found sort (parents.trans inside) known

/-- Only its parent is named in the place of a symbol. -/
theorem name_or_parent_of_level {level : Level} (stored : graph.symbol id = .ok symbol)
    (found : graph.level id = .ok level) : level.name = id ∨ symbol.parent = some level.name := by
  obtain ⟨symbol', stored', ⟨-, rfl⟩ | ⟨parent, outer, inside, -, ends⟩⟩ := level_eq_ok_iff.mp found
  · exact .inl rfl
  · rcases ends with ⟨-, rfl⟩ | ⟨template, scope, -, -, rfl⟩
    · exact .inl rfl
    · cases stored.symm.trans stored'
      exact .inr inside

/-- A scope is mappable if its level is and the scope around that. -/
theorem ProperTemplates.mappableScope_level_iff (proper : graph.ProperTemplates) {level : Level}
    {named : Symbol} (stored : graph.symbol id = .ok symbol) (found : graph.level id = .ok level)
    (known : graph.symbol level.name = .ok named) :
    graph.MappableScope id ↔
      (∀ template args, named.sort = .specialization template args →
        graph.MappableArguments args) ∧
      ∀ outer, level.scope = some outer → graph.MappableScope outer := by
  have isLevel := isLevel_of_level found
  rw [← mappableScope_iff known isLevel.scope]
  by_cases same : level.name = id
  · rw [same]
  have inside := (name_or_parent_of_level stored found).resolve_left same
  have special : named.template?.isSome := by
    rcases isLevel.name with ⟨own, -⟩ | ⟨-, named', template, known', special, -⟩
    · exact absurd own same
    · cases known.symm.trans known'
      simp [special]
  have plain : symbol.template? = none := by
    by_contra some
    obtain ⟨template, copy⟩ := Option.ne_none_iff_exists'.mp some
    simp [proper.specialization_apart stored copy inside known] at special
  rw [mappableScope_iff stored (scopeParent_of_member stored inside known special)]
  refine ⟨fun scope => scope.2 _ rfl, fun scope => ⟨fun template args sort => ?_, ?_⟩⟩
  · simp [Symbol.template?, sort] at plain
  · rintro _ ⟨⟩
    exact scope

/-! ## Mappable declarations -/

theorem mappableDeclaration_var_iff {info : VariableInfo} (stored : graph.symbol id = .ok symbol)
    (sort : symbol.sort = .var info) :
    graph.MappableDeclaration id ↔ info.storage.isLinkable = true ∧ graph.MappableScope id := by
  constructor
  · intro mappable
    cases mappable with
    | var stored' sort' linkable scope =>
        cases stored.symm.trans stored'
        cases sort.symm.trans sort'
        exact ⟨linkable, scope⟩
    | function stored' sort' | external stored' sort' =>
        cases stored.symm.trans stored'
        cases sort.symm.trans sort'
  · exact fun ⟨linkable, scope⟩ => .var stored sort linkable scope

theorem mappableDeclaration_function_iff {info : FunctionInfo} {signature : Signature}
    {quals : Qualifiers} (stored : graph.symbol id = .ok symbol) (sort : symbol.sort = .function info)
    (typed : graph.type info.type = .ok ⟨.function signature, quals⟩) :
    graph.MappableDeclaration id ↔ (signature.linkage = .cpp → graph.MappableScope id ∧
      (∀ param ∈ signature.params, graph.MappableType param.type) ∧
        ∀ param ∈ signature.params, ¬ graph.CopiesArray param) := by
  constructor
  · intro mappable
    cases mappable with
    | var stored' sort' =>
        cases stored.symm.trans stored'
        cases sort.symm.trans sort'
    | function stored' sort' typed' linkage scope params passed =>
        cases stored.symm.trans stored'
        cases sort.symm.trans sort'
        cases typed.symm.trans typed'
        exact fun _ => ⟨scope, params, passed⟩
    | external stored' sort' typed' linkage =>
        cases stored.symm.trans stored'
        cases sort.symm.trans sort'
        cases typed.symm.trans typed'
        exact fun same => absurd same linkage
  · intro mappable
    by_cases linkage : signature.linkage = .cpp
    · obtain ⟨scope, params, passed⟩ := mappable linkage
      exact .function stored sort typed linkage scope params passed
    · exact .external stored sort typed linkage

/-- A symbol is mappable as a declaration only if it is one. -/
theorem MappableDeclaration.declares (mappable : graph.MappableDeclaration id)
    (stored : graph.symbol id = .ok symbol) :
    (∃ info, symbol.sort = .var info) ∨ ∃ info signature quals, symbol.sort = .function info ∧
      graph.type info.type = .ok ⟨.function signature, quals⟩ := by
  cases mappable with
  | var stored' sort =>
      cases stored.symm.trans stored'
      exact .inl ⟨_, sort⟩
  | function stored' sort typed | external stored' sort typed =>
      cases stored.symm.trans stored'
      exact .inr ⟨_, _, _, sort, typed⟩

end

end Graph

end LinkName
