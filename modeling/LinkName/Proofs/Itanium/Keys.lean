import LinkName.Proofs.Itanium.Assembly

/-!
The keys of a script: what it asks the table for and what it stores. A run adds nothing else to the
table, and the keys of an item need no more than the item does, so that nothing which encloses an
item is stored while it is written.
-/
namespace LinkName.Itanium

namespace Script

/-- The keys that the table is asked for or given. -/
def keys : Script → List Key
  | .write _ | .refuse _ => []
  | .append first second => first.keys ++ second.keys
  | .orRef key body | .storeThen key body | .thenStore key body | .unlessKnown key body =>
    key :: body.keys

/-! ## What a run adds to the table -/

/-- Slots keep their keys, and the limit stays. -/
theorem run_grows (script : Script) {table last : Table Key} {tokens : List Token}
    (ran : script.run table = .ok (tokens, last)) : table.Grows last := by
  induction script generalizing table last tokens with
  | write written =>
      cases ran
      exact .refl table
  | refuse refusal => cases ran
  | append first second before after =>
      obtain ⟨_, middle, _, begun, ended, -⟩ := run_append ran
      exact (before begun).trans (after ended)
  | orRef key body ih =>
      rcases run_orRef ran with ⟨_, -, -, rfl⟩ | ⟨-, ran⟩
      · exact .refl _
      · exact ih ran
  | storeThen key body ih => exact (Table.Grows.push table key).trans (ih ran)
  | thenStore key body ih =>
      obtain ⟨middle, inner, rfl⟩ := run_thenStore ran
      exact (ih inner).trans (.push middle key)
  | unlessKnown key body ih =>
      rcases run_unlessKnown ran with ⟨-, -, rfl⟩ | ⟨-, ran⟩
      · exact .refl _
      · exact ih ran

/-- A run stores nothing but keys of its script. -/
theorem mem_of_run (script : Script) {table last : Table Key} {tokens : List Token} {key : Key}
    (ran : script.run table = .ok (tokens, last)) (listed : key ∈ last.entries) :
    key ∈ table.entries ∨ key ∈ script.keys := by
  induction script generalizing table last tokens with
  | write written =>
      cases ran
      exact .inl listed
  | refuse refusal => cases ran
  | append first second before after =>
      obtain ⟨_, middle, _, begun, ended, -⟩ := run_append ran
      rcases after ended listed with sooner | new
      · exact (before begun sooner).imp_right (List.mem_append_left _)
      · exact .inr (List.mem_append_right _ new)
  | orRef other body ih =>
      rcases run_orRef ran with ⟨_, -, -, rfl⟩ | ⟨-, ran⟩
      · exact .inl listed
      · exact (ih ran listed).imp_right (List.mem_cons_of_mem _)
  | storeThen other body ih =>
      rcases ih ran listed with stored | new
      · exact (Table.mem_push stored).imp_right fun (same : key = other) => same ▸ List.mem_cons_self
      · exact .inr (List.mem_cons_of_mem _ new)
  | thenStore other body ih =>
      obtain ⟨middle, inner, rfl⟩ := run_thenStore ran
      rcases Table.mem_push listed with sooner | same
      · exact (ih inner sooner).imp_right (List.mem_cons_of_mem _)
      · exact .inr (same ▸ List.mem_cons_self)
  | unlessKnown other body ih =>
      rcases run_unlessKnown ran with ⟨-, -, rfl⟩ | ⟨-, ran⟩
      · exact .inl listed
      · exact (ih ran listed).imp_right (List.mem_cons_of_mem _)

end Script

/-! ## How much keys need -/

variable {graph : Graph}

/-- The graph holds what the key stands for, and it needs less than a bound. -/
def Key.Below (order : graph.Order) (bound : Nat) : Key → Prop
  | .symbol id => graph.Holds (.symbol id) ∧ 8 * order.rank (.symbol id) < bound
  | .type tree => LinkName.Item.Light order bound tree
  | .unnamed => True

theorem Key.Below.mono {order : graph.Order} {bound more : Nat} {key : Key}
    (below : key.Below order bound) (enough : bound ≤ more) : key.Below order more := by
  cases key with
  | symbol id => exact ⟨below.1, below.2.trans_le enough⟩
  | type tree => exact LinkName.Item.Light.mono below enough
  | unnamed => trivial

namespace Script

def Within (order : graph.Order) (bound : Nat) (script : Script) : Prop :=
  ∀ key ∈ script.keys, key.Below order bound

namespace Within

variable {order : graph.Order} {bound more : Nat} {key : Key} {body : Script}

theorem additive : Additive (Within order bound) where
  write _ _ listed := absurd listed List.not_mem_nil
  refuse _ _ listed := absurd listed List.not_mem_nil
  append before after key listed := (List.mem_append.mp listed).elim (before key) (after key)

theorem mono (within : Within order bound body) (enough : bound ≤ more) : Within order more body :=
  fun key listed => (within key listed).mono enough

theorem named (below : key.Below order bound) (within : Within order bound body) :
    Within order bound (.named key body) :=
  List.forall_mem_cons.mpr ⟨below, List.forall_mem_cons.mpr ⟨below, within⟩⟩

theorem compound (below : key.Below order bound) (within : Within order bound body) :
    Within order bound (.compound key body) :=
  List.forall_mem_cons.mpr ⟨below, List.forall_mem_cons.mpr ⟨below, within⟩⟩

theorem orRef (below : key.Below order bound) (within : Within order bound body) :
    Within order bound (.orRef key body) :=
  List.forall_mem_cons.mpr ⟨below, within⟩

theorem thenStore (below : key.Below order bound) (within : Within order bound body) :
    Within order bound (.thenStore key body) :=
  List.forall_mem_cons.mpr ⟨below, within⟩

theorem unlessKnown (below : key.Below order bound) (within : Within order bound body) :
    Within order bound (.unlessKnown key body) :=
  List.forall_mem_cons.mpr ⟨below, within⟩

theorem keyed (below : key.Below order bound) : Keyed (Within order bound) key where
  orRef := orRef below
  thenStore := thenStore below
  named tokens := named below (additive.write tokens)

end Within

end Script

namespace Plan

open Script (Within)

variable {machine : Target} {plan : Plan} {order : graph.Order} {bound : Nat} {id : SymbolId}
variable (formed : graph.WellFormed)
include formed

theorem below_symbol {entity : Entity} (mentioned : graph.Mentions entity (.symbol id))
    (lower : 8 * order.rank entity ≤ bound) : (Key.symbol id).Below order bound := by
  have below := order.descends _ _ mentioned
  exact ⟨formed.closed _ _ mentioned, by omega⟩

theorem sourceName_within (lower : 8 * order.rank (.symbol id) ≤ bound)
    (parts : ∀ part ∈ (LinkName.Item.ofName graph id : List Item), Within order bound (plan part)) :
    Within order bound (plan.sourceName graph id) := by
  refine Within.additive.ofExcept fun symbol stored => ?_
  rcases symbol with ⟨ident, parent, access, sort⟩
  cases sort with
  | specialization template args =>
      have general : graph.Mentions (.symbol id) (.symbol template) :=
        Graph.mentions_template stored rfl
      simp only [LinkName.Item.ofName, stored] at parts
      exact Within.additive.append
        (.named (below_symbol formed general lower) (Within.additive.write [.source ident]))
        (Within.additive.append (Within.additive.write _)
          (Within.additive.append (arguments_additive Within.additive parts) (Within.additive.write _)))
  | _ => exact Within.additive.write _

theorem levelName_within {level : Level} (isLevel : graph.IsLevel id level)
    (lower : 8 * order.rank (.symbol id) ≤ bound)
    (parts : ∀ part ∈ Item.ofLevel graph level, Within order bound (plan part)) :
    Within order bound (plan.levelName graph level) := by
  have lowest := isLevel.rank_name_le order
  have source : Within order bound (plan.sourceName graph level.name) :=
    sourceName_within formed (by omega) fun part listed => parts part (List.mem_append_right _ listed)
  unfold levelName
  cases scope : level.scope with
  | none => exact source
  | some outer =>
      have enclosing : Within order bound (plan (.scope outer)) :=
        parts _ (List.mem_append_left _ (by simp [scope]))
      refine Within.additive.append ?_ source
      unfold Plan.enclosing
      split
      · next template special =>
        exact .unlessKnown
          (below_symbol formed (isLevel.mentions_template special) (by omega)) enclosing
      · exact enclosing

theorem level_within (lower : 8 * order.rank (.symbol id) ≤ bound)
    (parts : ∀ part ∈ Item.ofMention graph id, Within order bound (plan part)) :
    Within order bound (.ofExcept (graph.level id) (plan.levelName graph)) := by
  refine Within.additive.ofExcept fun level found => ?_
  rw [Item.ofMention, found] at parts
  exact levelName_within formed (Graph.isLevel_of_level found) lower parts

theorem scopeName_within (held : graph.Holds (.symbol id))
    (parts : ∀ part ∈ Item.ofMention graph id,
      Within order (8 * order.rank (.symbol id)) (plan part)) :
    Within order (8 * order.rank (.symbol id) + 1) (plan.scopeName graph id) :=
  .named ⟨held, Nat.lt_succ_self _⟩ ((level_within formed le_rfl parts).mono (Nat.le_succ _))

/-- What a name mentions has a smaller need than the symbol that is named. -/
theorem qualifiedName_within (lower : 8 * order.rank (.symbol id) ≤ bound)
    (parts : ∀ part ∈ Item.ofMention graph id, Within order bound (plan part)) :
    Within order bound (plan.qualifiedName graph id) := by
  refine Within.additive.ofExcept fun level found => ?_
  rw [Item.ofMention, found] at parts
  have inside := levelName_within formed (Graph.isLevel_of_level found) lower parts
  split
  · exact Within.additive.append (Within.additive.write _)
      (Within.additive.append inside (Within.additive.write _))
  · exact inside

theorem mention_within (below : (Key.symbol id).Below order bound)
    (parts : ∀ part ∈ Item.ofMention graph id, Within order bound (plan part)) :
    Within order bound (plan.mention graph id) :=
  .compound below (qualifiedName_within formed below.2.le parts)

theorem type_within {tree : TypeTree} {place : Place} (light : LinkName.Item.Light order bound tree)
    (parts : ∀ part ∈ Item.ofType graph tree, Within order bound (plan part)) :
    Within order bound (plan.type graph machine tree place) := by
  refine type_additive Within.additive (Within.keyed light) (.thenStore trivial) ?_ parts
  rintro naming symbol quals rfl
  exact mention_within formed ⟨light.1 symbol List.mem_cons_self, light.2⟩ parts

omit formed in
/-- A symbol that is named as an argument needs less than the argument and one more. -/
theorem below_alias {owner target : SymbolId}
    (held : (Item.argument owner (.symbolAlias target) : Item).Held graph) :
    (Key.symbol target).Below order
      ((Item.argument owner (.symbolAlias target) : Item).need order + 1) := by
  refine ⟨held.2 _ rfl, ?_⟩
  simp only [LinkName.Item.need, TemplateArg.named?, Option.map_some, Option.getD_some]
  omega

theorem item_within {item : Item} (held : item.Held graph)
    (parts : ∀ part ∈ Item.parts graph item, Within order (item.need order) (plan part)) :
    Within order (item.need order + 1) (plan.item graph machine item) := by
  have raised := fun part listed => (parts part listed).mono (Nat.le_succ _)
  cases item with
  | scope id => exact scopeName_within formed held parts
  | argument owner arg =>
      refine argument_additive Within.additive raised ?_
      rintro target rfl
      exact mention_within formed (below_alias held) fun part listed =>
        raised part (List.mem_append_right _ listed)
  | type tree place => exact type_within formed ⟨held, Nat.lt_succ_self _⟩ raised

/-- The keys of an item need no more than the item. -/
theorem settled_within (order : graph.Order) {item : Item} (held : item.Held graph) :
    Within order (item.need order + 1) (settled order machine item) := by
  refine LinkName.Item.induction (Item.descends formed) order (motive := fun item =>
    Within order (item.need order + 1) (settled order machine item)) ?_ held
  intro item held parts
  rw [settled_eq formed order held]
  refine item_within formed held fun part listed => ?_
  exact (parts part listed).mono (Item.below_parts formed order held part listed).2

/-- That holds at any depth. -/
theorem within_within (order : graph.Order) (depth : Nat) {item : Item} (held : item.Held graph) :
    Within order (item.need order + 1) (within graph machine depth item) := by
  induction depth generalizing item with
  | zero => exact Within.additive.refuse _
  | succ depth ih =>
      refine item_within formed held fun part listed => ?_
      obtain ⟨heldPart, less⟩ := Item.below_parts formed order held part listed
      exact (ih heldPart).mono less

theorem declaration_within (order : graph.Order) (id : SymbolId) :
    Within order (8 * order.rank (.symbol id))
      (declaration graph machine (settled order machine) id) := by
  refine declaration_additive Within.additive fun part listed => ?_
  obtain ⟨held, less⟩ := Item.below_ofDeclaration formed order id part listed
  exact (settled_within formed order held).mono less

end Plan

end LinkName.Itanium
