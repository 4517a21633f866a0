import LinkName.Proofs.Itanium.Keys
import Mathlib.Tactic.Choose

/-!
The substitution table while a name is made. What is referred back to is never stored twice: a name
is looked up right before it is stored, and a compound type, whose parts are written and stored
between its look-up and its own slot, is none of the parts. That holds where a run is refused as
well as where it succeeds, so it holds at every point of a run.
-/
namespace LinkName

namespace Overlay

variable {graph : Graph} {overlay : Overlay graph}

/-- Whatever a sound overlay holds has a tree. -/
theorem Sound.unfolds (sound : overlay.Sound) (formed : graph.WellFormed) {id : TypeId}
    {node : TypeNode} (found : overlay.type id = .ok node) : ∃ tree, overlay.Unfolds id tree := by
  induction index : id.index using Nat.strong_induction_on generalizing id node with
  | _ _ ih =>
      rcases type_cases found with known | ⟨above, derived⟩
      · exact ⟨_, formed.unfolds_tree (Graph.holds_type_iff.mpr ⟨node, known⟩) overlay⟩
      · have below : ∀ part ∈ node.form.parts, ∃ tree, overlay.Unfolds part tree := by
          intro part listed
          have less := sound.parts_lt _ node derived part listed
          have inside := (List.getElem?_eq_some_iff.mp derived).1
          have held : part.index < (graph.types ++ overlay.derived).length := by
            rw [List.length_append]
            omega
          exact ih part.index (by omega) (type_eq_ok_iff.mpr (List.getElem?_eq_getElem held)) rfl
        choose! tree unfolds using below
        exact ⟨_, .node found unfolds⟩

theorem Sound.holds_symbols (sound : overlay.Sound) (formed : graph.WellFormed) {id : TypeId}
    {tree : TypeTree} (unfolds : overlay.Unfolds id tree) :
    ∀ symbol ∈ tree.symbols, graph.Holds (.symbol symbol) := by
  induction unfolds with
  | node found _ ih =>
      intro symbol listed
      rcases TypeNode.mem_symbols_tree.mp listed with named | ⟨part, inside, listed⟩
      · exact sound.symbol_held formed found named
      · exact ih part inside symbol listed

end Overlay

namespace Itanium

variable {graph : Graph}

/-- The state that a session is always in: every component that is referred back to has one slot. -/
structure Orderly (session : Session graph (Table Component)) : Prop where
  sound : session.overlay.Sound
  unlimited : session.tables.limit = none
  read : ∃ table, (reading graph).relates session.overlay session.tables table
  once : (session.tables.entries.filter (· ≠ .unnamed)).Nodup

/-- Types and slots are only ever added. -/
structure Extends (session later : Session graph (Table Component)) : Prop where
  overlay : session.overlay ≤ later.overlay
  entries : session.tables.entries <+: later.tables.entries

namespace Extends

variable {first second third : Session graph (Table Component)}

theorem refl (session : Session graph (Table Component)) : Extends session session :=
  ⟨le_rfl, List.prefix_rfl⟩

theorem trans (extends' : Extends first second) (further : Extends second third) :
    Extends first third :=
  ⟨extends'.overlay.trans further.overlay, extends'.entries.trans further.entries⟩

end Extends

/-- From an orderly session the computation stops in an orderly one, whether or not it succeeds. -/
def Keeps {α : Type} (base : Overlay graph) (computation : Encoder graph α) : Prop :=
  ∀ session, base ≤ session.overlay → Orderly session →
    Orderly (stop (computation.run session)) ∧ Extends session (stop (computation.run session))

namespace Keeps

variable {α β : Type} {base : Overlay graph} {computation : Encoder graph α}

/-- A computation that changes nothing. -/
theorem still (same : ∀ session, stop (computation.run session) = session) :
    Keeps base computation := by
  intro session _ orderly
  rw [same]
  exact ⟨orderly, .refl session⟩

theorem pure (value : α) : Keeps base (Pure.pure value : Encoder graph α) := still fun _ => rfl

theorem throw (refusal : Refusal) : Keeps base (MonadExcept.throw refusal : Encoder graph α) :=
  still fun _ => rfl

theorem mono {later : Overlay graph} (keeps : Keeps base computation) (grown : base ≤ later) :
    Keeps later computation :=
  fun session within => keeps session (grown.trans within)

theorem bind {next : α → Encoder graph β} (first : Keeps base computation)
    (rest : ∀ later value, base ≤ later → Keeps later (next value)) :
    Keeps base (computation >>= next) := by
  intro session within orderly
  have begun := first session within orderly
  simp only [EStateM.run, Bind.bind, EStateM.bind] at begun ⊢
  cases ran : computation session with
  | error refusal ended =>
      rw [ran] at begun
      exact begun
  | ok value ended =>
      rw [ran] at begun
      obtain ⟨kept, grown⟩ := begun
      obtain ⟨further, later⟩ :=
        rest ended.overlay value (within.trans grown.overlay) ended le_rfl kept
      exact ⟨further, grown.trans later⟩

theorem map (keeps : Keeps base computation) (change : α → β) :
    Keeps base (computation >>= fun value => Pure.pure (change value)) :=
  keeps.bind fun _ _ _ => .pure _

theorem ofExcept_bind {found : Except Fault α} {next : α → Encoder graph β}
    (rest : ∀ value, found = .ok value → Keeps base (next value)) :
    Keeps base (Encoder.ofExcept found >>= next) := by
  cases found with
  | ok value => exact rest value rfl
  | error fault => exact .throw _

/-- The session is only read. -/
theorem type_bind {id : TypeId} {next : TypeNode → Encoder graph β}
    (rest : ∀ later node, base ≤ later → later.Sound → later.type id = .ok node →
      Keeps later (next node)) :
    Keeps base (Encoder.type id >>= next) := by
  intro session within orderly
  have run : (Encoder.type id >>= next).run session =
      (Encoder.ofExcept (session.overlay.type id) >>= next).run session := rfl
  rw [run]
  exact ofExcept_bind (fun node found =>
    rest session.overlay node within orderly.sound found) session le_rfl orderly

theorem derive_bind {step : Overlay graph → TypeId × Overlay graph} {tree : TypeTree}
    {next : TypeId → Encoder graph β}
    (derives : ∀ overlay, base ≤ overlay → overlay.Sound → overlay.Derives (step overlay) tree)
    (rest : ∀ later id, base ≤ later → later.Unfolds id tree → Keeps later (next id)) :
    Keeps base (Encoder.derive step >>= next) := by
  intro session within orderly
  have derived := derives session.overlay within orderly.sound
  obtain ⟨table, related⟩ := orderly.read
  have kept : Orderly { session with overlay := (step session.overlay).2 } :=
    ⟨derived.sound, orderly.unlimited, ⟨table, (reading graph).mono derived.grown related⟩,
      orderly.once⟩
  obtain ⟨further, later⟩ := rest _ _ (within.trans derived.grown) derived.unfolds _ le_rfl kept
  exact ⟨further, derived.grown.trans later.overlay, later.entries⟩

theorem refuseSymbol (id : SymbolId) : Keeps base (Encoder.refuseSymbol id : Encoder graph α) :=
  ofExcept_bind fun _ _ => ofExcept_bind fun _ _ => .throw _

theorem refuseStorage (id : SymbolId) : Keeps base (Encoder.refuseStorage id : Encoder graph α) :=
  ofExcept_bind fun _ _ => .throw _

theorem refuseType (id : TypeId) (reason : TypeReason) :
    Keeps base (Encoder.refuseType id reason : Encoder graph α) := by
  intro session within orderly
  have kept : Keeps base (Encoder.ofExcept (session.overlay.spellType id) >>= fun text =>
      MonadExcept.throw (.type text reason) : Encoder graph α) := ofExcept_bind fun _ _ => .throw _
  exact kept session within orderly

theorem refuseType_bind (id : TypeId) (reason : TypeReason) {next : α → Encoder graph β} :
    Keeps base (Encoder.refuseType id reason >>= next) := by
  refine still fun session => ?_
  have run : (Encoder.refuseType id reason >>= next).run session =
      ((Encoder.ofExcept (session.overlay.spellType id) >>= fun text =>
        MonadExcept.throw (.type text reason) : Encoder graph α) >>= next).run session := rfl
  rw [run]
  cases session.overlay.spellType id <;> rfl

theorem refuseArgument (owner : SymbolId) (arg : TemplateArg) (reason : ArgumentReason) :
    Keeps base (Encoder.refuseArgument owner arg reason : Encoder graph α) := by
  intro session within orderly
  have kept : Keeps base (Encoder.ofExcept (session.overlay.spellSymbol owner) >>= fun text =>
      Encoder.ofExcept (session.overlay.spellArgument arg) >>= fun argText =>
        MonadExcept.throw (.argument text argText reason) : Encoder graph α) :=
    ofExcept_bind fun _ _ => ofExcept_bind fun _ _ => .throw _
  exact kept session within orderly

theorem demand_bind {condition : Bool} {refusal : Encoder graph Unit}
    {next : Unit → Encoder graph β} (refused : Keeps base refusal) (rest : Keeps base (next ())) :
    Keeps base (Encoder.demand condition refusal >>= next) := by
  have demanded : Keeps base (Encoder.demand condition refusal) := by
    cases condition with
    | true => exact .pure ()
    | false => exact refused
  exact demanded.bind fun _ _ grown => rest.mono grown

theorem concat {write : α → Encoder graph (List β)} {list : List α}
    (each : ∀ element ∈ list, Keeps base (write element)) :
    Keeps base (Encoder.concat write list) := by
  induction list generalizing base with
  | nil => exact .pure []
  | cons first rest ih =>
      have others := ih fun element listed => each element (List.mem_cons_of_mem _ listed)
      exact (each first List.mem_cons_self).bind fun _ _ grown => (others.mono grown).map _

theorem mutableOf_bind (formed : graph.WellFormed) {id : TypeId} {tree : TypeTree}
    {next : TypeId → Encoder graph β} (unfolds : base.Unfolds id tree)
    (rest : ∀ later other, base ≤ later → Keeps later (next other)) :
    Keeps base (Encoder.mutableOf id >>= next) := by
  rw [Encoder.mutableOf, bind_assoc]
  refine type_bind fun later node grown sound found => ?_
  exact derive_bind (fun overlay within sound =>
    sound.derives_mutable formed (unfolds.mono (grown.trans within)) (Overlay.type_mono within found))
    fun last other further _ => rest last other (grown.trans further)

theorem signature_bind {id : TypeId} {next : Signature → Encoder graph β}
    (rest : ∀ later signature quals, base ≤ later → later.Sound →
      later.type id = .ok { form := .function signature, quals } → Keeps later (next signature)) :
    Keeps base (Encoder.signature id >>= next) := by
  rw [Encoder.signature, bind_assoc]
  refine type_bind fun later node grown sound found => ?_
  rcases node with ⟨form, quals⟩
  cases form with
  | function signature => exact rest later signature quals grown sound found
  | _ => exact refuseType_bind id .notFunction

end Keeps

/-! ## Slots -/

namespace Orderly

variable {session later : Session graph (Table Component)} {component : Component} {key : Key}

/-- A component is stored exactly where its key is. -/
theorem mem_iff {overlay : Overlay graph} {components : List Component} {keys : List Key}
    (related : List.Forall₂ (Reads overlay) components keys) (reads : Reads overlay component key)
    (sound : overlay.Sound) : component ∈ components ↔ key ∈ keys := by
  rw [← not_iff_not, ← List.idxOf?_eq_none_iff, ← List.idxOf?_eq_none_iff,
    Reads.idxOf?_eq related reads sound]

theorem store (orderly : Orderly session) (reads : Reads session.overlay component key)
    (fresh : component = .unnamed ∨ component ∉ session.tables.entries) :
    Orderly { session with tables := (session.tables.push component).2 } ∧
      Extends session { session with tables := (session.tables.push component).2 } := by
  obtain ⟨table, related⟩ := orderly.read
  have room : session.tables.isFull = false := by simp [Table.isFull, orderly.unlimited]
  have entries : (session.tables.push component).2.entries =
      session.tables.entries ++ [component] := by
    rw [Table.entries_push, room]
    rfl
  refine ⟨⟨orderly.sound, ?_, ⟨_, relates_push related reads⟩, ?_⟩, le_rfl, ?_⟩
  · rw [Table.limit_push]
    exact orderly.unlimited
  · simp only [entries, List.filter_append]
    by_cases named : component = .unnamed
    · subst named
      simpa using orderly.once
    · have absent := fresh.resolve_left named
      have one : [component].filter (· ≠ .unnamed) = [component] := by simp [named]
      rw [one]
      refine List.Nodup.append orderly.once (List.nodup_singleton _) ?_
      rintro other listed same
      obtain rfl := List.mem_singleton.mp same
      exact absent (List.mem_filter.mp listed).1
  · exact Table.entries_prefix_push _ _

/-- What a script does not store is not stored by a computation that follows it. -/
theorem fresh {base : Overlay graph} {computation : Encoder graph (List Token)} {script : Script}
    {tokens : List Token} (orderly : Orderly session) (within : base ≤ session.overlay)
    (reads : Reads base component key) (follows : Follows base computation script)
    (apart : key ∉ script.keys) (absent : component ∉ session.tables.entries)
    (ran : computation.run session = .ok tokens later) : component ∉ later.tables.entries := by
  obtain ⟨table, related⟩ := orderly.read
  have agrees := follows session table within orderly.sound related
  rw [ran] at agrees
  generalize reached : StateT.run script.run table = course at agrees
  cases agrees with
  | ok grown sound after =>
      rw [mem_iff after.2 (reads.mono (within.trans grown)) sound]
      intro listed
      rcases Script.mem_of_run script reached listed with older | newer
      · exact absent ((mem_iff related.2 (reads.mono within) orderly.sound).mpr older)
      · exact apart newer

end Orderly

theorem run_orBackRef_eq {component : Component} {write : Encoder graph (List Token)}
    {session : Session graph (Table Component)} :
    (orBackRef component write).run session = (session.tables.find? component).elim
      (write.run session) fun slot => .ok [.backRef slot] session := by
  rw [run_orBackRef_elim]
  cases session.tables.find? component <;> rfl

namespace Keeps

variable {base : Overlay graph} {component : Component} {key : Key}
variable {computation : Encoder graph (List Token)}

theorem orBackRef (missing : ∀ session, base ≤ session.overlay → Orderly session →
      component ∉ session.tables.entries →
        Orderly (stop (computation.run session)) ∧
          Extends session (stop (computation.run session))) :
    Keeps base (Itanium.orBackRef component computation) := by
  intro session within orderly
  rw [run_orBackRef_eq]
  cases found : session.tables.find? component with
  | some slot => exact ⟨orderly, .refl session⟩
  | none => exact missing session within orderly (Table.find?_eq_none_iff.mp found)

/-- A name takes its slot right after it has been looked up. -/
theorem named (reads : Reads base component key) (keeps : Keeps base computation) :
    Keeps base (Itanium.orBackRef component (storeThen component computation)) := by
  refine orBackRef fun session within orderly absent => ?_
  obtain ⟨kept, grown⟩ := orderly.store (reads.mono within) (.inr absent)
  have written := keeps { session with tables := (session.tables.push component).2 } within kept
  exact ⟨written.1, grown.trans written.2⟩

/-- A compound type takes its slot when its parts, of which it is none, have taken theirs. -/
theorem guarded {script : Script} (reads : Reads base component key)
    (follows : Follows base computation script) (apart : key ∉ script.keys)
    (keeps : Keeps base computation) (change : List Token → List Token) :
    Keeps base (Itanium.orBackRef component (do
      let tokens ← computation
      store component
      return change tokens)) := by
  refine orBackRef fun session within orderly absent => ?_
  have begun := keeps session within orderly
  simp only [EStateM.run, Bind.bind, EStateM.bind] at begun ⊢
  cases ran : computation session with
  | error refusal ended =>
      rw [ran] at begun
      exact begun
  | ok tokens ended =>
      rw [ran] at begun
      obtain ⟨kept, grown⟩ := begun
      have fresh := orderly.fresh within reads follows apart absent ran
      obtain ⟨further, later⟩ := kept.store (reads.mono (within.trans grown.overlay)) (.inr fresh)
      exact ⟨further, grown.trans later⟩

end Keeps

/-! ## The encoder -/

/-- An encoding that keeps sessions orderly, beside the plan that it follows. -/
structure KeepsPlan (order : graph.Order) (parts : Encoding graph) (plan : Plan) : Prop where
  follows : FollowsPlan parts plan
  within : ∀ item, item.Held graph → (plan item).Within order (item.need order + 1)
  scope : ∀ base id, Keeps base (parts.scope id)
  argument : ∀ base owner arg, Keeps base (parts.argument owner arg)
  type : ∀ base id place, Keeps base (parts.type id place)

namespace KeepsPlan

variable {order : graph.Order} {parts : Encoding graph} {plan : Plan} {base : Overlay graph}
variable {id : SymbolId} {machine : Target} (keeps : KeepsPlan order parts plan)
include keeps

theorem arguments (owner : SymbolId) (args : List TemplateArg) :
    Keeps base (Itanium.arguments parts owner args) := by
  induction args generalizing base with
  | nil => exact .pure []
  | cons first rest ih =>
      have general : Keeps base
          (do return (← parts.argument owner first) ++ (← Itanium.arguments parts owner rest)) :=
        (keeps.argument base owner first).bind fun _ _ _ => ih.map _
      cases first with
      | pack inner =>
          cases rest with
          | nil =>
              exact (Keeps.concat fun arg _ => keeps.argument base owner arg).map
                fun tokens => [.text "I"] ++ tokens ++ [.text "E"]
          | cons second rest => exact .refuseArgument owner _ .packNotLast
      | _ => exact general

theorem sourceName (id : SymbolId) : Keeps base (Itanium.sourceName parts id) := by
  refine Keeps.ofExcept_bind fun symbol _ => ?_
  cases symbol.sort with
  | specialization template args =>
      refine (Keeps.named (.symbol template) (.pure [.source symbol.ident])).bind fun _ _ _ => ?_
      exact (keeps.arguments id args).map _
  | _ => exact .pure _

theorem enclosing (level : Level) (scope : SymbolId) :
    Keeps base (Itanium.enclosing parts level scope) := by
  have known : Keeps base (impliesScope level : Encoder graph Bool) := by
    unfold impliesScope
    split
    · exact .still fun _ => rfl
    · exact .pure false
  refine known.bind fun later implied _ => ?_
  cases implied with
  | true => exact .pure []
  | false => exact keeps.scope later scope

theorem scopeName (id : SymbolId) : Keeps base (Itanium.scopeName parts id) := by
  refine .named (.symbol id) (Keeps.ofExcept_bind fun level _ => ?_)
  split
  · exact (keeps.enclosing level _).bind fun _ _ _ => (keeps.sourceName level.name).map _
  · exact keeps.sourceName level.name

theorem qualifiedName (id : SymbolId) : Keeps base (Itanium.qualifiedName parts id) := by
  refine Keeps.ofExcept_bind fun level _ => ?_
  split
  · exact (keeps.enclosing level _).bind fun _ _ _ => (keeps.sourceName level.name).map _
  · exact keeps.sourceName level.name

variable (formed : graph.WellFormed)
include formed

theorem qualifiedName_within (id : SymbolId) :
    (plan.qualifiedName graph id).Within order (8 * order.rank (.symbol id)) := by
  refine Plan.qualifiedName_within formed le_rfl fun part listed => ?_
  obtain ⟨held, less⟩ := Item.below_ofMention formed order id part listed
  exact (keeps.within part held).mono less

theorem mention (held : graph.Holds (.symbol id)) : Keeps base (Itanium.mention parts id) := by
  refine Keeps.guarded (.symbol id) (keeps.follows.qualifiedName formed held) ?_
    (keeps.qualifiedName id) fun tokens => tokens
  intro listed
  exact Nat.lt_irrefl _ (keeps.qualifiedName_within formed id _ listed).2

/-! ### Types -/

omit keeps formed in
/-- What needs less than a type is not the type. -/
theorem apart {tree : TypeTree} {script : Script}
    (within : script.Within order (tree.weight fun symbol => order.rank (.symbol symbol))) :
    Key.type tree ∉ script.keys :=
  fun listed => Nat.lt_irrefl _ (within _ listed).2

theorem mention_apart (naming : Naming) (symbol : SymbolId) (quals : Qualifiers) :
    Key.type (.named naming symbol quals) ∉ (plan.mention graph symbol).keys := by
  have inside : Key.type (.named naming symbol quals) ∉
      (plan.qualifiedName graph symbol).keys := apart (keeps.qualifiedName_within formed symbol)
  simpa [Plan.mention, Script.compound, Script.keys] using inside

theorem ofType_within {tree : TypeTree}
    (held : ∀ symbol ∈ tree.symbols, graph.Holds (.symbol symbol)) :
    ∀ part ∈ Item.ofType graph tree,
      (plan part).Within order (tree.weight fun symbol => order.rank (.symbol symbol)) := by
  intro part listed
  obtain ⟨heldPart, less⟩ := Item.below_ofType formed order held part listed
  exact (keeps.within part heldPart).mono less

omit keeps formed in
theorem compound {id : TypeId} {tree : TypeTree} {write : Encoder graph (List Token)}
    {script : Script} (unfolds : base.Unfolds id tree) (follows : Follows base write script)
    (apart : Key.type tree ∉ script.keys) (kept : Keeps base write) :
    Keeps base (Itanium.compound id write) :=
  .guarded (.type unfolds) follows apart kept fun tokens => tokens

/-- A type around another. -/
theorem layer {id inner : TypeId} {around : Layer} {tree : TypeTree} {quals : Qualifiers}
    (sound : base.Sound) (unfolds : base.Unfolds id (.layer around tree quals))
    (inside : base.Unfolds inner tree) (lead : List Token) :
    Keeps base (Itanium.compound id do return lead ++ (← parts.type inner .nested)) := by
  have within := keeps.ofType_within formed (sound.holds_symbols formed unfolds)
  exact compound unfolds ((keeps.follows.type base inner _ .nested inside).lead lead)
    (apart (Script.Within.additive.append (Script.Within.additive.write _)
      (within _ List.mem_cons_self)))
    ((keeps.type base inner .nested).map _)

omit keeps in
theorem withoutConst_bind {α : Type} {id : TypeId} {next : TypeId → Encoder graph α}
    (rest : ∀ later other, base ≤ later → Keeps later (next other)) :
    Keeps base (withoutConst id >>= next) := by
  rw [withoutConst, bind_assoc]
  refine Keeps.type_bind fun later node grown sound found => ?_
  obtain ⟨tree, unfolds⟩ := sound.unfolds formed found
  split
  · exact .mutableOf_bind formed unfolds fun last other further =>
      rest last other (grown.trans further)
  · rw [pure_bind]
    exact rest later id grown

theorem parameter {param : Param} {tree : TypeTree} (unfolds : base.Unfolds param.type tree) :
    Keeps base (Itanium.parameter parts param) := by
  rw [Itanium.parameter, Encoder.passed, bind_assoc]
  refine Keeps.derive_bind
    (fun overlay within sound => sound.derives_passed (unfolds.mono within)) fun later id _ _ => ?_
  rw [bind_assoc]
  refine Keeps.type_bind fun last node _ _ _ => ?_
  rw [bind_assoc]
  refine Keeps.demand_bind (.refuseType id .arrayByValue) ?_
  rw [pure_bind]
  exact withoutConst_bind formed fun final other _ => keeps.type final other .outermost

theorem parameters {signature : Signature} {part : TypeId → TypeTree}
    (unfolds : ∀ param ∈ signature.params, base.Unfolds param.type (part param.type)) :
    Keeps base (Itanium.parameters parts signature) :=
  (Keeps.concat fun param listed => keeps.parameter formed (unfolds param listed)).map _

theorem functionType {id : TypeId} {signature : Signature} {quals : Qualifiers}
    {part : TypeId → TypeTree} (sound : base.Sound)
    (unfolds : base.Unfolds id (TypeNode.tree part ⟨.function signature, quals⟩))
    (inside : ∀ other ∈ (TypeForm.function signature).parts, base.Unfolds other (part other)) :
    Keeps base (Itanium.functionType parts id signature) := by
  have within := keeps.ofType_within formed (sound.holds_symbols formed unfolds)
  refine compound unfolds (keeps.follows.functionBody formed inside)
    (apart (Plan.functionType_additive Script.Within.additive within)) ?_
  refine Keeps.derive_bind (fun overlay grown sound =>
    sound.derives_returned ((inside _ List.mem_cons_self).mono grown)) fun later result grown _ => ?_
  refine (keeps.type later result .nested).bind fun last _ further => ?_
  refine (keeps.parameters formed fun param listed => (inside _ ?_).mono (grown.trans further)).map _
  exact List.mem_cons_of_mem _ (List.mem_map_of_mem listed)

omit keeps formed in
theorem basicType {id : TypeId} {node : TypeNode} {basic : BasicType} {tree : TypeTree}
    (unfolds : base.Unfolds id tree) : Keeps base (Itanium.basicType machine id node basic) := by
  unfold Itanium.basicType
  split
  · exact .named (.type unfolds) (.pure _)
  · exact .pure _

theorem namedType {id : TypeId} {node : TypeNode} {naming : Naming} {symbol : SymbolId}
    (unfolds : base.Unfolds id (.named naming symbol node.quals))
    (held : graph.Holds (.symbol symbol)) :
    Keeps base (Itanium.namedType parts id node symbol) := by
  have mentioned : Keeps base (Itanium.mention parts symbol) := keeps.mention formed held
  cases const : node.isConst with
  | true =>
      simp only [Itanium.namedType, const, storeIf, if_true]
      exact .guarded (.type unfolds) (keeps.follows.mention formed held)
        (keeps.mention_apart formed naming symbol node.quals) mentioned (constMark node ++ ·)
  | false =>
      simp only [Itanium.namedType, const, storeIf, Bool.false_eq_true, if_false, pure_bind]
      exact .orBackRef fun session within orderly _ =>
        mentioned.map (constMark node ++ ·) session within orderly

theorem classType {id : TypeId} {node : TypeNode} {symbol : SymbolId} {place : Place}
    (unfolds : base.Unfolds id (.named .classRef symbol node.quals))
    (held : graph.Holds (.symbol symbol)) :
    Keeps base (Itanium.classType parts id node symbol place) := by
  have mentioned : Keeps base (Itanium.mention parts symbol) := keeps.mention formed held
  have apart := keeps.mention_apart formed .classRef symbol node.quals
  have counted (later : Overlay graph) (condition : Bool) :
      Keeps later (storeIf condition .unnamed) := by
    cases condition with
    | true => exact fun session within orderly => orderly.store .unnamed (.inl rfl)
    | false => exact .pure ()
  refine compound unfolds (FollowsPlan.thenStoreIf .unnamed node.isConst _
    (keeps.follows.mention formed held)) ?_
    (mentioned.bind fun later _ _ => (counted later node.isConst).map _)
  cases node.isConst <;> simpa [Script.thenStoreIf, Script.keys] using apart

theorem writes_type (id : TypeId) (place : Place) :
    Keeps base (Itanium.type machine parts id place) := by
  refine Keeps.type_bind fun later node _ sound found => ?_
  obtain ⟨tree, unfolds⟩ := sound.unfolds formed found
  obtain ⟨node', part, found', rfl, inside⟩ := unfolds.found
  obtain rfl : node = node' := Except.ok.inj (found.symm.trans found')
  have named : ∀ symbol ∈ node.form.symbol?, graph.Holds (.symbol symbol) :=
    fun symbol mentioned => sound.symbol_held formed found mentioned
  refine Keeps.demand_bind (.refuseType id .foreignQualifiers) ?_
  rcases node with ⟨form, quals⟩
  cases form with
  | basic basic => exact basicType unfolds
  | pointer target | reference target | vector target | staticArray _ target =>
      exact keeps.layer formed sound unfolds (inside target List.mem_cons_self) _
  | function signature => exact keeps.functionType formed sound unfolds inside
  | record symbol | enumeration symbol _ => exact keeps.namedType formed unfolds (named symbol rfl)
  | classRef symbol => exact keeps.classType formed unfolds (named symbol rfl)
  | dynamicArray _ | assocArray _ _ | delegate _ | typedef _ => exact .refuseType id .noCounterpart

/-! ### Declarations -/

omit formed in
theorem variableName (asArgument : Bool) (id : SymbolId) :
    Keeps base (Itanium.variableName machine parts asArgument id) := by
  refine Keeps.ofExcept_bind fun symbol _ => ?_
  cases symbol.sort with
  | var info =>
      refine Keeps.demand_bind (.refuseStorage id) (Keeps.ofExcept_bind fun scope _ => ?_)
      cases scope with
      | some outer =>
          exact (keeps.scope base outer).bind fun _ _ _ => (keeps.sourceName id).map _
      | none =>
          cases asArgument with
          | true => exact (keeps.sourceName id).map _
          | false => exact .pure _
  | _ => exact .refuseSymbol id

omit formed in
theorem functionPath (info : FunctionInfo) (id : SymbolId) :
    Keeps base (Itanium.functionPath parts info id) := by
  have own (later : Overlay graph) : Keeps later (Itanium.ownName parts info id) := by
    unfold Itanium.ownName
    split
    · exact .pure _
    · exact keeps.sourceName id
  refine Keeps.ofExcept_bind fun scope _ => ?_
  cases scope with
  | some outer => exact (keeps.scope base outer).bind fun later _ _ => (own later).map _
  | none => exact keeps.sourceName id

theorem functionName (id : SymbolId) : Keeps base (Itanium.functionName machine parts id) := by
  refine Keeps.ofExcept_bind fun symbol _ => ?_
  cases symbol.sort with
  | function info =>
      refine Keeps.signature_bind fun later signature quals _ sound found => ?_
      obtain ⟨tree, unfolds⟩ := sound.unfolds formed found
      obtain ⟨node, part, found', -, inside⟩ := unfolds.found
      obtain rfl := Except.ok.inj (found.symm.trans found')
      split
      · refine (keeps.functionPath info id).bind fun last _ grown => ?_
        exact (keeps.parameters formed fun param listed => (inside _
          (List.mem_cons_of_mem _ (List.mem_map_of_mem listed))).mono grown).map _
      · exact (keeps.sourceName id).map _
  | _ => exact .refuseSymbol id

theorem writes_argument (owner : SymbolId) (arg : TemplateArg) :
    Keeps base (Itanium.argument machine parts owner arg) := by
  cases arg with
  | type id => exact keeps.type base id .nested
  | value id number =>
      refine Keeps.type_bind fun later node _ _ _ => ?_
      split
      · exact (keeps.type later id .nested).map _
      · exact .refuseArgument owner _ .notIntegral
  | symbolAlias target =>
      refine Keeps.ofExcept_bind fun symbol stored => ?_
      split
      · refine Keeps.signature_bind fun later signature _ _ _ _ => ?_
        exact Keeps.ofExcept_bind fun scope _ => (keeps.functionName formed target).bind
          fun last _ _ => by dsimp only; split <;> exact .pure _
      · exact (keeps.variableName true target).map _
      · exact keeps.mention formed (Graph.holds_symbol_iff.mpr ⟨symbol, stored⟩)
      · exact .refuseArgument owner _ .aliasTarget
  | typeAlias id => exact .refuseArgument owner _ .aliasTarget
  | pack args => exact .refuseArgument owner _ .nestedPack

end KeepsPlan

theorem keepsPlan_within (formed : graph.WellFormed) (order : graph.Order) (machine : Target)
    (depth : Nat) :
    KeepsPlan order (encoding machine depth : Encoding graph) (Plan.within graph machine depth) := by
  induction depth with
  | zero =>
      exact
        { follows := followsPlan_within formed machine 0
          within := fun _ held => Plan.within_within formed order 0 held
          scope := fun _ _ => .throw _
          argument := fun _ _ _ => .throw _
          type := fun _ _ _ => .throw _ }
  | succ depth ih =>
      exact
        { follows := followsPlan_within formed machine (depth + 1)
          within := fun _ held => Plan.within_within formed order (depth + 1) held
          scope := fun _ id => ih.scopeName id
          argument := fun _ owner arg => ih.writes_argument formed owner arg
          type := fun _ id place => ih.writes_type formed id place }

/-- Whatever is asked for, and whether or not it has a name, a run keeps the table in order. -/
theorem keeps_encode (formed : graph.WellFormed) (machine : Target) (id : SymbolId)
    (base : Overlay graph) : Keeps base (encode machine id) := by
  have keeps := keepsPlan_within formed formed.order machine (Encoder.depthBound graph)
  refine Keeps.ofExcept_bind fun symbol _ => ?_
  cases symbol.sort with
  | var info => exact keeps.variableName false id
  | function info => exact keeps.functionName formed id
  | _ => exact .refuseSymbol id

end Itanium

end LinkName
