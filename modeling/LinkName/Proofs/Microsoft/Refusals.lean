import LinkName.Proofs.Microsoft.Assembly

/-!
Back references never decide whether a name exists. Levels are written before they are looked up. A
type that is referred back to has been written at some other place, and whether it can be written
does not depend on the place.
-/
namespace LinkName.Microsoft

namespace Script

/-- How the script ends when nothing is referred back to. -/
def verdict : Script → Except Refusal Unit
  | .write _ => return ()
  | .refuse refusal => throw refusal
  | .append first second => do
    first.verdict
    second.verdict
  | .level _ body | .orTypeRef _ body | .typeRefAfter _ _ body => body.verdict

def Succeeds (script : Script) : Prop := script.verdict = .ok ()

theorem succeeds_write (tokens : List Token) : (write tokens).Succeeds := rfl

theorem not_succeeds_refuse (refusal : Refusal) : ¬ (refuse refusal).Succeeds := by
  rintro ⟨⟩

theorem succeeds_append {first second : Script} :
    (append first second).Succeeds ↔ first.Succeeds ∧ second.Succeeds := by
  simp only [Succeeds, verdict, bind, Except.bind]
  cases first.verdict <;> simp

theorem succeeds_recorded {place : Place} {tree : TypeTree} {body : Script} :
    (recorded place tree body).Succeeds ↔ body.Succeeds := by
  unfold recorded
  split <;> exact Iff.rfl

theorem succeeds_recordedAfter {place : Place} {tree : TypeTree} {lead : List Token}
    {body : Script} : (recordedAfter place tree lead body).Succeeds ↔ body.Succeeds := by
  unfold recordedAfter
  split
  · rw [succeeds_append]
    exact and_iff_right (succeeds_write lead)
  · exact Iff.rfl

/-- The types that may be referred back to unwritten. -/
def lookups : Script → List TypeTree
  | .write _ | .refuse _ => []
  | .append first second => first.lookups ++ second.lookups
  | .level _ body | .typeRefAfter _ _ body => body.lookups
  | .orTypeRef tree body => tree :: body.lookups

/-! ## Scripts that a record cannot lead astray -/

/-- A run beside the verdict of its script: it ends with the same refusal, or it adds only good types
to the old ones. -/
inductive Matches (good : TypeTree → Prop) (old : List TypeTree) :
    Except Refusal Unit → Except Refusal (List Token × Record) → Prop
  | refused (refusal : Refusal) : Matches good old (.error refusal) (.error refusal)
  | written {tokens : List Token} {record : Record}
      (kept : ∀ tree ∈ record.types.entries, tree ∈ old ∨ good tree) :
      Matches good old (.ok ()) (.ok (tokens, record))

/-- With a record whose types are good as far as the script asks for them, the script ends with its
verdict. -/
def Steady (good : TypeTree → Prop) (script : Script) : Prop :=
  ∀ record : Record, (∀ tree ∈ record.types.entries, tree ∈ script.lookups → good tree) →
    Matches good record.types.entries script.verdict (script.run record)

variable {good : TypeTree → Prop}

theorem Matches.weaken {old older : List TypeTree} {verdict : Except Refusal Unit}
    {run : Except Refusal (List Token × Record)} (ends : Matches good old verdict run)
    (kept : verdict = .ok () → ∀ tree ∈ old, tree ∈ older ∨ good tree) :
    Matches good older verdict run := by
  cases ends with
  | refused refusal => exact .refused refusal
  | written also =>
      exact .written fun tree listed => (also tree listed).elim (kept rfl tree) .inr

theorem writeLevel_eq (spelledOut : Bool) (tokens : List Token) (record : Record) :
    ∃ written names, writeLevel spelledOut tokens record = .ok (written, { record with names }) := by
  cases spelledOut with
  | true => exact ⟨_, _, rfl⟩
  | false =>
      unfold writeLevel
      simp only [Bool.false_eq_true, if_false, bind, StateT.bind, findOrInsertName, modifyGet,
        MonadStateOf.modifyGet, StateT.modifyGet, pure, Except.pure, Except.bind]
      cases (record.names.findOrInsert (Token.write tokens)).1 <;> exact ⟨_, _, rfl⟩

namespace Steady

theorem write (tokens : List Token) : Steady good (.write tokens) :=
  fun _ _ => .written fun _ listed => .inl listed

theorem refuse (refusal : Refusal) : Steady good (.refuse refusal) := fun _ _ => .refused refusal

theorem append {first second : Script} (before : Steady good first) (after : Steady good second) :
    Steady good (.append first second) := by
  intro record known
  have begun := before record fun tree listed asked =>
    known tree listed (List.mem_append_left _ asked)
  simp only [verdict, run, bind, StateT.bind, Except.bind]
  generalize first.run record = ran, first.verdict = ended at begun
  cases begun with
  | refused refusal => exact .refused refusal
  | @written _ middle kept =>
      have further := after middle fun tree listed asked =>
        (kept tree listed).elim
          (fun old => known tree old (List.mem_append_right _ asked)) fun fine => fine
      have further := further.weaken fun _ => kept
      dsimp only
      generalize second.run middle = ran, second.verdict = ended at further
      cases further with
      | refused refusal => exact .refused refusal
      | written also => exact .written also

theorem level (spelledOut : Bool) {body : Script} (steady : Steady good body) :
    Steady good (.level spelledOut body) := by
  intro record known
  have begun := steady record known
  simp only [verdict, run, bind, StateT.bind, Except.bind]
  generalize body.run record = ran, body.verdict = ended at begun
  cases begun with
  | refused refusal => exact .refused refusal
  | @written tokens middle kept =>
      obtain ⟨written, names, same⟩ := writeLevel_eq spelledOut tokens middle
      simp only [same]
      exact .written kept

theorem additive : Additive (Steady good) where
  write := write
  refuse := refuse
  append := append

/-- A type recorded ahead of its body is safe where the body does not ask for it. -/
theorem orTypeRef {tree : TypeTree} {body : Script} (fresh : tree ∉ body.lookups)
    (earned : good tree ↔ body.Succeeds) (steady : Steady good body) :
    Steady good (.orTypeRef tree body) := by
  intro record known
  simp only [verdict, run, bind, StateT.bind, Except.bind, findOrInsertType_eq, Table.findOrInsert]
  cases found : record.types.find? tree with
  | some index =>
      obtain ⟨inside, same, -⟩ := Table.find?_eq_some_iff.mp found
      have listed : tree ∈ record.types.entries := same ▸ List.getElem_mem inside
      have written : body.verdict = .ok () := earned.mp (known tree listed List.mem_cons_self)
      rw [written]
      exact .written fun _ listed => .inl listed
  | none =>
      have ended := steady { record with types := (record.types.push tree).2 }
        fun other listed asked => by
          rcases Table.mem_push listed with old | rfl
          · exact known other old (List.mem_cons_of_mem _ asked)
          · exact absurd asked fresh
      refine ended.weaken fun written other listed => ?_
      rcases Table.mem_push listed with old | rfl
      · exact .inl old
      · exact .inr (earned.mpr written)

theorem typeRefAfter {tree : TypeTree} {lead : List Token} {body : Script}
    (earned : good tree ↔ body.Succeeds) (steady : Steady good body) :
    Steady good (.typeRefAfter tree lead body) := by
  intro record known
  have begun := steady record known
  have earned (written : body.verdict = .ok ()) : good tree := earned.mpr written
  simp only [verdict, run, bind, StateT.bind, Except.bind, findOrInsertType_eq, Table.findOrInsert]
  generalize body.run record = ran, body.verdict = ended at begun earned
  cases begun with
  | refused refusal => exact .refused refusal
  | @written tokens middle kept =>
      dsimp only
      cases found : middle.types.find? tree with
      | some index => exact .written kept
      | none =>
          refine .written fun other listed => ?_
          rcases Table.mem_push listed with old | rfl
          · exact kept other old
          · exact .inr (earned rfl)

theorem recorded {place : Place} {tree : TypeTree} {body : Script} (fresh : tree ∉ body.lookups)
    (earned : good tree ↔ body.Succeeds) (steady : Steady good body) :
    Steady good (.recorded place tree body) := by
  unfold Script.recorded
  split
  · exact steady
  · exact steady.orTypeRef fresh earned

theorem recordedAfter {place : Place} {tree : TypeTree} {lead : List Token} {body : Script}
    (earned : good tree ↔ body.Succeeds) (steady : Steady good body) :
    Steady good (.recordedAfter place tree lead body) := by
  unfold Script.recordedAfter
  split
  · exact (write lead).append steady
  · exact steady.typeRefAfter earned

end Steady

/-! ## What scripts ask for -/

/-- The script asks for types below a weight only. -/
def Within {graph : Graph} (order : graph.Order) (bound : Nat) (script : Script) : Prop :=
  ∀ tree ∈ script.lookups, tree.weight (fun symbol => order.rank (.symbol symbol)) < bound

namespace Within

variable {graph : Graph} {order : graph.Order} {bound more : Nat} {body : Script}

theorem additive : Additive (Within order bound) where
  write _ _ listed := absurd listed List.not_mem_nil
  refuse _ _ listed := absurd listed List.not_mem_nil
  append before after tree listed := (List.mem_append.mp listed).elim (before tree) (after tree)

theorem level (spelledOut : Bool) {body : Script} (within : Within order bound body) :
    Within order bound (.level spelledOut body) := within

theorem mono (within : Within order bound body) (enough : bound ≤ more) : Within order more body :=
  fun tree listed => (within tree listed).trans_le enough

theorem recorded {place : Place} {tree : TypeTree}
    (lower : tree.weight (fun symbol => order.rank (.symbol symbol)) < bound)
    (within : Within order bound body) : Within order bound (.recorded place tree body) := by
  unfold Script.recorded
  split
  · exact within
  · exact List.forall_mem_cons.mpr ⟨lower, within⟩

theorem recordedAfter {place : Place} {tree : TypeTree} {lead : List Token}
    (within : Within order bound body) : Within order bound (.recordedAfter place tree lead body) := by
  unfold Script.recordedAfter
  split
  · exact additive.append (additive.write _) within
  · exact within

end Within

end Script

namespace Plan

open Script (Additive Within Steady)

variable {graph : Graph} {machine : Target} {plan : Plan} {order : graph.Order}

/-- A type is refused, written, or recorded around a script put together from those of its parts. -/
inductive TypeShape (graph : Graph) (machine : Target) (plan : Plan) (tree : TypeTree) (place : Place) :
    Script → Prop
  | refuse (refusal : Refusal) : TypeShape graph machine plan tree place (.refuse refusal)
  | write (tokens : List Token) : TypeShape graph machine plan tree place (.write tokens)
  | recorded {body : Script}
      (additive : ∀ {property : Script → Prop}, Additive property →
        (∀ naming symbol quals, tree = .named naming symbol quals →
          property (plan.qualifiedName graph machine symbol)) →
        (∀ part ∈ Item.ofType graph tree place, property (plan part)) → property body) :
      TypeShape graph machine plan tree place (.recorded place tree body)
  | recordedAfter (lead : List Token) {body : Script}
      (additive : ∀ {property : Script → Prop}, Additive property →
        (∀ naming symbol quals, tree = .named naming symbol quals →
          property (plan.qualifiedName graph machine symbol)) →
        (∀ part ∈ Item.ofType graph tree place, property (plan part)) → property body) :
      TypeShape graph machine plan tree place (.recordedAfter place tree lead body)

theorem pointee_additive {property : Script → Prop} (additive : Additive property)
    {tree : TypeTree} {place : Place}
    (parts : ∀ part ∈ Item.ofPointee tree place, property (plan part)) :
    property (plan.array machine tree place) ∧ property (plan.pointee machine tree place) := by
  obtain ⟨element, whole⟩ := List.forall_mem_cons.mp parts
  have array : property (plan.array machine tree place) :=
    additive.append (additive.write _) element
  refine ⟨array, ?_⟩
  unfold pointee
  split
  · exact array
  · exact whole _ List.mem_cons_self

theorem pointer_shape (tree target : TypeTree) (quals : Qualifiers) (place : Place)
    (same : tree = .layer .pointer target quals) :
    TypeShape graph machine plan tree place (plan.pointer graph machine tree target place) := by
  subst same
  unfold pointer
  cases target with
  | function result params convention quals =>
      exact .recordedAfter _ fun additive _ parts =>
        functionType_additive additive _ _ fun part listed =>
          parts part (List.mem_append_right _ listed)
  | layer around inner further =>
      cases around with
      | staticArray dim =>
          exact .recorded fun additive _ parts => additive.append (additive.write _)
            (pointee_additive additive fun part listed =>
              parts part (List.mem_append_left _ listed)).1
      | _ =>
          exact .recorded fun additive _ parts => additive.append (additive.write _)
            (parts _ (List.mem_append_left _ (List.mem_cons_of_mem _ List.mem_cons_self)))
  | _ =>
      exact .recorded fun additive _ parts => additive.append (additive.write _)
        (parts _ (List.mem_append_left _ (List.mem_cons_of_mem _ List.mem_cons_self)))

theorem type_shape (tree : TypeTree) (place : Place) :
    TypeShape graph machine plan tree place (plan.type graph machine tree place) := by
  unfold type
  split
  · exact .refuse _
  · cases tree with
    | basic basic quals =>
        dsimp only [basicType]
        cases builtin? machine basic with
        | none => exact .refuse _
        | some code =>
            dsimp only
            split
            · exact .recorded fun additive _ _ => additive.write _
            · exact .write _
    | layer around inner quals =>
        cases around with
        | pointer => exact pointer_shape _ inner quals place rfl
        | reference | staticArray =>
            exact .recorded fun additive _ parts => additive.append (additive.write _)
              (pointee_additive additive fun part listed =>
                parts part (List.mem_append_left _ listed)).2
        | vector => exact .recorded fun additive _ _ => additive.write _
        | dynamicArray | delegate => exact .refuse _
    | named naming symbol quals =>
        have body : ∀ {property : Script → Prop}, Additive property →
            (∀ naming' symbol' quals', TypeTree.named naming symbol quals =
              .named naming' symbol' quals' → property (plan.qualifiedName graph machine symbol')) →
            (∀ part ∈ Item.ofType graph (.named naming symbol quals) place, property (plan part)) →
              property
                (plan.namedType graph machine naming symbol (.named naming symbol quals) place) := by
          intro property additive names parts
          refine additive.ofExcept fun found stored => ?_
          split
          · exact additive.append (additive.write _) (names naming symbol quals rfl)
          · exact additive.refuse _
        cases naming with
        | typedef => exact .refuse _
        | _ => exact .recorded body
    | assocArray key value quals => exact .refuse _
    | function result params convention quals => exact .refuse _

/-- What a type is recorded around, where levels have the property as soon as what is in them has. -/
theorem namedLevels_additive (machine : Target) {property : Script → Prop} (additive : Additive property)
    (level : ∀ spelledOut {body}, property body → property (.level spelledOut body))
    {tree : TypeTree} {place : Place}
    (parts : ∀ part ∈ Item.ofType graph tree place, property (plan part)) :
    ∀ naming symbol quals, tree = .named naming symbol quals →
      property (plan.qualifiedName graph machine symbol) := by
  rintro naming symbol quals rfl
  exact qualifiedName_additive additive level parts

theorem item_within {item : Item}
    (parts : ∀ part ∈ Item.parts graph item, Within order (item.need order) (plan part)) :
    Within order (item.need order + 1) (plan.item graph machine item) := by
  have raised := fun part listed => (parts part listed).mono (Nat.le_succ _)
  cases item with
  | scope id => exact levelNames_additive Within.additive Within.level true raised
  | argument owner arg =>
      refine argument_additive Within.additive ?_ raised
      rintro target rfl
      exact qualifiedName_additive Within.additive Within.level fun part listed =>
        raised part (List.mem_append_left _ listed)
  | type tree place =>
      have names := namedLevels_additive machine Within.additive Within.level raised
      have shape : TypeShape graph machine plan tree place (plan.type graph machine tree place) :=
        type_shape tree place
      show Within order _ (plan.type graph machine tree place)
      generalize plan.type graph machine tree place = script at shape
      cases shape with
      | refuse refusal => exact Within.additive.refuse _
      | write tokens => exact Within.additive.write _
      | recorded body => exact .recorded (Nat.lt_succ_self _) (body Within.additive names raised)
      | recordedAfter lead body => exact .recordedAfter (body Within.additive names raised)

/-- An item asks for no type that is heavier than what it needs. -/
theorem settled_within (formed : graph.WellFormed) (order : graph.Order) {item : Item}
    (held : item.Held graph) :
    Within order (item.need order + 1) (settled order machine item) := by
  refine LinkName.Item.induction (Item.descends formed) order (motive := fun item =>
    Within order (item.need order + 1) (settled order machine item)) ?_ held
  intro item held parts
  rw [settled_eq formed order held]
  refine item_within fun part listed => ?_
  exact (parts part listed).mono (Item.below_parts formed order held part listed).2

/-! ## Good types -/

/-- The type can be written wherever it stands. -/
def Good (order : graph.Order) (machine : Target) (tree : TypeTree) : Prop :=
  ∀ place, (settled order machine (.type tree place)).Succeeds

variable (machine) (formed : graph.WellFormed) (order : graph.Order)

theorem pointee_anywhere {tree : TypeTree} {place other : Place}
    (element : (plan (.type tree.shape.2 { other with element := true })).Succeeds ↔
      (plan (.type tree.shape.2 { place with element := true })).Succeeds)
    (whole : (plan (.type tree other)).Succeeds ↔ (plan (.type tree place)).Succeeds) :
    ((plan.array machine tree other).Succeeds ↔ (plan.array machine tree place).Succeeds) ∧
      ((plan.pointee machine tree other).Succeeds ↔ (plan.pointee machine tree place).Succeeds) := by
  have array : (plan.array machine tree other).Succeeds ↔ (plan.array machine tree place).Succeeds := by
    simp only [array, Script.succeeds_append, Script.succeeds_write, true_and, element]
  refine ⟨array, ?_⟩
  unfold pointee
  split
  · exact array
  · exact whole

theorem namedType_anywhere (naming : Naming) (symbol : SymbolId) (tree : TypeTree)
    (place other : Place) :
    (plan.namedType graph machine naming symbol tree other).Succeeds ↔
      (plan.namedType graph machine naming symbol tree place).Succeeds := by
  unfold namedType
  cases graph.symbol symbol with
  | error fault => exact Iff.rfl
  | ok found =>
      simp only [Script.ofExcept]
      cases naming with
      | enumeration base =>
          simp only [namedLead]
          cases enumBase? base with
          | none => exact Iff.rfl
          | some code => simp only [Script.succeeds_append, Script.succeeds_write, true_and]
      | typedef => exact Iff.rfl
      | record | classRef =>
          simp only [namedLead, Script.succeeds_append, Script.succeeds_write, true_and]

/-- Whether a type can be written is the same everywhere, if it is for its parts. -/
theorem type_anywhere {tree : TypeTree} {place other : Place}
    (parts : ∀ inner here, .type inner here ∈ Item.ofType graph tree place → ∀ there,
      (plan (.type inner there)).Succeeds ↔ (plan (.type inner here)).Succeeds) :
    (plan.type graph machine tree other).Succeeds ↔ (plan.type graph machine tree place).Succeeds := by
  unfold type
  split
  · exact Iff.rfl
  · cases tree with
    | basic basic quals =>
        dsimp only [basicType]
        cases builtin? machine basic with
        | none => exact Iff.rfl
        | some code =>
            dsimp only
            split <;> split <;>
              simp only [Script.succeeds_recorded, Script.succeeds_write]
    | layer around inner quals =>
        have whole := parts _ _ (List.mem_cons_of_mem _ List.mem_cons_self) other.below
        obtain ⟨array, pointee⟩ := pointee_anywhere machine
          (parts _ _ List.mem_cons_self { other.below with element := true }) whole
        cases around with
        | pointer =>
            unfold pointer
            cases inner with
            | function result params convention quals =>
                simp only [Script.succeeds_recordedAfter]
            | layer around inner further =>
                cases around <;> simp only [Script.succeeds_recorded, Script.succeeds_append,
                  Script.succeeds_write, true_and, array, whole]
            | _ =>
                simp only [Script.succeeds_recorded, Script.succeeds_append,
                  Script.succeeds_write, true_and, whole]
        | reference | staticArray =>
            simp only [Script.succeeds_recorded, Script.succeeds_append, Script.succeeds_write,
              true_and, pointee]
        | vector => simp only [Script.succeeds_recorded, Script.succeeds_write]
        | dynamicArray | delegate => exact Iff.rfl
    | named naming symbol quals =>
        have body : (plan.namedType graph machine naming symbol (.named naming symbol quals)
              other).Succeeds ↔ (plan.namedType graph machine naming symbol
                (.named naming symbol quals) place).Succeeds :=
          namedType_anywhere machine naming symbol _ place other
        cases naming with
        | typedef => exact Iff.rfl
        | _ => simp only [Script.succeeds_recorded, body]
    | assocArray key value quals => exact Iff.rfl
    | function result params convention quals => exact Iff.rfl

include formed

theorem settled_anywhere {tree : TypeTree} {place : Place}
    (held : ∀ symbol ∈ tree.symbols, graph.Holds (.symbol symbol)) (other : Place) :
    (settled order machine (.type tree other)).Succeeds ↔
      (settled order machine (.type tree place)).Succeeds := by
  refine LinkName.Item.induction (Item.descends formed) order (motive := fun item =>
    ∀ tree place, item = .type tree place → ∀ other,
      (settled order machine (.type tree other)).Succeeds ↔
        (settled order machine (.type tree place)).Succeeds)
    ?_ (show (LinkName.Item.type tree place : Item).Held graph from held) tree place rfl other
  rintro item held parts tree place rfl other
  have here : settled order machine (.type tree place) =
      type graph machine (settled order machine) tree place := settled_eq formed order held
  have there : settled order machine (.type tree other) =
      type graph machine (settled order machine) tree other := settled_eq formed order held
  rw [here, there]
  exact type_anywhere machine fun inner place listed => parts _ listed inner place rfl

theorem good_type_iff {tree : TypeTree}
    (held : ∀ symbol ∈ tree.symbols, graph.Holds (.symbol symbol)) (place : Place) :
    Good order machine tree ↔ (type graph machine (settled order machine) tree place).Succeeds := by
  have here : settled order machine (.type tree place) =
      type graph machine (settled order machine) tree place := settled_eq formed order held
  rw [← here]
  exact ⟨fun good => good place, fun written other =>
    (settled_anywhere machine formed order held other).mpr written⟩

/-! ## Steady plans -/

theorem type_steady {tree : TypeTree} (place : Place)
    (held : ∀ symbol ∈ tree.symbols, graph.Holds (.symbol symbol))
    (parts : ∀ part ∈ Item.ofType graph tree place,
      Steady (Good order machine) (settled order machine part)) :
    Steady (Good order machine) (type graph machine (settled order machine) tree place) := by
  have good := good_type_iff machine formed order held place
  have shape : TypeShape graph machine (settled order machine) tree place
      (type graph machine (settled order machine) tree place) := type_shape tree place
  have lighter : ∀ part ∈ Item.ofType graph tree place,
      Within order (tree.weight fun symbol => order.rank (.symbol symbol))
        (settled order machine part) := by
    intro part listed
    obtain ⟨heldPart, less⟩ := Item.below_ofType formed order held place part listed
    exact (settled_within formed order heldPart).mono less
  have names := namedLevels_additive machine Steady.additive Steady.level parts
  have lighterNames := namedLevels_additive machine Within.additive Within.level lighter
  generalize type graph machine (settled order machine) tree place = script at shape good
  cases shape with
  | refuse refusal => exact .refuse _
  | write tokens => exact .write _
  | recorded body =>
      rw [Script.succeeds_recorded] at good
      exact .recorded
        (fun asked => Nat.lt_irrefl _ (body Within.additive lighterNames lighter tree asked)) good
        (body Steady.additive names parts)
  | recordedAfter lead body =>
      rw [Script.succeeds_recordedAfter] at good
      exact .recordedAfter good (body Steady.additive names parts)

/-- Whatever the record says about good types, an item is refused as it is in full. -/
theorem settled_steady {item : Item} (held : item.Held graph) :
    Steady (Good order machine) (settled order machine item) := by
  refine LinkName.Item.induction (Item.descends formed) order (motive := fun item =>
    Steady (Good order machine) (settled order machine item)) ?_ held
  intro item held parts
  rw [settled_eq formed order held]
  cases item with
  | scope id => exact levelNames_additive Steady.additive Steady.level true parts
  | argument owner arg =>
      refine argument_additive Steady.additive ?_ parts
      rintro target rfl
      exact qualifiedName_additive Steady.additive Steady.level fun part listed =>
        parts part (List.mem_append_left _ listed)
  | type tree place => exact type_steady machine formed order place held parts

theorem declaration_steady {id : SymbolId} (held : graph.Holds (.symbol id)) :
    Steady (Good order machine) (declaration graph machine (settled order machine) id) := by
  have parts : ∀ part ∈ Item.ofDeclaration graph id,
      Steady (Good order machine) (settled order machine part) := fun part listed =>
    settled_steady machine formed order (Item.below_ofDeclaration formed order held part listed).1
  have name : Steady (Good order machine) (qualifiedName graph machine (settled order machine) id) :=
    qualifiedName_additive Steady.additive Steady.level fun part listed =>
      parts part (List.mem_append_left _ listed)
  exact declaration_additive Steady.additive name fun part listed =>
    parts part (List.mem_append_right _ listed)

end Plan

/-- However many entries the tables take, a name is refused for the same reason or not at all. -/
theorem discard_outcome_encode {graph : Graph} (formed : graph.WellFormed) (machine : Target)
    {id : SymbolId} (held : graph.Holds (.symbol id)) (limit limit' : Nat) :
    Functor.discard (Encoder.outcome (encode machine id : Encoder graph (List Token))
        (Tables.bounded limit)) =
      Functor.discard (Encoder.outcome (encode machine id : Encoder graph (List Token))
        (Tables.bounded limit')) := by
  have order := formed.order
  have verdict (limit : Nat) : Functor.discard (Encoder.outcome
        (encode machine id : Encoder graph (List Token)) (Tables.bounded limit)) =
      ((Plan.settled order machine).declaration graph machine id).verdict := by
    have ends := Plan.declaration_steady machine formed order held (Record.bounded limit)
      fun _ listed => absurd listed List.not_mem_nil
    rw [outcome_eq_run formed order machine held limit]
    show Functor.discard (Prod.fst <$> Script.run _ (Record.bounded limit)) = _
    generalize Script.run _ (Record.bounded limit) = run, Script.verdict _ = ended at ends ⊢
    cases ends <;> rfl
  rw [verdict, verdict]

end LinkName.Microsoft
