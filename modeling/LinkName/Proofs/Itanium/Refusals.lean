import LinkName.Proofs.Itanium.Keys

/-!
Substitution never decides whether a name exists. What a slot stands for has been written when the
slot is first referred to, and it can be written again; so a script that consults the table fails
exactly where the same script without a table fails, and with the same refusal.
-/
namespace LinkName.Itanium

namespace Script

/-- Whether the script can be written in full. -/
def Succeeds (script : Script) : Prop := ∃ tokens, script.full = .ok tokens

theorem succeeds_write (tokens : List Token) : (write tokens).Succeeds := ⟨tokens, rfl⟩

theorem not_succeeds_refuse (refusal : Refusal) : ¬ (refuse refusal).Succeeds := by
  rintro ⟨tokens, written⟩
  cases written

theorem succeeds_append {first second : Script} :
    (append first second).Succeeds ↔ first.Succeeds ∧ second.Succeeds := by
  simp only [Succeeds, full, bind, Except.bind]
  cases first.full with
  | error refusal => simp
  | ok tokens => cases second.full <;> simp [pure, Except.pure]

theorem succeeds_thenStoreIf {condition : Bool} {key : Key} {body : Script} :
    (thenStoreIf condition key body).Succeeds ↔ body.Succeeds := by
  cases condition <;> exact Iff.rfl

/-! ## Scripts that a table cannot lead astray -/

/-- A run with a table beside what the script writes in full: it ends with the same refusal, or it
adds only good keys to the old ones. -/
inductive Matches (good : Key → Prop) (old : List Key) :
    Except Refusal (List Token) → Except Refusal (List Token × Table Key) → Prop
  | refused (refusal : Refusal) : Matches good old (.error refusal) (.error refusal)
  | written {full tokens : List Token} {table : Table Key}
      (kept : ∀ key ∈ table.entries, key ∈ old ∨ good key) :
      Matches good old (.ok full) (.ok (tokens, table))

/-- With a table whose entries are good as far as the script asks for them, the script ends as it
does in full. -/
def Steady (good : Key → Prop) (script : Script) : Prop :=
  ∀ table : Table Key, (∀ key ∈ table.entries, key ∈ script.keys → good key) →
    Matches good table.entries script.full (script.run table)

variable {good : Key → Prop}

theorem Matches.weaken {old older : List Key} {full : Except Refusal (List Token)}
    {run : Except Refusal (List Token × Table Key)} (ends : Matches good old full run)
    (kept : ∀ tokens, full = .ok tokens → ∀ key ∈ old, key ∈ older ∨ good key) :
    Matches good older full run := by
  cases ends with
  | refused refusal => exact .refused refusal
  | written also =>
      exact .written fun key listed => (also key listed).elim (kept _ rfl key) .inr

namespace Steady

theorem write (tokens : List Token) : Steady good (.write tokens) :=
  fun _ _ => .written fun _ listed => .inl listed

theorem refuse (refusal : Refusal) : Steady good (.refuse refusal) := fun _ _ => .refused refusal

/-- The second script matters only where the first one succeeds. -/
theorem append {first second : Script} (before : Steady good first)
    (after : first.Succeeds → Steady good second) : Steady good (.append first second) := by
  intro table known
  have begun := before table fun key listed asked =>
    known key listed (List.mem_append_left _ asked)
  simp only [full, run_append_eq, bind, Except.bind]
  cases written : first.full with
  | error refusal =>
      rw [written] at begun
      generalize first.run table = ran at begun
      cases begun
      exact .refused refusal
  | ok tokens =>
      rw [written] at begun
      generalize first.run table = ran at begun
      cases begun with
      | @written _ _ middle kept =>
          have ended := after ⟨tokens, written⟩ middle fun key listed asked =>
            (kept key listed).elim
              (fun old => known key old (List.mem_append_right _ asked)) fun fine => fine
          have ended := ended.weaken fun _ _ => kept
          dsimp only
          generalize second.run middle = ran, second.full = whole at ended
          cases ended with
          | refused refusal => exact .refused refusal
          | written also => exact .written also

theorem orRef {key : Key} {body : Script} (earned : good key → body.Succeeds)
    (steady : Steady good body) : Steady good (.orRef key body) := by
  intro table known
  rw [full, run_orRef_eq]
  cases found : table.find? key with
  | none =>
      exact steady table fun other listed asked => known other listed (List.mem_cons_of_mem _ asked)
  | some slot =>
      obtain ⟨inside, same, -⟩ := Table.find?_eq_some_iff.mp found
      have listed : key ∈ table.entries := same ▸ List.getElem_mem inside
      obtain ⟨tokens, written⟩ := earned (known key listed List.mem_cons_self)
      rw [written]
      exact .written fun _ listed => .inl listed

theorem unlessKnown {key : Key} {body : Script} (earned : good key → body.Succeeds)
    (steady : Steady good body) : Steady good (.unlessKnown key body) := by
  intro table known
  rw [full, run_unlessKnown_eq]
  split
  · next found =>
    obtain ⟨tokens, written⟩ := earned (known key found List.mem_cons_self)
    rw [written]
    exact .written fun _ listed => .inl listed
  · exact steady table fun other listed asked => known other listed (List.mem_cons_of_mem _ asked)

/-- A key stored ahead of its body is safe where the body does not ask for it. -/
theorem storeThen {key : Key} {body : Script} (fresh : key ∉ body.keys)
    (earned : body.Succeeds → good key) (steady : Steady good body) :
    Steady good (.storeThen key body) := by
  intro table known
  have ended := steady (table.push key).2 fun other listed asked => by
    rcases Table.mem_push listed with old | rfl
    · exact known other old (List.mem_cons_of_mem _ asked)
    · exact absurd asked fresh
  refine ended.weaken fun tokens written other listed => ?_
  rcases Table.mem_push listed with old | rfl
  · exact .inl old
  · exact .inr (earned ⟨tokens, written⟩)

theorem thenStore {key : Key} {body : Script} (earned : body.Succeeds → good key)
    (steady : Steady good body) : Steady good (.thenStore key body) := by
  intro table known
  have ended := steady table fun other listed asked =>
    known other listed (List.mem_cons_of_mem _ asked)
  rw [full, run_thenStore_eq]
  have earned (tokens : List Token) (written : body.full = .ok tokens) : good key :=
    earned ⟨tokens, written⟩
  generalize body.run table = ran, body.full = whole at ended earned
  cases ended with
  | refused refusal => exact .refused refusal
  | written kept =>
      exact .written fun other listed => (Table.mem_push listed).elim (kept other) fun same =>
        .inr (same ▸ earned _ rfl)

theorem thenStoreIf {condition : Bool} {key : Key} {body : Script}
    (earned : body.Succeeds → good key) (steady : Steady good body) :
    Steady good (.thenStoreIf condition key body) := by
  cases condition with
  | true => exact steady.thenStore earned
  | false => exact steady

theorem additive : Additive (Steady good) where
  write := write
  refuse := refuse
  append before after := before.append fun _ => after

end Steady

end Script

namespace Plan

open Script (Within Steady Succeeds)

variable {graph : Graph} {machine : Target} {plan : Plan} {order : graph.Order} {bound : Nat}
variable {id : SymbolId}

/-! ## Good keys -/

/-- What a slot stands for can be written in full. -/
def Good (order : graph.Order) (machine : Target) : Key → Prop
  | .symbol id => (settled order machine (.scope id)).Succeeds
  | .type tree => ∀ place, (settled order machine (.type tree place)).Succeeds
  | .unnamed => True

variable (formed : graph.WellFormed) (proper : graph.ProperTemplates) (order : graph.Order)
variable (machine)
include formed

theorem good_symbol_iff (held : graph.Holds (.symbol id)) {level : Level}
    (found : graph.level id = .ok level) :
    Good order machine (.symbol id) ↔
      (levelName graph (settled order machine) level).Succeeds := by
  have unfolded : settled order machine (.scope id) = scopeName graph (settled order machine) id :=
    settled_eq formed order held
  simp only [Good, unfolded, scopeName, found]
  exact Iff.rfl

/-- A template can be written where the scope of one of its specializations can. -/
theorem good_template_iff (proper : graph.ProperTemplates) {symbol : Symbol} {template : SymbolId}
    {scope : Option SymbolId} (stored : graph.symbol id = .ok symbol)
    (special : symbol.template? = some template) (found : graph.scopeParent id = .ok scope) :
    Good order machine (.symbol template) ↔
      ∀ outer, scope = some outer → (settled order machine (.scope outer)).Succeeds := by
  have held : graph.Holds (.symbol template) :=
    formed.closed _ _ (Graph.mentions_template stored special)
  rw [good_symbol_iff machine formed order held (proper.level_template stored special found)]
  have source : sourceName graph (settled order machine) template = .write [.source symbol.ident] :=
    sourceName_template proper stored special
  cases scope with
  | none =>
      simp only [levelName, source]
      exact iff_of_true (Script.succeeds_write _) (by simp)
  | some outer =>
      simp only [levelName, enclosing, source, Script.succeeds_append, Option.some.injEq, forall_eq']
      exact and_iff_left (Script.succeeds_write _)

theorem good_type_iff {tree : TypeTree}
    (held : ∀ symbol ∈ tree.symbols, graph.Holds (.symbol symbol)) (place : Place) :
    Good order machine (.type tree) ↔
      (type graph machine (settled order machine) tree place).Succeeds := by
  have unfolded (place : Place) : settled order machine (.type tree place) =
      type graph machine (settled order machine) tree place :=
    settled_eq formed order held
  have anywhere (other : Place) : (type graph machine (settled order machine) tree other).Succeeds ↔
      (type graph machine (settled order machine) tree place).Succeeds := by
    unfold type
    split
    · exact Iff.rfl
    · cases tree with
      | named naming symbol quals =>
          cases naming with
          | classRef =>
              show (Script.thenStoreIf quals.isConst .unnamed _).Succeeds ↔
                (Script.thenStoreIf quals.isConst .unnamed _).Succeeds
              simp only [Script.succeeds_thenStoreIf, Script.succeeds_append,
                Script.succeeds_write, true_and]
          | _ => exact Iff.rfl
      | _ => exact Iff.rfl
  simp only [Good, unfolded, anywhere]
  exact ⟨fun all => all place, fun here _ => here⟩

/-! ## Steady plans -/

variable {scope : Option SymbolId}
include proper

theorem sourceName_steady (found : graph.scopeParent id = .ok scope)
    (ready : ∀ outer, scope = some outer → (settled order machine (.scope outer)).Succeeds)
    (parts : ∀ part ∈ (LinkName.Item.ofName graph id : List Item),
      Steady (Good order machine) (settled order machine part)) :
    Steady (Good order machine) (sourceName graph (settled order machine) id) := by
  refine Steady.additive.ofExcept fun symbol stored => ?_
  rcases symbol with ⟨ident, parent, access, sort⟩
  cases sort with
  | specialization template args =>
      have known : Good order machine (.symbol template) :=
        (good_template_iff machine formed order proper stored rfl found).mpr ready
      have written : (Script.write [.source ident]).Succeeds := Script.succeeds_write _
      simp only [LinkName.Item.ofName, stored] at parts
      refine Steady.additive.append (.orRef (fun _ => written) ?_) ?_
      · exact .storeThen (by rintro ⟨⟩) (fun _ => known) (.write _)
      · exact Steady.additive.append (.write _)
          (Steady.additive.append (arguments_additive Steady.additive parts) (.write _))
  | _ => exact .write _

theorem levelName_steady {level : Level} (isLevel : graph.IsLevel id level)
    (parts : ∀ part ∈ Item.ofLevel graph level,
      Steady (Good order machine) (settled order machine part)) :
    Steady (Good order machine) (levelName graph (settled order machine) level) := by
  have source := sourceName_steady machine formed proper order isLevel.scope
  have named := fun part listed => parts part (List.mem_append_right _ listed)
  unfold levelName
  cases scope : level.scope with
  | none => exact source (by simp [scope]) named
  | some outer =>
      have outside : Steady (Good order machine) (settled order machine (.scope outer)) :=
        parts _ (List.mem_append_left _ (by simp [scope]))
      unfold Plan.enclosing
      cases special : level.template with
      | none =>
          refine .append outside fun written => source ?_ named
          rintro _ same
          exact Option.some.inj (scope.symm.trans same) ▸ written
      | some template =>
          have earned : Good order machine (.symbol template) →
              (settled order machine (.scope outer)).Succeeds := by
            intro good
            rcases isLevel.name with ⟨-, none⟩ | ⟨-, symbol, general, stored, same, known⟩
            · simp [none] at special
            · obtain rfl : general = template := by simpa [known] using special
              exact
                (good_template_iff machine formed order proper stored same isLevel.scope).mp good outer
                scope
          refine .append (.unlessKnown earned outside) fun written => source ?_ named
          rintro _ same
          exact Option.some.inj (scope.symm.trans same) ▸ written

theorem scopeName_steady (held : graph.Holds (.symbol id))
    (parts : ∀ part ∈ Item.ofMention graph id,
      Steady (Good order machine) (settled order machine part)) :
    Steady (Good order machine) (scopeName graph (settled order machine) id) := by
  obtain ⟨level, found⟩ := formed.level_eq_ok held
  have isLevel := Graph.isLevel_of_level found
  have good := good_symbol_iff machine formed order held found
  have inside : Script.Within order (8 * order.rank (.symbol id))
      (.ofExcept (graph.level id) (levelName graph (settled order machine))) := by
    refine level_within formed le_rfl fun part listed => ?_
    obtain ⟨heldPart, less⟩ := Item.below_ofMention formed order id part listed
    exact (settled_within formed order heldPart).mono less
  simp only [Item.ofMention, found] at parts
  simp only [scopeName, found, Script.ofExcept] at inside ⊢
  have steady := levelName_steady machine formed proper order isLevel parts
  refine .orRef good.mp (.storeThen ?_ good.mpr steady)
  exact fun asked => Nat.lt_irrefl _ (inside _ asked).2

theorem mention_steady (held : graph.Holds (.symbol id))
    (parts : ∀ part ∈ Item.ofMention graph id,
      Steady (Good order machine) (settled order machine part)) :
    Steady (Good order machine) (mention graph (settled order machine) id) := by
  obtain ⟨level, found⟩ := formed.level_eq_ok held
  have good := good_symbol_iff machine formed order held found
  simp only [Item.ofMention, found] at parts
  have steady := levelName_steady machine formed proper order (Graph.isLevel_of_level found) parts
  simp only [mention, qualifiedName, found, Script.ofExcept]
  cases level.scope.isSome with
  | false => exact .orRef good.mp (steady.thenStore good.mpr)
  | true =>
      have wrapped : (Script.append (.write [.text "N"])
          (.append (levelName graph (settled order machine) level) (.write [.text "E"]))).Succeeds ↔
            (levelName graph (settled order machine) level).Succeeds := by
        simp only [Script.succeeds_append, Script.succeeds_write, true_and, and_true]
      refine .orRef (wrapped.trans good.symm).mpr (.thenStore (wrapped.trans good.symm).mp ?_)
      exact Steady.additive.append (.write _) (Steady.additive.append steady (.write _))

theorem type_steady {tree : TypeTree} (place : Place)
    (held : ∀ symbol ∈ tree.symbols, graph.Holds (.symbol symbol))
    (parts : ∀ part ∈ Item.ofType graph tree,
      Steady (Good order machine) (settled order machine part)) :
    Steady (Good order machine) (type graph machine (settled order machine) tree place) := by
  have good := good_type_iff machine formed order held place
  unfold type at good ⊢
  split
  · exact .refuse _
  · next native =>
    rw [if_neg native] at good
    cases tree with
    | basic basic quals =>
        dsimp only [basicType] at good ⊢
        split at good
        · next stored =>
          rw [if_pos stored]
          exact .orRef good.mp (.storeThen (by rintro ⟨⟩) good.mpr (.write _))
        · next unstored =>
          rw [if_neg unstored]
          exact .write _
    | layer around inner quals =>
        dsimp only at good ⊢
        cases lead : around.itaniumLead? quals.isConst with
        | none => exact .refuse _
        | some tokens =>
            rw [lead] at good
            exact .orRef good.mp (.thenStore good.mpr
              (Steady.additive.append (.write _) (parts _ List.mem_cons_self)))
    | named naming symbol quals =>
        have mentioned : Steady (Good order machine) (mention graph (settled order machine) symbol) :=
          mention_steady machine formed proper order (held symbol List.mem_cons_self) parts
        cases naming with
        | typedef => exact .refuse _
        | classRef =>
            have body := Steady.additive.append (.write ((if place = .nested then
              constMark quals.isConst else []) ++ [.text "P"] ++ constMark quals.isConst)) mentioned
            exact .orRef good.mp (.thenStore good.mpr (body.thenStoreIf fun _ => trivial))
        | record | enumeration =>
            have body := Steady.additive.append (.write (constMark quals.isConst)) mentioned
            refine .orRef good.mp (body.thenStoreIf fun written => good.mpr ?_)
            exact Script.succeeds_thenStoreIf.mpr written
    | assocArray key value quals => exact .refuse _
    | function result params convention quals =>
        exact .orRef good.mp (.thenStore good.mpr (functionType_additive Steady.additive parts))

/-- Whatever the table says about good keys, an item is refused as it is in full. -/
theorem settled_steady {item : Item} (held : item.Held graph) :
    Steady (Good order machine) (settled order machine item) := by
  refine LinkName.Item.induction (Item.descends formed) order (motive := fun item =>
    Steady (Good order machine) (settled order machine item)) ?_ held
  intro item held parts
  rw [settled_eq formed order held]
  cases item with
  | scope id => exact scopeName_steady machine formed proper order held parts
  | argument owner arg =>
      refine argument_additive Steady.additive parts ?_
      rintro target rfl
      exact mention_steady machine formed proper order (held.2 _ rfl) fun part listed =>
        parts part (List.mem_append_right _ listed)
  | type tree place => exact type_steady machine formed proper order place held parts

theorem declaration_steady (id : SymbolId) :
    Steady (Good order machine) (declaration graph machine (settled order machine) id) :=
  declaration_additive Steady.additive fun part listed =>
    settled_steady machine formed proper order
      (Item.below_ofDeclaration formed order id part listed).1

end Plan

/-- However many slots the table has, a name is refused for the same reason or not at all. -/
theorem discard_outcome_encode {graph : Graph} (formed : graph.WellFormed)
    (proper : graph.ProperTemplates) (machine : Target) {id : SymbolId}
    (held : graph.Holds (.symbol id)) (limit limit' : Option Nat) :
    Functor.discard (Encoder.outcome (encode machine id : Encoder graph (List Token)) { limit }) =
      Functor.discard
        (Encoder.outcome (encode machine id : Encoder graph (List Token)) { limit := limit' }) := by
  have order := formed.order
  have verdict (limit : Option Nat) : Functor.discard (Encoder.outcome
        (encode machine id : Encoder graph (List Token)) { limit }) =
      Functor.discard ((Plan.settled order machine).declaration graph machine id).full := by
    have ends := Plan.declaration_steady machine formed proper order id { limit }
      fun _ listed => absurd listed List.not_mem_nil
    rw [outcome_eq_run formed order machine held limit]
    generalize Script.run _ { limit } = run, Script.full _ = full at ends ⊢
    cases ends <;> rfl
  rw [verdict, verdict]

end LinkName.Itanium
