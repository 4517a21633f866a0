import LinkName.Proofs.Itanium.Keys

/-!
Where a symbol stands in the substitution table. A name that is complete when it takes its slot
comes after all that it mentions. A scope takes its slot before it is written: the scope around it
comes next, unless it has a slot already, and so does the template of which its level is a
specialization. Whatever a script stores is placed in this way.
-/
namespace LinkName

namespace Graph

/-- Some symbol has `id` as its scope. -/
def IsScope (graph : Graph) (id : SymbolId) : Prop :=
  ∃ inner, graph.scopeParent inner = .ok (some id)

/-- If `id` has specializations, its own level is none. A template is written as such by its
specializations; declared in a specialization, it would be written as that one elsewhere. -/
def NamedOutright (graph : Graph) (id : SymbolId) : Prop :=
  ∀ (other : SymbolId) (symbol : Symbol) (level : Level) (named : Symbol),
    graph.symbol other = .ok symbol → symbol.template? = some id → graph.level id = .ok level →
      graph.symbol level.name = .ok named → named.template? = none

variable {graph : Graph} {id outer template : SymbolId} {symbol : Symbol} {level : Level}

theorem NamedOutright.level_eq (outright : graph.NamedOutright template)
    (copies : graph.CopiesTemplates) (stored : graph.symbol id = .ok symbol)
    (special : symbol.template? = some template) (found : graph.level template = .ok level) :
    level.name = template ∧ level.template = none ∧ graph.scopeParent id = .ok level.scope := by
  have isLevel := isLevel_of_level found
  rcases isLevel.name with ⟨same, plain⟩ | ⟨-, named, general, known, specialized, -⟩
  · obtain ⟨general, known, -, parent⟩ := copies id symbol template stored special
    have around := isLevel.scope
    rw [same] at around
    exact ⟨same, plain, (scopeParent_congr known stored parent.symm).trans around⟩
  · have none := outright id symbol level named stored special found known
    simp [specialized] at none

theorem IsLevel.isScope (isLevel : graph.IsLevel id level) (scope : level.scope = some outer) :
    graph.IsScope outer :=
  ⟨level.name, scope ▸ isLevel.scope⟩

theorem IsLevel.outer_ne (isLevel : graph.IsLevel id level) (order : graph.Order)
    (scope : level.scope = some outer) : outer ≠ id := by
  rintro rfl
  have lower := order.descends _ _ (isLevel.mentions_scope scope)
  exact absurd (isLevel.rank_name_le order) (Nat.not_le.mpr lower)

theorem IsLevel.template_ne (isLevel : graph.IsLevel id level) (order : graph.Order)
    (stored : graph.symbol level.name = .ok symbol) (special : symbol.template? = some template) :
    template ≠ id := by
  rintro rfl
  have lower := order.descends _ _ (Graph.mentions_template stored special)
  exact absurd (isLevel.rank_name_le order) (Nat.not_le.mpr lower)

/-- A template through which a level is spelled is the one that the level specializes. -/
theorem IsLevel.template?_eq (isLevel : graph.IsLevel id level)
    (spelled : level.template = some template) :
    ∃ named, graph.symbol level.name = .ok named ∧ named.template? = some template := by
  rcases isLevel.name with ⟨-, plain⟩ | ⟨-, named, general, known, special, same⟩
  · simp [plain] at spelled
  · obtain rfl : general = template := Option.some.inj (same.symm.trans spelled)
    exact ⟨named, known, special⟩

end Graph

namespace Itanium

/-! ## Slots of symbols -/

def Key.symbol? : Key → Option SymbolId
  | .symbol id => some id
  | _ => none

/-- The symbols in a table, slot by slot. -/
def slots (table : Table Key) : List (Option SymbolId) := table.entries.map Key.symbol?

variable {graph : Graph} {old middle last : List (Option SymbolId)} {slot : Nat}
variable {id outer template : SymbolId} {level : Level}

/-- Where a symbol stands among the scope and the template of its level. -/
structure Placed (graph : Graph) (slots : List (Option SymbolId)) (slot : Nat) (id : SymbolId) :
    Prop where
  /-- The scope comes before, or next, or it is implied by a template that comes before. -/
  scope : ∀ level outer, graph.level id = .ok level → level.scope = some outer →
    some outer ∈ slots.take slot ∨ graph.IsScope id ∧ slots[slot + 1]? = some (some outer) ∨
      ∃ template, level.template = some template ∧ some template ∈ slots.take slot
  /-- The template comes before, or after a scope: next, or behind the scope around that one. -/
  template : ∀ level named template, graph.level id = .ok level →
    graph.symbol level.name = .ok named → named.template? = some template →
    some template ∈ slots.take slot ∨ graph.IsScope id ∧ ∃ later > slot,
      slots[later]? = some (some template) ∧ (later = slot + 1 ∨
        ∃ outer, level.scope = some outer ∧ slots[slot + 1]? = some (some outer))

theorem getElem?_of_grown {α : Type} {list more : List α} {index : Nat} {value : α}
    (grown : list <+: more) (found : list[index]? = some value) : more[index]? = some value := by
  obtain ⟨rest, rfl⟩ := grown
  rw [List.getElem?_append_left (List.getElem?_eq_some_iff.mp found).1, found]

theorem mem_take_iff {α : Type} {list : List α} {bound : Nat} {value : α} :
    value ∈ list.take bound ↔ ∃ index < bound, list[index]? = some value := by
  rw [List.mem_iff_getElem?]
  constructor
  · rintro ⟨index, found⟩
    rw [List.getElem?_take] at found
    split at found
    · next inside => exact ⟨index, inside, found⟩
    · cases found
  · rintro ⟨index, inside, found⟩
    exact ⟨index, by rwa [List.getElem?_take_of_lt inside]⟩

theorem Placed.mono (placed : Placed graph old slot id) (grown : old <+: last) :
    Placed graph last slot id where
  scope level outer found scope := by
    have taken : old.take slot ⊆ last.take slot := (grown.take slot).subset
    rcases placed.scope level outer found scope with before | ⟨isScope, next⟩ | implied
    · exact .inl (taken before)
    · exact .inr (.inl ⟨isScope, getElem?_of_grown grown next⟩)
    · obtain ⟨template, spelled, before⟩ := implied
      exact .inr (.inr ⟨template, spelled, taken before⟩)
  template level named template found known special := by
    rcases placed.template level named template found known special with before | after
    · exact .inl ((grown.take slot).subset before)
    · obtain ⟨isScope, later, beyond, stands, next⟩ := after
      refine .inr ⟨isScope, later, beyond, getElem?_of_grown grown stands, next.imp_right ?_⟩
      rintro ⟨outer, scope, stands⟩
      exact ⟨outer, scope, getElem?_of_grown grown stands⟩

/-- Slots are only added, and each new symbol is placed. -/
structure Places (graph : Graph) (old last : List (Option SymbolId)) : Prop where
  grown : old <+: last
  placed : ∀ slot id, old.length ≤ slot → last[slot]? = some (some id) → graph.NamedOutright id →
    Placed graph last slot id

namespace Places

theorem refl (graph : Graph) (slots : List (Option SymbolId)) : Places graph slots slots where
  grown := List.prefix_rfl
  placed _ _ beyond stands :=
    absurd (List.getElem?_eq_some_iff.mp stands).1 (Nat.not_lt.mpr beyond)

theorem trans (first : Places graph old middle) (second : Places graph middle last) :
    Places graph old last where
  grown := first.grown.trans second.grown
  placed slot id beyond stands outright := by
    by_cases sooner : slot < middle.length
    · have stood : middle[slot]? = some (some id) := by
        obtain ⟨rest, rfl⟩ := second.grown
        rwa [List.getElem?_append_left sooner] at stands
      exact (first.placed slot id beyond stood outright).mono second.grown
    · exact second.placed slot id (Nat.not_lt.mp sooner) stands outright

/-- A new symbol followed by others. -/
theorem after (placed : Places graph (old ++ [some id]) last)
    (here : graph.NamedOutright id → Placed graph last old.length id) : Places graph old last where
  grown := (List.prefix_append old [some id]).trans placed.grown
  placed slot other beyond stands outright := by
    by_cases first : slot = old.length
    · subst first
      have same : last[old.length]? = some (some id) :=
        getElem?_of_grown placed.grown (by simp)
      obtain rfl : id = other := by simpa using same.symm.trans stands
      exact here outright
    · refine placed.placed slot other ?_ stands outright
      rw [List.length_append, List.length_singleton]
      omega

theorem push (here : graph.NamedOutright id → Placed graph (old ++ [some id]) old.length id) :
    Places graph old (old ++ [some id]) :=
  (refl graph _).after here

/-- A slot that is not a symbol's. -/
theorem skip (graph : Graph) (slots : List (Option SymbolId)) :
    Places graph slots (slots ++ [none]) where
  grown := List.prefix_append _ _
  placed _ _ beyond stands := by
    rw [List.getElem?_append_right beyond] at stands
    cases List.mem_singleton.mp (List.mem_of_getElem? stands)

end Places

/-- The symbol has a slot already, or gets the next one. -/
def ComesNext (old last : List (Option SymbolId)) (id : SymbolId) : Prop :=
  some id ∈ old ∨ last[old.length]? = some (some id)

theorem ComesNext.mem (next : ComesNext old last id) (grown : old <+: last) : some id ∈ last :=
  next.elim (fun known => grown.subset known) List.mem_of_getElem?

theorem ComesNext.mono (next : ComesNext old middle id) (grown : middle <+: last) :
    ComesNext old last id :=
  next.imp_right (getElem?_of_grown grown)

/-! ## Scripts -/

section

variable {table final : Table Key} {tokens : List Token} {key : Key} {body : Script}

theorem mem_slots : some id ∈ slots table ↔ .symbol id ∈ table.entries := by
  simp only [slots, List.mem_map]
  constructor
  · rintro ⟨key, listed, same⟩
    cases key <;> simp_all [Key.symbol?]
  · exact fun listed => ⟨_, listed, rfl⟩

theorem slots_push (unlimited : table.limit = none) :
    slots (table.push key).2 = slots table ++ [key.symbol?] := by
  simp [slots, Table.entries_push, Table.isFull, unlimited]

theorem run_named (ran : (Script.named (.symbol id) body).run table = .ok (tokens, final)) :
    some id ∈ slots table ∧ final = table ∨
      some id ∉ slots table ∧ body.run (table.push (.symbol id)).2 = .ok (tokens, final) := by
  rcases Script.run_orRef ran with ⟨slot, found, -, same⟩ | ⟨unknown, inner⟩
  · exact .inl ⟨mem_slots.mpr (List.mem_of_getElem? (Table.getElem?_of_find? found)), same⟩
  · exact .inr ⟨fun known => Table.find?_eq_none_iff.mp unknown (mem_slots.mp known), inner⟩

end

/-- A run adds nothing to the table but what is placed there. -/
def Script.Placing (graph : Graph) (script : Script) : Prop :=
  ∀ table final tokens, table.limit = none → script.run table = .ok (tokens, final) →
    final.limit = none ∧ Places graph (slots table) (slots final)

namespace Script.Placing

variable {key : Key} {body : Script}

theorem write (tokens : List Token) : Placing graph (.write tokens) := by
  intro table final written unlimited ran
  cases ran
  exact ⟨unlimited, .refl graph _⟩

theorem refuse (refusal : Refusal) : Placing graph (.refuse refusal) := by
  intro table final tokens unlimited ran
  cases ran

theorem append {first second : Script} (before : Placing graph first)
    (after : Placing graph second) : Placing graph (.append first second) := by
  intro table final tokens unlimited ran
  obtain ⟨_, middle, _, begun, ended, -⟩ := run_append ran
  obtain ⟨free, placed⟩ := before table middle _ unlimited begun
  obtain ⟨still, also⟩ := after middle final _ free ended
  exact ⟨still, placed.trans also⟩

theorem additive : Additive (Placing graph) where
  write := write
  refuse := refuse
  append := append

/-- Types have slots of their own. -/
theorem orRef (placing : Placing graph body) : Placing graph (.orRef key body) := by
  intro table final tokens unlimited ran
  rcases run_orRef ran with ⟨_, -, -, rfl⟩ | ⟨-, inner⟩
  · exact ⟨unlimited, .refl graph _⟩
  · exact placing table final tokens unlimited inner

theorem thenStore (other : key.symbol? = none) (placing : Placing graph body) :
    Placing graph (.thenStore key body) := by
  intro table final tokens unlimited ran
  obtain ⟨middle, inner, rfl⟩ := run_thenStore ran
  obtain ⟨free, placed⟩ := placing table middle tokens unlimited inner
  rw [Table.limit_push, slots_push free, other]
  exact ⟨free, placed.trans (.skip graph _)⟩

theorem storeThen (other : key.symbol? = none) (placing : Placing graph body) :
    Placing graph (.storeThen key body) := by
  intro table final tokens unlimited ran
  have pushed : (table.push key).2.limit = none := (Table.limit_push table key).trans unlimited
  obtain ⟨free, placed⟩ := placing _ final tokens pushed ran
  rw [slots_push unlimited, other] at placed
  exact ⟨free, (Places.skip graph _).trans placed⟩

theorem keyed (other : key.symbol? = none) : Keyed (Placing graph) key where
  orRef := orRef
  thenStore := thenStore other
  named tokens := (storeThen other (write tokens)).orRef

end Script.Placing

/-! ## Plans -/

namespace Plan

open Script (Placing)

variable {graph : Graph} {machine : Target} {plan : Plan} {table final : Table Key}
variable {tokens : List Token} {id outer : SymbolId} {level : Level}

/-- The plan places what it stores, and a scope comes next unless it has a slot. -/
structure PlacesItems (plan : Plan) (graph : Graph) : Prop where
  item : ∀ item, (∀ id, item = .scope id → graph.IsScope id) → Placing graph (plan item)
  scope : ∀ id table final tokens, table.limit = none →
    (plan (.scope id)).run table = .ok (tokens, final) →
      ComesNext (slots table) (slots final) id ∧ (some id ∈ slots table → final = table)

/-- The scope and the template of a level are known or come next, the template perhaps behind the
scope. -/
structure Completes (graph : Graph) (level : Level) (old last : List (Option SymbolId)) : Prop where
  scope : ∀ outer, level.scope = some outer → ComesNext old last outer ∨
    ∃ template, level.template = some template ∧ some template ∈ old
  template : ∀ named template, graph.symbol level.name = .ok named →
    named.template? = some template → ComesNext old last template ∨
      some template ∈ last ∧ ∃ outer, level.scope = some outer ∧
        last[old.length]? = some (some outer)

theorem generalName_places (copies : graph.CopiesTemplates) {symbol : Symbol} {template : SymbolId}
    {ident : String} (stored : graph.symbol id = .ok symbol)
    (special : symbol.template? = some template)
    (ready : ∀ outer, graph.scopeParent id = .ok (some outer) →
      some outer ∈ slots table ∨ some template ∈ slots table)
    (unlimited : table.limit = none)
    (ran : (generalName template ident).run table = .ok (tokens, final)) :
    final.limit = none ∧ Places graph (slots table) (slots final) ∧
      ComesNext (slots table) (slots final) template := by
  rcases run_named ran with ⟨known, rfl⟩ | ⟨unknown, written⟩
  · exact ⟨unlimited, .refl graph _, .inl known⟩
  · cases written
    rw [Table.limit_push, slots_push unlimited]
    refine ⟨unlimited, .push fun outright => ?_, .inr (by simp [Key.symbol?])⟩
    constructor
    · intro level outer found scope
      obtain ⟨-, -, around⟩ := outright.level_eq copies stored special found
      rw [List.take_left]
      exact .inl ((ready outer (scope ▸ around)).resolve_right unknown)
    · intro level named general found known specialized
      have plain := outright id symbol level named stored special found known
      simp [specialized] at plain

theorem sourceName_places (copies : graph.CopiesTemplates) (places : plan.PlacesItems graph)
    (ready : ∀ named template outer, graph.symbol id = .ok named →
      named.template? = some template → graph.scopeParent id = .ok (some outer) →
        some outer ∈ slots table ∨ some template ∈ slots table)
    (unlimited : table.limit = none)
    (ran : (plan.sourceName graph id).run table = .ok (tokens, final)) :
    final.limit = none ∧ Places graph (slots table) (slots final) ∧
      ∀ named template, graph.symbol id = .ok named → named.template? = some template →
        ComesNext (slots table) (slots final) template := by
  cases stored : graph.symbol id with
  | error fault =>
      simp only [sourceName, stored, Script.ofExcept] at ran
      cases ran
  | ok symbol =>
      cases special : symbol.template? with
      | none =>
          rw [sourceName_eq stored special] at ran
          cases ran
          refine ⟨unlimited, .refl graph _, ?_⟩
          rintro named template ⟨⟩ specialized
          simp [special] at specialized
      | some template =>
          rcases symbol with ⟨ident, parent, access, sort⟩
          cases sort with
          | specialization general args =>
              obtain rfl : general = template := by simpa [Symbol.template?] using special
              simp only [sourceName, stored, Script.ofExcept] at ran
              obtain ⟨_, middle, _, begun, ended, -⟩ := Script.run_append ran
              obtain ⟨free, general, next⟩ := generalName_places copies stored special
                (fun outer => ready _ _ outer stored special) unlimited begun
              have listing : Placing graph (.append (.write [.text "I"])
                  (.append (plan.arguments graph id args) (.write [.text "E"]))) := by
                refine Script.Placing.append (.write _) (.append ?_ (.write _))
                refine arguments_additive Script.Placing.additive fun part listed => ?_
                obtain ⟨arg, rfl⟩ := LinkName.Item.eq_argument_of_mem listed
                exact places.item _ (by rintro _ ⟨⟩)
              obtain ⟨still, placed⟩ := listing _ _ _ free ended
              refine ⟨still, general.trans placed, ?_⟩
              rintro named template ⟨⟩ specialized
              obtain rfl := Option.some.inj (special.symm.trans specialized)
              exact next.mono placed.grown
          | _ => simp [Symbol.template?] at special

theorem enclosing_places (places : plan.PlacesItems graph) (isScope : graph.IsScope outer)
    (unlimited : table.limit = none)
    (ran : (plan.enclosing level outer).run table = .ok (tokens, final)) :
    final.limit = none ∧ Places graph (slots table) (slots final) ∧
      (final = table ∨ (slots final)[(slots table).length]? = some (some outer)) ∧
      (ComesNext (slots table) (slots final) outer ∨
        ∃ template, level.template = some template ∧ some template ∈ slots table) := by
  have written (ran : (plan (.scope outer)).run table = .ok (tokens, final)) :
      final.limit = none ∧ Places graph (slots table) (slots final) ∧
        (final = table ∨ (slots final)[(slots table).length]? = some (some outer)) ∧
        (ComesNext (slots table) (slots final) outer ∨
          ∃ template, level.template = some template ∧ some template ∈ slots table) := by
    obtain ⟨next, kept⟩ := places.scope outer table final tokens unlimited ran
    have placing := places.item (.scope outer) (by rintro _ ⟨⟩; exact isScope)
    obtain ⟨free, placed⟩ := placing table final tokens unlimited ran
    exact ⟨free, placed, next.imp_left kept, .inl next⟩
  unfold enclosing at ran
  cases spelled : level.template with
  | none =>
      rw [spelled] at ran written
      exact written ran
  | some template =>
      rw [spelled] at ran written
      rcases Script.run_unlessKnown ran with ⟨known, -, rfl⟩ | ⟨-, ran⟩
      · exact ⟨unlimited, .refl graph _, .inl rfl, .inr ⟨template, rfl, mem_slots.mpr known⟩⟩
      · exact written ran

theorem levelName_places (copies : graph.CopiesTemplates) (places : plan.PlacesItems graph)
    (isLevel : graph.IsLevel id level) (unlimited : table.limit = none)
    (ran : (plan.levelName graph level).run table = .ok (tokens, final)) :
    final.limit = none ∧ Places graph (slots table) (slots final) ∧
      Completes graph level (slots table) (slots final) := by
  have around := isLevel.scope
  unfold levelName at ran
  cases scope : level.scope with
  | none =>
      rw [scope] at ran around
      have ready : ∀ named template outer, graph.symbol level.name = .ok named →
          named.template? = some template → graph.scopeParent level.name = .ok (some outer) →
            some outer ∈ slots table ∨ some template ∈ slots table := by
        intro named template outer _ _ inside
        cases around.symm.trans inside
      obtain ⟨free, placed, next⟩ := sourceName_places copies places ready unlimited ran
      refine ⟨free, placed, ⟨?_, fun named template known special => ?_⟩⟩
      · simp [scope]
      · exact .inl (next named template known special)
  | some outer =>
      rw [scope] at ran around
      obtain ⟨_, middle, _, begun, ended, -⟩ := Script.run_append ran
      obtain ⟨free, first, started, known⟩ :=
        enclosing_places places (isLevel.isScope scope) unlimited begun
      have ready : ∀ named template outer, graph.symbol level.name = .ok named →
          named.template? = some template → graph.scopeParent level.name = .ok (some outer) →
            some outer ∈ slots middle ∨ some template ∈ slots middle := by
        intro named template other stored special inside
        cases around.symm.trans inside
        rcases known with next | ⟨general, spelled, sooner⟩
        · exact .inl (next.mem first.grown)
        · obtain ⟨named', stored', special'⟩ := isLevel.template?_eq spelled
          cases stored.symm.trans stored'
          cases special.symm.trans special'
          exact .inr (first.grown.subset sooner)
      obtain ⟨still, second, next⟩ := sourceName_places copies places ready free ended
      refine ⟨still, first.trans second, ⟨?_, fun named template stored special => ?_⟩⟩
      · rintro other same
        cases scope.symm.trans same
        exact known.imp_left fun next => next.mono second.grown
      · have comes := next named template stored special
        rcases started with rfl | stands
        · exact .inl comes
        · exact .inr ⟨comes.mem second.grown, outer, scope,
            getElem?_of_grown second.grown stands⟩

/-- What completes the level of a scope comes after the scope. -/
theorem Completes.placed_scope {old last : List (Option SymbolId)} (order : graph.Order)
    (isScope : graph.IsScope id) (found : graph.level id = .ok level)
    (completes : Completes graph level (old ++ [some id]) last)
    (grown : old ++ [some id] <+: last) : Placed graph last old.length id := by
  have isLevel := Graph.isLevel_of_level found
  have taken : last.take old.length = old := by
    obtain ⟨rest, rfl⟩ := grown
    rw [List.append_assoc, List.take_left]
  have older {other : SymbolId} (known : some other ∈ old ++ [some id]) (differs : other ≠ id) :
      some other ∈ last.take old.length := by
    rw [taken]
    simpa [differs] using known
  have next {other : SymbolId} (comes : ComesNext (old ++ [some id]) last other)
      (differs : other ≠ id) :
      some other ∈ last.take old.length ∨ last[old.length + 1]? = some (some other) :=
    comes.imp (older · differs) fun stands => by simpa using stands
  constructor
  · intro level' outer found' scope
    cases found.symm.trans found'
    rcases completes.scope outer scope with comes | ⟨template, spelled, known⟩
    · exact (next comes (isLevel.outer_ne order scope)).imp_right fun stands =>
        .inl ⟨isScope, stands⟩
    · obtain ⟨named, stored, special⟩ := isLevel.template?_eq spelled
      exact .inr (.inr ⟨template, spelled, older known (isLevel.template_ne order stored special)⟩)
  · intro level' named template found' stored special
    cases found.symm.trans found'
    have differs := isLevel.template_ne order stored special
    rcases completes.template named template stored special with
      comes | ⟨known, outer, scope, stands⟩
    · exact (next comes differs).imp_right fun stands =>
        ⟨isScope, old.length + 1, Nat.lt_succ_self _, stands, .inl rfl⟩
    · obtain ⟨later, there⟩ := List.mem_iff_getElem?.mp known
      rcases Nat.lt_trichotomy later old.length with sooner | same | beyond
      · exact .inl (mem_take_iff.mpr ⟨later, sooner, there⟩)
      · have here : last[old.length]? = some (some id) := getElem?_of_grown grown (by simp)
        rw [same, here] at there
        exact absurd (by simpa using there.symm) differs
      · exact .inr ⟨isScope, later, beyond, there, .inr ⟨outer, scope, by simpa using stands⟩⟩

/-- What completes the level of a name comes before the name. -/
theorem Completes.placed_mention {old last : List (Option SymbolId)}
    (found : graph.level id = .ok level) (completes : Completes graph level old last)
    (grown : old <+: last) : Placed graph (last ++ [some id]) last.length id := by
  constructor
  · intro level' outer found' scope
    cases found.symm.trans found'
    rw [List.take_left]
    rcases completes.scope outer scope with comes | ⟨template, spelled, known⟩
    · exact .inl (comes.mem grown)
    · exact .inr (.inr ⟨template, spelled, grown.subset known⟩)
  · intro level' named template found' stored special
    cases found.symm.trans found'
    rw [List.take_left]
    rcases completes.template named template stored special with comes | ⟨known, -⟩
    · exact .inl (comes.mem grown)
    · exact .inl known

theorem scopeName_places (order : graph.Order) (copies : graph.CopiesTemplates)
    (places : plan.PlacesItems graph) (isScope : graph.IsScope id) :
    Placing graph (plan.scopeName graph id) := by
  intro table final tokens unlimited ran
  rcases run_named ran with ⟨-, rfl⟩ | ⟨-, inner⟩
  · exact ⟨unlimited, .refl graph _⟩
  cases found : graph.level id with
  | error fault =>
      rw [found] at inner
      cases inner
  | ok level =>
      rw [found] at inner
      have pushed : (table.push (.symbol id)).2.limit = none :=
        (Table.limit_push table _).trans unlimited
      obtain ⟨free, placed, completes⟩ :=
        levelName_places copies places (Graph.isLevel_of_level found) pushed inner
      rw [slots_push unlimited] at placed completes
      exact ⟨free, placed.after fun _ => completes.placed_scope order isScope found placed.grown⟩

theorem mention_places (copies : graph.CopiesTemplates) (places : plan.PlacesItems graph) :
    Placing graph (plan.mention graph id) := by
  intro table final tokens unlimited ran
  rcases Script.run_compound ran with ⟨_, -, -, rfl⟩ | ⟨middle, inner, rfl⟩
  · exact ⟨unlimited, .refl graph _⟩
  unfold qualifiedName at inner
  cases found : graph.level id with
  | error fault =>
      rw [found] at inner
      cases inner
  | ok level =>
      rw [found] at inner
      have written :
          ∃ tokens, (plan.levelName graph level).run table = .ok (tokens, middle) := by
        dsimp only [Script.ofExcept] at inner
        split at inner
        · obtain ⟨_, inner, -⟩ := Script.run_write_append inner
          obtain ⟨_, last, _, begun, ended, -⟩ := Script.run_append inner
          cases ended
          exact ⟨_, begun⟩
        · exact ⟨_, inner⟩
      obtain ⟨_, begun⟩ := written
      obtain ⟨free, placed, completes⟩ :=
        levelName_places copies places (Graph.isLevel_of_level found) unlimited begun
      rw [Table.limit_push, slots_push free]
      exact ⟨free, placed.trans (.push fun _ => completes.placed_mention found placed.grown)⟩

end Plan

namespace Item

variable {graph : Graph} {id named : SymbolId}

theorem not_scope_of_ofName : (.scope id : Item) ∉ LinkName.Item.ofName graph named := by
  intro listed
  unfold LinkName.Item.ofName at listed
  split at listed
  · obtain ⟨_, ⟨⟩⟩ := LinkName.Item.eq_argument_of_mem listed
  · cases listed

theorem isScope_of_ofScope (listed : (.scope id : Item) ∈ ofScope graph named) :
    graph.IsScope id := by
  unfold ofScope at listed
  split at listed
  · next scope found =>
    obtain ⟨outer, same, ⟨⟩⟩ := List.mem_map.mp listed
    obtain rfl : scope = some id := Option.mem_toList.mp same
    exact ⟨named, found⟩
  · cases listed

theorem isScope_of_ofDeclaration (listed : (.scope id : Item) ∈ ofDeclaration graph named) :
    graph.IsScope id := by
  rcases List.mem_append.mp listed with listed | typed
  · rcases List.mem_append.mp listed with scope | argument
    · exact isScope_of_ofScope scope
    · exact absurd argument not_scope_of_ofName
  · unfold ofSignature at typed
    split at typed
    · split at typed
      · obtain ⟨_, -, ⟨⟩⟩ := List.mem_map.mp typed
      · cases typed
    · cases typed

theorem isScope_of_ofMention (listed : (.scope id : Item) ∈ ofMention graph named) :
    graph.IsScope id := by
  unfold ofMention at listed
  split at listed
  · next level found =>
    rcases List.mem_append.mp listed with scope | argument
    · obtain ⟨outer, same, ⟨⟩⟩ := List.mem_map.mp scope
      exact (Graph.isLevel_of_level found).isScope (Option.mem_toList.mp same)
    · exact absurd argument not_scope_of_ofName
  · cases listed

theorem isScope_of_parts {item : Item} (listed : (.scope id : Item) ∈ parts graph item) :
    graph.IsScope id := by
  cases item with
  | scope outer => exact isScope_of_ofMention listed
  | argument owner arg =>
      cases arg with
      | type | value => cases List.mem_singleton.mp listed
      | typeAlias | pack => cases listed
      | symbolAlias target =>
          exact (List.mem_append.mp listed).elim isScope_of_ofDeclaration isScope_of_ofMention
  | type tree place =>
      cases tree with
      | basic | assocArray => cases listed
      | layer => cases List.mem_singleton.mp listed
      | named => exact isScope_of_ofMention listed
      | function result params convention quals =>
          obtain ⟨_, -, ⟨⟩⟩ := List.mem_map.mp ((List.mem_cons.mp listed).resolve_left nofun)

end Item

namespace Plan

variable {graph : Graph} {machine : Target} {plan : Plan} {id : SymbolId}

theorem argument_places (copies : graph.CopiesTemplates) (places : plan.PlacesItems graph)
    (owner : SymbolId) (arg : TemplateArg) :
    Script.Placing graph (plan.argument graph machine owner arg) := by
  refine argument_additive Script.Placing.additive (fun part listed => places.item part ?_)
    fun _ _ => mention_places copies places
  rintro id rfl
  exact Item.isScope_of_parts listed

theorem type_places (copies : graph.CopiesTemplates) (places : plan.PlacesItems graph)
    (tree : TypeTree) (place : Place) :
    Script.Placing graph (plan.type graph machine tree place) := by
  refine type_additive Script.Placing.additive (Script.Placing.keyed rfl) (.thenStore rfl)
    (fun _ _ _ _ => mention_places copies places) fun part listed => places.item part ?_
  rintro id rfl
  have inside : (.scope id : Item) ∈ Item.parts graph (.type tree place) := listed
  exact Item.isScope_of_parts inside

/-- Every plan places what it stores. -/
theorem places_within (order : graph.Order) (copies : graph.CopiesTemplates) (machine : Target)
    (depth : Nat) : (within graph machine depth).PlacesItems graph := by
  induction depth with
  | zero =>
      refine ⟨fun item _ => .refuse _, ?_⟩
      intro id table final tokens unlimited ran
      cases ran
  | succ depth ih =>
      constructor
      · intro item isScope
        cases item with
        | scope id => exact scopeName_places order copies ih (isScope id rfl)
        | argument owner arg => exact argument_places copies ih owner arg
        | type tree place => exact type_places copies ih tree place
      · intro id table final tokens unlimited ran
        rcases run_named ran with ⟨known, rfl⟩ | ⟨unknown, inner⟩
        · exact ⟨.inl known, fun _ => rfl⟩
        · have pushed : slots (table.push (.symbol id)).2 = slots table ++ [some id] :=
            slots_push unlimited
          have grown : slots table ++ [some id] <+: slots final := by
            rw [← pushed]
            exact (Script.run_grows _ inner).entries.map _
          exact ⟨.inr (getElem?_of_grown grown (by simp)), fun known => absurd known unknown⟩

theorem declaration_places (machine : Target) (places : plan.PlacesItems graph) (id : SymbolId) :
    Script.Placing graph (plan.declaration graph machine id) := by
  refine declaration_additive Script.Placing.additive fun part listed => places.item part ?_
  rintro id rfl
  exact Item.isScope_of_ofDeclaration listed

end Plan

end Itanium

end LinkName
