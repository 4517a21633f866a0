import LinkName.Naming
import LinkName.Proofs.Itanium.Placement

/-!
How a specialization is named. While a name is written, every template that is known has the scope
around it before it or right behind it, so a template that is referred back to implies its scope, which
is left out where a level is spelled through a member of the specialization. Only levels are
specializations: a variable or a function is written as its identifier.
-/
namespace LinkName

/-- A template is named outright by its specializations. -/
theorem Graph.ProperTemplates.namedOutright {graph : Graph} (proper : graph.ProperTemplates)
    {id template : SymbolId} {symbol : Symbol} {scope : Option SymbolId}
    (stored : graph.symbol id = .ok symbol) (special : symbol.template? = some template)
    (found : graph.scopeParent id = .ok scope) : graph.NamedOutright template := by
  obtain ⟨general, member, known, sort, -, -⟩ := proper.general_eq stored special
  intro _ _ level named _ _ found' stored'
  cases (proper.level_template stored special found).symm.trans found'
  cases known.symm.trans stored'
  simp [Symbol.template?, sort]

namespace Itanium

variable {graph : Graph} {order : graph.Order} {bound : Nat}

/-! ## Places in a run -/

/-- A run of the script from `table` comes to `part`, with the table in the state `before`. -/
inductive Script.Meets (part : Script) : Script → Table Key → Table Key → Prop
  | here (table : Table Key) : Meets part part table table
  | first {first second : Script} {table before : Table Key} (inside : Meets part first table before) :
      Meets part (.append first second) table before
  | second {first second : Script} {table middle before : Table Key} {tokens : List Token}
      (begun : first.run table = .ok (tokens, middle)) (inside : Meets part second middle before) :
      Meets part (.append first second) table before
  | orRef {key : Key} {body : Script} {table before : Table Key}
      (unknown : table.find? key = none) (inside : Meets part body table before) :
      Meets part (.orRef key body) table before
  | storeThen {key : Key} {body : Script} {table before : Table Key}
      (inside : Meets part body (table.push key).2 before) :
      Meets part (.storeThen key body) table before
  | thenStore {key : Key} {body : Script} {table before : Table Key}
      (inside : Meets part body table before) : Meets part (.thenStore key body) table before
  | unlessKnown {key : Key} {body : Script} {table before : Table Key}
      (unknown : key ∉ table.entries) (inside : Meets part body table before) :
      Meets part (.unlessKnown key body) table before

namespace Script.Meets

variable {part script : Script} {table before last : Table Key} {tokens : List Token}

/-- What a run comes to is run, and what it writes is a part of what is written. -/
theorem run (meets : Meets part script table before) (ran : script.run table = .ok (tokens, last)) :
    ∃ written after, part.run before = .ok (written, after) ∧ written <:+: tokens := by
  induction meets generalizing last tokens with
  | here table => exact ⟨tokens, last, ran, List.infix_rfl⟩
  | first inside ih =>
      obtain ⟨_, _, rest, begun, -, rfl⟩ := run_append ran
      obtain ⟨written, after, ended, inner⟩ := ih begun
      exact ⟨written, after, ended, inner.trans (List.prefix_append _ rest).isInfix⟩
  | second begun inside ih =>
      obtain ⟨_, _, _, begun', ended, rfl⟩ := run_append ran
      cases begun.symm.trans begun'
      obtain ⟨written, after, ended, inner⟩ := ih ended
      exact ⟨written, after, ended, inner.trans (List.suffix_append _ _).isInfix⟩
  | orRef unknown inside ih =>
      rcases run_orRef ran with ⟨slot, found, -, -⟩ | ⟨-, inner⟩
      · rw [unknown] at found
        cases found
      · exact ih inner
  | storeThen inside ih => exact ih ran
  | thenStore inside ih =>
      obtain ⟨middle, inner, -⟩ := run_thenStore ran
      exact ih inner
  | unlessKnown unknown inside ih =>
      rcases run_unlessKnown ran with ⟨known, -, -⟩ | ⟨-, inner⟩
      · exact absurd known unknown
      · exact ih inner

end Script.Meets

/-! ## What is placed while a name is written -/

/-- The symbols that need less than a bound are placed. The scopes that are being written are not yet. -/
def PlacedBelow (order : graph.Order) (bound : Nat) (slots : List (Option SymbolId)) : Prop :=
  ∀ slot id, slots[slot]? = some (some id) → 8 * order.rank (.symbol id) < bound →
    graph.NamedOutright id → Placed graph slots slot id

namespace PlacedBelow

variable {old last : List (Option SymbolId)}

theorem mono {less : Nat} (placed : PlacedBelow order bound old) (lower : less ≤ bound) :
    PlacedBelow order less old :=
  fun slot id stands below => placed slot id stands (below.trans_le lower)

theorem places (placed : PlacedBelow order bound old) (places : Places graph old last) :
    PlacedBelow order bound last := by
  intro slot id stands below outright
  by_cases sooner : slot < old.length
  · have stood : old[slot]? = some (some id) := by
      obtain ⟨rest, rfl⟩ := places.grown
      rwa [List.getElem?_append_left sooner] at stands
    exact (placed slot id stood below outright).mono places.grown
  · exact places.placed slot id (Nat.not_lt.mp sooner) stands outright

/-- A new symbol that needs the bound itself. -/
theorem push {id : SymbolId} (placed : PlacedBelow order bound old)
    (whole : bound ≤ 8 * order.rank (.symbol id)) : PlacedBelow order bound (old ++ [some id]) := by
  intro slot other stands below outright
  by_cases sooner : slot < old.length
  · rw [List.getElem?_append_left sooner] at stands
    exact (placed slot other stands below outright).mono (List.prefix_append _ _)
  · rw [List.getElem?_append_right (Nat.not_lt.mp sooner)] at stands
    obtain rfl : id = other := by
      simpa using (List.mem_singleton.mp (List.mem_of_getElem? stands)).symm
    exact absurd below (Nat.not_lt.mpr whole)

theorem none (order : graph.Order) (slots : List (Option SymbolId)) : PlacedBelow order 0 slots :=
  fun _ _ _ below => absurd below (Nat.not_lt_zero _)

end PlacedBelow

/-- Whatever the part asks for is placed if it is known. -/
def Ready (order : graph.Order) (part : Script) (before : Table Key) : Prop :=
  before.limit = none ∧ ∃ less, PlacedBelow order less (slots before) ∧ part.Within order less

/-- A run from the table comes to no part that is not ready. -/
def Watched (order : graph.Order) (script : Script) (table : Table Key) : Prop :=
  ∀ part before, Script.Meets part script table before → Ready order part before

/-- The script keeps symbols placed, and everything in it is ready. -/
structure Minds (order : graph.Order) (bound : Nat) (script : Script) : Prop where
  placing : script.Placing graph
  within : script.Within order bound
  watched : ∀ table : Table Key, table.limit = none → PlacedBelow order bound (slots table) →
    Watched order script table

namespace Minds

variable {key : Key} {body : Script} {table : Table Key}

theorem ready (within : body.Within order bound) (unlimited : table.limit = none)
    (placed : PlacedBelow order bound (slots table)) : Ready order body table :=
  ⟨unlimited, bound, placed, within⟩

theorem mono {more : Nat} (minds : Minds order bound body) (enough : bound ≤ more) :
    Minds order more body :=
  ⟨minds.placing, minds.within.mono enough, fun table unlimited placed =>
    minds.watched table unlimited (placed.mono enough)⟩

theorem write (tokens : List Token) : Minds order bound (.write tokens) where
  placing := .write tokens
  within := Script.Within.additive.write tokens
  watched table unlimited placed part before meets := by
    cases meets
    exact ready (Script.Within.additive.write tokens) unlimited placed

theorem refuse (refusal : Refusal) : Minds order bound (.refuse refusal) where
  placing := .refuse refusal
  within := Script.Within.additive.refuse refusal
  watched table unlimited placed part before meets := by
    cases meets
    exact ready (Script.Within.additive.refuse refusal) unlimited placed

theorem append {first second : Script} (before : Minds order bound first)
    (after : Minds order bound second) : Minds order bound (.append first second) where
  placing := before.placing.append after.placing
  within := Script.Within.additive.append before.within after.within
  watched table unlimited placed part reached meets := by
    cases meets with
    | here =>
        exact ready (Script.Within.additive.append before.within after.within) unlimited placed
    | first inside => exact before.watched table unlimited placed part reached inside
    | second begun inside =>
        obtain ⟨free, grown⟩ := before.placing _ _ _ unlimited begun
        exact after.watched _ free (placed.places grown) part reached inside

theorem additive : Script.Additive (Minds order bound) where
  write := write
  refuse := refuse
  append := append

theorem orRef (below : key.Below order bound) (minds : Minds order bound body) :
    Minds order bound (.orRef key body) where
  placing := minds.placing.orRef
  within := .orRef below minds.within
  watched table unlimited placed part reached meets := by
    cases meets with
    | here => exact ready (.orRef below minds.within) unlimited placed
    | orRef unknown inside => exact minds.watched table unlimited placed part reached inside

theorem watched_thenStore (below : key.Below order bound) (minds : Minds order bound body)
    (unlimited : table.limit = none) (placed : PlacedBelow order bound (slots table)) :
    Watched order (.thenStore key body) table := by
  intro part reached meets
  cases meets with
  | here => exact ready (List.forall_mem_cons.mpr ⟨below, minds.within⟩) unlimited placed
  | thenStore inside => exact minds.watched table unlimited placed part reached inside

theorem thenStore (other : key.symbol? = none) (below : key.Below order bound)
    (minds : Minds order bound body) : Minds order bound (.thenStore key body) where
  placing := minds.placing.thenStore other
  within := List.forall_mem_cons.mpr ⟨below, minds.within⟩
  watched _ unlimited placed := watched_thenStore below minds unlimited placed

/-- What has nothing but text inside of it is ready anyway. -/
theorem watched_named_write (tokens : List Token) (below : key.Below order bound)
    (unlimited : table.limit = none) (placed : PlacedBelow order bound (slots table)) :
    Watched order (.named key (.write tokens)) table := by
  have within := Script.Within.named below (Script.Within.additive.write tokens)
  intro part reached meets
  cases meets with
  | here => exact ready within unlimited placed
  | orRef unknown inside =>
      cases inside with
      | here =>
          exact ready (fun key listed => within key (List.mem_cons_of_mem _ listed)) unlimited placed
      | storeThen inside =>
          cases inside
          exact ⟨(Table.limit_push table key).trans unlimited, 0, .none order _,
            Script.Within.additive.write tokens⟩

theorem keyed (other : key.symbol? = none) (below : key.Below order bound) :
    Script.Keyed (Minds order bound) key where
  orRef := orRef below
  thenStore := thenStore other below
  named tokens := {
    placing := (Script.Placing.storeThen other (.write tokens)).orRef
    within := .named below (Script.Within.additive.write tokens)
    watched := fun _ unlimited placed => watched_named_write tokens below unlimited placed }

theorem unlessKnown (below : key.Below order bound) (minds : Minds order bound body) :
    Minds order bound (.unlessKnown key body) where
  placing table final tokens unlimited ran := by
    rcases Script.run_unlessKnown ran with ⟨-, -, rfl⟩ | ⟨-, inner⟩
    · exact ⟨unlimited, .refl graph _⟩
    · exact minds.placing table final tokens unlimited inner
  within := .unlessKnown below minds.within
  watched table unlimited placed part reached meets := by
    cases meets with
    | here => exact ready (.unlessKnown below minds.within) unlimited placed
    | unlessKnown unknown inside => exact minds.watched table unlimited placed part reached inside

end Minds

/-! ## Plans -/

namespace Plan

variable {machine : Target} {plan : Plan} {id outer : SymbolId} {level : Level} {table : Table Key}
variable (formed : graph.WellFormed) (copies : graph.CopiesTemplates)
include formed copies

theorem sourceName_watched (lower : 8 * order.rank (.symbol id) ≤ bound)
    (parts : ∀ part ∈ (LinkName.Item.ofName graph id : List Item), Minds order bound (plan part))
    (ready : ∀ named template outer, graph.symbol id = .ok named →
      named.template? = some template → graph.scopeParent id = .ok (some outer) →
        some outer ∈ slots table ∨ some template ∈ slots table)
    (unlimited : table.limit = none) (placed : PlacedBelow order bound (slots table)) :
    Watched order (plan.sourceName graph id) table := by
  have within := sourceName_within formed lower fun part listed => (parts part listed).within
  cases stored : graph.symbol id with
  | error fault =>
      simp only [sourceName, stored, Script.ofExcept]
      exact (Minds.refuse _).watched table unlimited placed
  | ok symbol =>
      rcases symbol with ⟨ident, parent, access, sort⟩
      cases sort with
      | specialization template args =>
          have general : graph.Mentions (.symbol id) (.symbol template) :=
            Graph.mentions_template stored rfl
          simp only [LinkName.Item.ofName, stored] at parts
          have listing : Minds order bound (.append (.write [.text "I"])
              (.append (plan.arguments graph id args) (.write [.text "E"]))) :=
            .append (.write _) (.append (arguments_additive Minds.additive parts) (.write _))
          simp only [sourceName, stored, Script.ofExcept] at within ⊢
          intro part reached meets
          cases meets with
          | here => exact ⟨unlimited, bound, placed, within⟩
          | first inside =>
              exact Minds.watched_named_write _ (below_symbol formed general lower) unlimited placed
                part reached inside
          | second begun inside =>
              obtain ⟨free, grown, -⟩ := generalName_places copies stored rfl
                (fun outer => ready _ _ outer stored rfl) unlimited begun
              exact listing.watched _ free (placed.places grown) part reached inside
      | _ =>
          simp only [sourceName, stored, Script.ofExcept]
          exact (Minds.write _).watched table unlimited placed

variable (places : plan.PlacesItems graph)
include places

theorem levelName_watched (isLevel : graph.IsLevel id level)
    (lower : 8 * order.rank (.symbol id) ≤ bound)
    (parts : ∀ part ∈ Item.ofLevel graph level, Minds order bound (plan part))
    (unlimited : table.limit = none) (placed : PlacedBelow order bound (slots table)) :
    Watched order (plan.levelName graph level) table := by
  have within := levelName_within formed isLevel lower fun part listed => (parts part listed).within
  have lowest := isLevel.rank_name_le order
  have around := isLevel.scope
  have named : ∀ part ∈ LinkName.Item.ofName graph level.name, Minds order bound (plan part) :=
    fun part listed => parts part (List.mem_append_right _ listed)
  unfold levelName at within ⊢
  cases scope : level.scope with
  | none =>
      refine sourceName_watched formed copies (by omega) named ?_ unlimited placed
      intro _ _ other _ _ inside
      rw [scope] at around
      cases around.symm.trans inside
  | some outer =>
      rw [scope] at within around
      have enclosing : Minds order bound (plan.enclosing level outer) := by
        have written : Minds order bound (plan (.scope outer)) :=
          parts _ (List.mem_append_left _ (by simp [scope]))
        unfold Plan.enclosing
        split
        · next template special =>
          exact written.unlessKnown
            (below_symbol formed (isLevel.mentions_template special) (by omega))
        · exact written
      intro part reached meets
      cases meets with
      | here => exact ⟨unlimited, bound, placed, within⟩
      | first inside => exact enclosing.watched table unlimited placed part reached inside
      | second begun inside =>
          obtain ⟨free, first, -, known⟩ :=
            enclosing_places places (isLevel.isScope scope) unlimited begun
          refine sourceName_watched formed copies (by omega) named ?_ free
            (placed.places first) part reached inside
          intro named template other stored special inside
          cases around.symm.trans inside
          rcases known with next | ⟨general, spelled, sooner⟩
          · exact .inl (next.mem first.grown)
          · obtain ⟨named', stored', special'⟩ := isLevel.template?_eq spelled
            cases stored.symm.trans stored'
            cases special.symm.trans special'
            exact .inr (first.grown.subset sooner)

theorem levelName_minds (isLevel : graph.IsLevel id level)
    (lower : 8 * order.rank (.symbol id) ≤ bound)
    (parts : ∀ part ∈ Item.ofLevel graph level, Minds order bound (plan part)) :
    Minds order bound (plan.levelName graph level) where
  placing _ _ _ unlimited ran := by
    obtain ⟨free, placed, -⟩ := levelName_places copies places isLevel unlimited ran
    exact ⟨free, placed⟩
  within := levelName_within formed isLevel lower fun part listed => (parts part listed).within
  watched _ unlimited placed :=
    levelName_watched formed copies places isLevel lower parts unlimited placed

theorem level_minds (lower : 8 * order.rank (.symbol id) ≤ bound)
    (parts : ∀ part ∈ Item.ofMention graph id, Minds order bound (plan part)) :
    Minds order bound (.ofExcept (graph.level id) (plan.levelName graph)) := by
  refine Minds.additive.ofExcept fun level found => ?_
  rw [Item.ofMention, found] at parts
  exact levelName_minds formed copies places (Graph.isLevel_of_level found) lower parts

/-- A scope is stored before it is written, and what is written asks only for what needs less. -/
theorem scopeName_minds (held : graph.Holds (.symbol id)) (isScope : graph.IsScope id)
    (parts : ∀ part ∈ Item.ofMention graph id,
      Minds order (8 * order.rank (.symbol id)) (plan part)) :
    Minds order (8 * order.rank (.symbol id) + 1) (plan.scopeName graph id) where
  placing := scopeName_places order copies places isScope
  within := scopeName_within formed held fun part listed => (parts part listed).within
  watched table unlimited placed part reached meets := by
    have inner := level_minds formed copies places le_rfl parts
    have below : (Key.symbol id).Below order (8 * order.rank (.symbol id) + 1) :=
      ⟨held, Nat.lt_succ_self _⟩
    have whole := inner.within.mono (Nat.le_succ _)
    cases meets with
    | here => exact ⟨unlimited, _, placed, .named below whole⟩
    | orRef unknown inside =>
        cases inside with
        | here =>
            exact ⟨unlimited, _, placed, List.forall_mem_cons.mpr ⟨below, whole⟩⟩
        | storeThen inside =>
            refine inner.watched _ ((Table.limit_push table _).trans unlimited) ?_ part reached inside
            rw [slots_push unlimited]
            exact (placed.mono (Nat.le_succ _)).push le_rfl

theorem qualifiedName_minds (lower : 8 * order.rank (.symbol id) ≤ bound)
    (parts : ∀ part ∈ Item.ofMention graph id, Minds order bound (plan part)) :
    Minds order bound (plan.qualifiedName graph id) := by
  refine Minds.additive.ofExcept fun level found => ?_
  rw [Item.ofMention, found] at parts
  have inside := levelName_minds formed copies places (Graph.isLevel_of_level found) lower parts
  split
  · exact .append (.write _) (.append inside (.write _))
  · exact inside

theorem mention_minds (below : (Key.symbol id).Below order bound)
    (parts : ∀ part ∈ Item.ofMention graph id, Minds order bound (plan part)) :
    Minds order bound (plan.mention graph id) where
  placing := mention_places copies places
  within := mention_within formed below fun part listed => (parts part listed).within
  watched table unlimited placed part reached meets := by
    have inner := qualifiedName_minds formed copies places below.2.le parts
    cases meets with
    | here => exact ⟨unlimited, bound, placed, .compound below inner.within⟩
    | orRef unknown inside =>
        exact inner.watched_thenStore below unlimited placed part reached inside

theorem type_minds {tree : TypeTree} {place : Place} (light : LinkName.Item.Light order bound tree)
    (parts : ∀ part ∈ Item.ofType graph tree, Minds order bound (plan part)) :
    Minds order bound (plan.type graph machine tree place) := by
  refine type_additive Minds.additive (Minds.keyed rfl light) (.thenStore rfl trivial) ?_ parts
  rintro naming symbol quals rfl
  exact mention_minds formed copies places ⟨light.1 symbol List.mem_cons_self, light.2⟩ parts

theorem item_minds {item : Item} (held : item.Held graph)
    (isScope : ∀ id, item = .scope id → graph.IsScope id)
    (parts : ∀ part ∈ Item.parts graph item, Minds order (item.need order) (plan part)) :
    Minds order (item.need order + 1) (plan.item graph machine item) := by
  have raised := fun part listed => (parts part listed).mono (Nat.le_succ _)
  cases item with
  | scope id => exact scopeName_minds formed copies places held (isScope id rfl) parts
  | argument owner arg =>
      refine argument_additive Minds.additive raised ?_
      rintro target rfl
      exact mention_minds formed copies places (below_alias held) fun part listed =>
        raised part (List.mem_append_right _ listed)
  | type tree place => exact type_minds formed copies places ⟨held, Nat.lt_succ_self _⟩ raised

omit places in
/-- Whatever is written for an item is ready when it is come to. -/
theorem within_minds (order : graph.Order) (depth : Nat) {item : Item} (held : item.Held graph)
    (isScope : ∀ id, item = .scope id → graph.IsScope id) :
    Minds order (item.need order + 1) (within graph machine depth item) := by
  induction depth generalizing item with
  | zero => exact .refuse _
  | succ depth ih =>
      refine item_minds formed copies (places_within order copies machine depth) held isScope
        fun part listed => ?_
      obtain ⟨heldPart, less⟩ := Item.below_parts formed order held part listed
      refine (ih heldPart ?_).mono less
      rintro id rfl
      exact Item.isScope_of_parts listed

omit places in
theorem declaration_minds (order : graph.Order) (depth : Nat) (id : SymbolId) :
    Minds order (8 * order.rank (.symbol id))
      (declaration graph machine (within graph machine depth) id) := by
  refine declaration_additive Minds.additive fun part listed => ?_
  obtain ⟨held, less⟩ := Item.below_ofDeclaration formed order id part listed
  refine (within_minds formed copies order depth held ?_).mono less
  rintro id rfl
  exact Item.isScope_of_ofDeclaration listed

end Plan

/-! ## How a specialization is written -/

/-- The scope of the level is written, if there is one, and then the identifier. -/
structure SpelledOut (plan : Plan) (level : Level) (symbol : Symbol) (template : SymbolId)
    (before : Table Key) (lead : List Token) (name : Token) : Prop where
  unknown : .symbol template ∉ before.entries
  identifier : name = .source symbol.ident
  outermost : level.scope = none → lead = []
  enclosed : ∀ outer, level.scope = some outer →
    ∃ middle, (plan (.scope outer)).run before = .ok (lead, middle)

/-- The template is referred back to. Its slot comes after that of the scope or, if the template is
a scope itself, right before it. Where the level is spelled through a member, nothing stands before
the reference. -/
structure ReferredBack (graph : Graph) (level : Level) (template : SymbolId) (before : Table Key)
    (lead : List Token) (slot : Nat) : Prop where
  known : before.entries[slot]? = some (.symbol template)
  outermost : level.scope = none → lead = []
  enclosed : ∀ outer, level.scope = some outer → .symbol outer ∈ before.entries.take slot ∨
    graph.IsScope template ∧ before.entries[slot + 1]? = some (.symbol outer)
  implied : level.template.isSome → lead = []

theorem getElem?_slots {table : Table Key} {slot : Nat} {id : SymbolId} :
    (slots table)[slot]? = some (some id) ↔ table.entries[slot]? = some (.symbol id) := by
  rw [slots, List.getElem?_map, Option.map_eq_some_iff]
  constructor
  · rintro ⟨key, stands, same⟩
    cases key <;> simp_all [Key.symbol?]
  · exact fun stands => ⟨_, stands, rfl⟩

/-- The scope of a placed symbol comes before it or, behind a scope, next, unless a template implies
it. -/
theorem Placed.enclosed {table : Table Key} {slot : Nat} {id outer : SymbolId} {level : Level}
    (placed : Placed graph (slots table) slot id) (found : graph.level id = .ok level)
    (outright : level.template = none) (scope : level.scope = some outer) :
    .symbol outer ∈ table.entries.take slot ∨
      graph.IsScope id ∧ table.entries[slot + 1]? = some (.symbol outer) := by
  rcases placed.scope _ outer found scope with sooner | ⟨isScope, next⟩ | ⟨template, spelled, -⟩
  · obtain ⟨index, earlier, there⟩ := mem_take_iff.mp sooner
    exact .inl (mem_take_iff.mpr ⟨index, earlier, getElem?_slots.mp there⟩)
  · exact .inr ⟨isScope, getElem?_slots.mp next⟩
  · cases outright.symm.trans spelled

namespace Plan

variable {machine : Target} {plan : Plan} {id owner template : SymbolId} {symbol : Symbol}
variable {level : Level} {args : List TemplateArg} {table before last : Table Key}
variable {tokens : List Token} {depth : Nat}

/-- A specialization is written as a reference to its template or as its identifier, with its
arguments behind it. -/
theorem sourceName_specialized (stored : graph.symbol id = .ok symbol)
    (sort : symbol.sort = .specialization template args)
    (ran : (plan.sourceName graph id).run table = .ok (tokens, last)) :
    ∃ name listed, tokens = name :: .text "I" :: listed ++ [.text "E"] ∧
      ((∃ slot, table.find? (.symbol template) = some slot ∧ name = .backRef slot) ∨
        table.find? (.symbol template) = none ∧ name = .source symbol.ident) := by
  rcases symbol with ⟨ident, parent, access, kind⟩
  obtain rfl : kind = .specialization template args := sort
  simp only [sourceName, stored, Script.ofExcept] at ran
  obtain ⟨_, middle, _, begun, ended, rfl⟩ := Script.run_append ran
  obtain ⟨_, inner, rfl⟩ := Script.run_write_append ended
  obtain ⟨listed, _, _, -, closed, rfl⟩ := Script.run_append inner
  cases closed
  rcases Script.run_orRef begun with ⟨slot, found, rfl, -⟩ | ⟨unknown, inner⟩
  · exact ⟨.backRef slot, listed, rfl, .inl ⟨slot, found, rfl⟩⟩
  · cases inner
    exact ⟨.source ident, listed, rfl, .inr ⟨unknown, rfl⟩⟩

/-- What stands before the name of a level. -/
theorem levelName_lead (ran : (plan.levelName graph level).run before = .ok (tokens, last)) :
    ∃ lead name middle, tokens = lead ++ name ∧ before.entries <+: middle.entries ∧
      (plan.sourceName graph level.name).run middle = .ok (name, last) ∧
      (lead = [] ∧ middle = before ∧ (level.scope = none ∨
        ∃ template, level.template = some template ∧ .symbol template ∈ before.entries) ∨
      ∃ outer, level.scope = some outer ∧ (plan (.scope outer)).run before = .ok (lead, middle) ∧
        ∀ template, level.template = some template → .symbol template ∉ before.entries) := by
  unfold levelName at ran
  cases scope : level.scope with
  | none =>
      rw [scope] at ran
      exact ⟨[], tokens, before, rfl, List.prefix_rfl, ran, .inl ⟨rfl, rfl, .inl rfl⟩⟩
  | some outer =>
      rw [scope] at ran
      obtain ⟨lead, middle, name, begun, ended, rfl⟩ := Script.run_append ran
      refine ⟨lead, name, middle, rfl, (Script.run_grows _ begun).entries, ended, ?_⟩
      unfold enclosing at begun
      cases spelled : level.template with
      | none =>
          rw [spelled] at begun
          exact .inr ⟨outer, rfl, begun, nofun⟩
      | some template =>
          rw [spelled] at begun
          rcases Script.run_unlessKnown begun with ⟨known, rfl, rfl⟩ | ⟨unknown, begun⟩
          · exact .inl ⟨rfl, rfl, .inr ⟨template, rfl, known⟩⟩
          · refine .inr ⟨outer, rfl, begun, ?_⟩
            rintro _ ⟨⟩
            exact unknown

theorem mem_keys_levelName (stored : graph.symbol level.name = .ok symbol)
    (sort : symbol.sort = .specialization template args) :
    .symbol template ∈ (plan.levelName graph level).keys := by
  have listed : .symbol template ∈ (plan.sourceName graph level.name).keys := by
    rcases symbol with ⟨ident, parent, access, kind⟩
    obtain rfl : kind = .specialization template args := sort
    simp only [sourceName, stored, Script.ofExcept]
    exact List.mem_append_left _ List.mem_cons_self
  unfold levelName
  cases level.scope with
  | none => exact listed
  | some outer => exact List.mem_append_right _ listed

/-- The scope of a symbol needs less than the symbol, so that writing the scope does not store it. -/
theorem scope_keeps_out (formed : graph.WellFormed) (order : graph.Order) {outer : SymbolId}
    {middle : Table Key} (mentioned : graph.Mentions (.symbol id) (.symbol outer))
    (ran : (within graph machine depth (.scope outer)).run before = .ok (tokens, middle))
    (unknown : .symbol id ∉ before.entries) : .symbol id ∉ middle.entries := by
  intro listed
  have descends := order.descends _ _ mentioned
  have held : (Item.scope outer : Item).Held graph := formed.closed _ _ mentioned
  rcases Script.mem_of_run _ ran listed with sooner | asked
  · exact unknown sooner
  · obtain ⟨-, above⟩ := within_within formed order depth held _ asked
    rw [LinkName.Item.need_scope] at above
    omega

/-- Where a level is a specialization, either its scope is written and then its identifier, or its
template is referred back to. -/
theorem levelName_specialized (formed : graph.WellFormed) (proper : graph.ProperTemplates)
    (found : graph.level owner = .ok level) (stored : graph.symbol level.name = .ok symbol)
    (sort : symbol.sort = .specialization template args)
    (ready : Ready order ((within graph machine depth).levelName graph level) before)
    (ran : ((within graph machine depth).levelName graph level).run before = .ok (tokens, last)) :
    ∃ lead name listed, tokens = lead ++ name :: .text "I" :: listed ++ [.text "E"] ∧
      (SpelledOut (within graph machine depth) level symbol template before lead name ∨
        ∃ slot, name = .backRef slot ∧ ReferredBack graph level template before lead slot) := by
  obtain ⟨unlimited, less, placed, within⟩ := ready
  obtain ⟨-, lower⟩ := within _ (mem_keys_levelName stored sort)
  have special : symbol.template? = some template := by simp [Symbol.template?, sort]
  have isLevel := Graph.isLevel_of_level found
  have level_template := proper.level_template stored special isLevel.scope
  have outright := proper.namedOutright stored special isLevel.scope
  obtain ⟨lead, rest, middle, rfl, grown, named, around⟩ := levelName_lead ran
  obtain ⟨name, listed, rfl, known⟩ := sourceName_specialized stored sort named
  have same (general : SymbolId) (spelled : level.template = some general) : general = template := by
    obtain ⟨named, stored', special'⟩ := isLevel.template?_eq spelled
    cases stored.symm.trans stored'
    exact Option.some.inj (special'.symm.trans special)
  have outermost (none : level.scope = none) : lead = [] := by
    rcases around with ⟨nothing, -, -⟩ | ⟨outer, scope, -, -⟩
    · exact nothing
    · cases none.symm.trans scope
  refine ⟨lead, name, listed, by simp, ?_⟩
  by_cases recorded : .symbol template ∈ before.entries
  · obtain ⟨slot, sought⟩ : ∃ slot, before.find? (.symbol template) = some slot :=
      Option.ne_none_iff_exists'.mp fun none => Table.find?_eq_none_iff.mp none recorded
    have stands := Table.getElem?_of_find? sought
    have standing := placed slot template (getElem?_slots.mpr stands) lower outright
    rcases known with ⟨slot', sought', rfl⟩ | ⟨unknown, -⟩
    · obtain rfl : slot = slot' :=
        Option.some.inj ((Table.find?_of_prefix grown sought).symm.trans sought')
      refine .inr ⟨slot, rfl, stands, outermost, fun outer scope => ?_, fun spelled => ?_⟩
      · exact standing.enclosed level_template rfl scope
      · rcases around with ⟨nothing, -, -⟩ | ⟨_, -, -, unknown⟩
        · exact nothing
        · obtain ⟨general, spelled⟩ := Option.isSome_iff_exists.mp spelled
          exact absurd recorded (same general spelled ▸ unknown general spelled)
    · exact absurd (grown.subset recorded) (Table.find?_eq_none_iff.mp unknown)
  · have unrecorded : .symbol template ∉ middle.entries := by
      rcases around with ⟨-, rfl, -⟩ | ⟨outer, scope, begun, -⟩
      · exact recorded
      · have mentioned : graph.Mentions (.symbol template) (.symbol outer) :=
          (Graph.isLevel_of_level level_template).mentions_scope scope
        exact scope_keeps_out formed order mentioned begun recorded
    rcases known with ⟨_, sought, -⟩ | ⟨-, rfl⟩
    · exact absurd (List.mem_of_getElem? (Table.getElem?_of_find? sought)) unrecorded
    · refine .inl ⟨recorded, rfl, outermost, fun outer scope => ?_⟩
      rcases around with ⟨-, -, none | ⟨general, spelled, stored⟩⟩ | ⟨other, scope', begun, -⟩
      · cases scope.symm.trans none
      · exact absurd stored (same general spelled ▸ recorded)
      · cases scope.symm.trans scope'
        exact ⟨middle, begun⟩

end Plan

/-! ## Names -/

/-- The script of the name of a variable or a function. -/
def nameScript (graph : Graph) (target : Target) (id : SymbolId) : Script :=
  (Plan.within graph target (Encoder.depthBound graph)).declaration graph
    target id

theorem nameFor_eq_run (formed : graph.WellFormed) {target : Target} {id : SymbolId}
    (held : graph.Holds (.symbol id)) :
    nameFor graph target id = (fun reached => String.ofList (Token.write reached.1)) <$>
      (nameScript graph target id).run Table.unbounded := by
  unfold nameFor name
  rw [show (Table.unbounded : Table Component) = { limit := none } from rfl,
    outcome_encode formed _ held, nameScript,
    show (Table.unbounded : Table Key) = { limit := none } from rfl]
  simp only [StateT.run]
  cases Script.run _ ({ limit := none } : Table Key) <;> rfl

/-- The session that a name ends with, and the table of its script. -/
theorem session_of_nameFor (formed : graph.WellFormed) {target : Target} {id : SymbolId}
    {text : String} (named : nameFor graph target id = .ok text) :
    ∃ tokens session last,
      (encode target id : Encoder graph (List Token)).run
        { tables := Table.unbounded } = .ok tokens session ∧
      (nameScript graph target id).run Table.unbounded = .ok (tokens, last) ∧
      (reading graph).relates session.overlay session.tables last ∧
      text = String.ofList (Token.write tokens) := by
  unfold nameFor name at named
  cases encoded : (encode target id : Encoder graph (List Token)).run
      { tables := Table.unbounded } with
  | error refusal session =>
      simp only [Encoder.outcome, encoded] at named
      cases named
  | ok tokens session =>
      simp only [Encoder.outcome, encoded] at named
      cases named
      obtain ⟨last, ran, related⟩ := run_of_encode formed encoded
      exact ⟨tokens, session, last, rfl, ran, related, rfl⟩

theorem run_of_nameFor (formed : graph.WellFormed) {target : Target} {id : SymbolId} {text : String}
    (named : nameFor graph target id = .ok text) :
    ∃ tokens last, (nameScript graph target id).run Table.unbounded = .ok (tokens, last) ∧
      text = String.ofList (Token.write tokens) := by
  obtain ⟨tokens, session, last, -, ran, -, same⟩ := session_of_nameFor formed named
  exact ⟨tokens, last, ran, same⟩

/-- How a specialization is written, wherever a name comes to one: either its template has no slot,
and its scope is written and then its identifier; or the template is referred back to, and its scope
was recorded before it or, if the template is a scope itself, right behind it. In a level that is
spelled through a member of the specialization, nothing stands before the reference. -/
theorem nameFor_specializations (built : graph.Built) (general : graph.SpecializesTemplates)
    (apart : graph.TemplatesApart) {target : Target} {id : SymbolId} {text : String}
    (named : nameFor graph target id = .ok text) :
    ∃ tokens last, (nameScript graph target id).run Table.unbounded = .ok (tokens, last) ∧
      text = String.ofList (Token.write tokens) ∧
      ∀ (depth : Nat) (owner template : SymbolId) (level : Level) (symbol : Symbol)
        (args : List TemplateArg) (before : Table Key), graph.level owner = .ok level →
        graph.symbol level.name = .ok symbol → symbol.sort = .specialization template args →
        Script.Meets ((Plan.within graph target depth).levelName graph level)
          (nameScript graph target id) Table.unbounded before →
        ∃ lead name listed, lead ++ name :: .text "I" :: listed ++ [.text "E"] <:+: tokens ∧
          (SpelledOut (Plan.within graph target depth) level symbol template before lead
              name ∨
            ∃ slot, name = .backRef slot ∧ ReferredBack graph level template before lead slot) := by
  have formed := built.wellFormed
  have proper : graph.ProperTemplates := ⟨built.sound.copies, general, apart⟩
  obtain ⟨tokens, last, ran, rfl⟩ := run_of_nameFor formed named
  refine ⟨tokens, last, ran, rfl, ?_⟩
  intro depth owner template level symbol args before found stored sort meets
  have minds : Minds formed.order (8 * formed.order.rank (.symbol id)) (nameScript graph target id) :=
    Plan.declaration_minds formed proper.copies formed.order (Encoder.depthBound graph) id
  have start : PlacedBelow formed.order (8 * formed.order.rank (.symbol id))
      (slots Table.unbounded) := by
    intro slot _ stands
    simp [slots, Table.unbounded] at stands
  have ready := minds.watched Table.unbounded rfl start _ before meets
  obtain ⟨written, after, ended, inner⟩ := meets.run ran
  obtain ⟨lead, name, listed, rfl, cases⟩ :=
    Plan.levelName_specialized formed proper found stored sort ready ended
  exact ⟨lead, name, listed, inner, cases⟩

/-- A template `Gauge` in `geo`, with a `Dial` declared in it. A `Gauge` of its specialization for
`int` is passed to `read` along with a pair that has a variable of another specialization as its
argument, and to `show` along with a `Dial`. -/
def dials : Graph where
  symbols :=
    [{ ident := "app", sort := .moduleScope },
      { ident := "geo", parent := some ⟨0⟩, sort := .namespaceScope },
      { ident := "Gauge", parent := some ⟨1⟩, sort := .template none },
      { ident := "Dial", parent := some ⟨2⟩, sort := .record .struct },
      { ident := "Gauge", parent := some ⟨1⟩, sort := .specialization ⟨2⟩ [.type ⟨0⟩] },
      { ident := "Gauge", parent := some ⟨4⟩, sort := .record .struct },
      { ident := "Gauge", parent := some ⟨1⟩, sort := .specialization ⟨2⟩ [.type ⟨1⟩] },
      { ident := "level", parent := some ⟨6⟩,
        sort := .var { type := ⟨0⟩, storage := { isExtern := true } } },
      { ident := "Pair", parent := some ⟨0⟩, sort := .template none },
      { ident := "Pair", parent := some ⟨0⟩, sort := .specialization ⟨8⟩ [.symbolAlias ⟨7⟩] },
      { ident := "Pair", parent := some ⟨9⟩, sort := .record .struct },
      { ident := "read", parent := some ⟨0⟩, sort := .function { type := ⟨6⟩ } },
      { ident := "show", parent := some ⟨0⟩, sort := .function { type := ⟨7⟩ } }]
  types :=
    [{ form := .basic .int32 }, { form := .basic .char }, { form := .basic .void },
      { form := .record ⟨5⟩ }, { form := .record ⟨10⟩ }, { form := .record ⟨3⟩ },
      { form := .function { result := ⟨2⟩, params := [{ type := ⟨3⟩ }, { type := ⟨4⟩ }] } },
      { form := .function { result := ⟨2⟩, params := [{ type := ⟨5⟩ }, { type := ⟨3⟩ }] } }]

theorem dials_built : dials.Built :=
  Graph.built_of_takeAll?
    [.type { form := .basic .int32 }, .type { form := .basic .char },
      .type { form := .basic .void },
      .symbol { ident := "app", sort := .moduleScope },
      .symbol { ident := "geo", parent := some ⟨0⟩, sort := .namespaceScope },
      .symbol { ident := "Gauge", parent := some ⟨1⟩, sort := .template none },
      .symbol { ident := "Dial", parent := some ⟨2⟩, sort := .record .struct },
      .specialization ⟨2⟩ [.type ⟨0⟩],
      .symbol { ident := "Gauge", parent := some ⟨4⟩, sort := .record .struct },
      .specialization ⟨2⟩ [.type ⟨1⟩],
      .symbol
        { ident := "level", parent := some ⟨6⟩,
          sort := .var { type := ⟨0⟩, storage := { isExtern := true } } },
      .symbol { ident := "Pair", parent := some ⟨0⟩, sort := .template none },
      .specialization ⟨8⟩ [.symbolAlias ⟨7⟩],
      .symbol { ident := "Pair", parent := some ⟨9⟩, sort := .record .struct },
      .type { form := .record ⟨5⟩ }, .type { form := .record ⟨10⟩ }, .type { form := .record ⟨3⟩ },
      .type
        { form := .function
            { result := ⟨2⟩, params := [{ type := ⟨3⟩ }, { type := ⟨4⟩ }] } },
      .type
        { form := .function
            { result := ⟨2⟩, params := [{ type := ⟨5⟩ }, { type := ⟨3⟩ }] } },
      .symbol { ident := "read", parent := some ⟨0⟩, sort := .function { type := ⟨6⟩ } },
      .symbol { ident := "show", parent := some ⟨0⟩, sort := .function { type := ⟨7⟩ } }] rfl

theorem dials_specializesTemplates : dials.SpecializesTemplates := by
  rintro ⟨_ | _ | _ | _ | _ | _ | _ | _ | _ | _ | _ | _ | _ | index⟩ symbol template stored special <;>
    cases stored <;> cases special <;> exact ⟨_, none, rfl, rfl⟩

theorem dials_templatesApart : dials.TemplatesApart := by
  rintro ⟨_ | _ | _ | _ | _ | _ | _ | _ | _ | _ | _ | _ | _ | index⟩ symbol member parent outer stored
      sort inside known <;>
    cases stored <;> cases sort <;> cases inside <;> cases known <;> rfl

/-- The level of a member of `Gauge`, and that of the specialization which holds `level`. -/
def dialsLevel (name : SymbolId) (template : Option SymbolId) : Level :=
  { name, scope := some ⟨1⟩, template }

abbrev dialsPlan (depth : Nat) : Plan := Plan.within dials Target.itanium64 depth

def dialsTable (ids : List SymbolId) : Table Key := { limit := none, entries := ids.map .symbol }

abbrev dialsMember : Script := (dialsPlan 175).levelName dials (dialsLevel ⟨4⟩ (some ⟨2⟩))

abbrev dialsScope : Script := (dialsPlan 173).levelName dials (dialsLevel ⟨6⟩ none)

/-- The second parameter of `show` comes to a `Gauge` once `Dial` has been written. -/
theorem dials_meets_show : Script.Meets dialsMember (nameScript dials .itanium64 ⟨12⟩)
    Table.unbounded (dialsTable [⟨2⟩, ⟨1⟩, ⟨3⟩]) := by
  have named : Script.Meets dialsMember ((dialsPlan 175).mention dials ⟨5⟩)
      (dialsTable [⟨2⟩, ⟨1⟩, ⟨3⟩]) _ :=
    .orRef rfl (.thenStore (.second rfl (.first (.here _))))
  exact .second rfl (.second rfl (.first (.second rfl (.first (.orRef rfl (.second rfl named))))))

/-- The second parameter of `read` comes to the scope of `level` as an argument. -/
theorem dials_meets_read : Script.Meets dialsScope (nameScript dials .itanium64 ⟨11⟩)
    Table.unbounded (dialsTable [⟨1⟩, ⟨2⟩, ⟨5⟩, ⟨8⟩, ⟨6⟩]) := by
  have scope : Script.Meets dialsScope (dialsPlan 174 (.scope ⟨6⟩))
      (dialsTable [⟨1⟩, ⟨2⟩, ⟨5⟩, ⟨8⟩]) _ := .orRef rfl (.storeThen (.here _))
  have argument : Script.Meets dialsScope (dialsPlan 175 (.argument ⟨9⟩ (.symbolAlias ⟨7⟩)))
      (dialsTable [⟨1⟩, ⟨2⟩, ⟨5⟩, ⟨8⟩]) _ := .second rfl (.first (.second rfl (.first scope)))
  have named : Script.Meets dialsScope ((dialsPlan 175).mention dials ⟨10⟩)
      (dialsTable [⟨1⟩, ⟨2⟩, ⟨5⟩]) _ :=
    .orRef rfl (.thenStore (.second rfl (.second rfl (.first (.first argument)))))
  exact .second rfl (.second rfl (.first (.second rfl (.first (.orRef rfl (.second rfl named))))))

/-- Behind `Dial` there is no scope before the reference to `Gauge`. -/
theorem nameFor_specializations_show :
    nameFor dials .itanium64 ⟨12⟩ = .ok "_Z4showN3geo5Gauge4DialENS_IiEE" ∧
      ∃ tokens last slot listed,
        (nameScript dials .itanium64 ⟨12⟩).run Table.unbounded = .ok (tokens, last) ∧
          .backRef slot :: .text "I" :: listed ++ [.text "E"] <:+: tokens := by
  have named : nameFor dials .itanium64 ⟨12⟩ = .ok "_Z4showN3geo5Gauge4DialENS_IiEE" := by
    decide +kernel
  obtain ⟨tokens, last, ran, -, each⟩ :=
    nameFor_specializations dials_built dials_specializesTemplates dials_templatesApart named
  obtain ⟨lead, name, listed, inside, spelled | ⟨slot, rfl, back⟩⟩ :=
    each 175 ⟨5⟩ ⟨2⟩ (dialsLevel ⟨4⟩ (some ⟨2⟩)) _ _ _ rfl rfl rfl dials_meets_show
  · exact absurd List.mem_cons_self spelled.unknown
  · obtain rfl := back.implied rfl
    exact ⟨named, tokens, last, slot, listed, ran, inside⟩

/-- In `show` the scope of `Gauge` is recorded after `Gauge` itself, in which a `Dial` lies. In
`read`, where a specialization is named by its own level, there is a reference to the scope before
the one to the template. -/
theorem specializations_dials_otherwise :
    dials.Built ∧ dials.SpecializesTemplates ∧ dials.TemplatesApart ∧
    nameFor dials .itanium64 ⟨12⟩ = .ok "_Z4showN3geo5Gauge4DialENS_IiEE" ∧
    nameFor dials .itanium64 ⟨11⟩ = .ok "_Z4readN3geo5GaugeIiEE4PairIL_ZNS_S0_IcE5levelEEE" ∧
    (∃ before last, dials.level ⟨5⟩ = .ok (dialsLevel ⟨4⟩ (some ⟨2⟩)) ∧
      Script.Meets dialsMember (nameScript dials .itanium64 ⟨12⟩) Table.unbounded before ∧
      before.entries.take 2 = [.symbol ⟨2⟩, .symbol ⟨1⟩] ∧
      dialsMember.run before = .ok ([.backRef 0, .text "I", .text "i", .text "E"], last)) ∧
    ∃ before last, dials.level ⟨6⟩ = .ok (dialsLevel ⟨6⟩ none) ∧
      Script.Meets dialsScope (nameScript dials .itanium64 ⟨11⟩) Table.unbounded before ∧
      before.entries.take 2 = [.symbol ⟨1⟩, .symbol ⟨2⟩] ∧
      dialsScope.run before =
        .ok ([.backRef 0, .backRef 1, .text "I", .text "c", .text "E"], last) := by
  refine ⟨dials_built, dials_specializesTemplates, dials_templatesApart, by decide +kernel,
    by decide +kernel, ?_, ?_⟩
  · exact ⟨_, _, rfl, dials_meets_show, rfl, rfl⟩
  · exact ⟨_, _, rfl, dials_meets_read, rfl, rfl⟩

end Itanium

end LinkName
