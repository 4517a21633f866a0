import LinkName.Proofs.Graph.Members
import LinkName.Proofs.Itanium.Refusals
import LinkName.Proofs.Itanium.Restoration
import LinkName.Proofs.Numeral

/-!
Names read back in full. At the head of a nested name the slot of a symbol is short for all that
encloses the symbol as well; a template that follows its own scope is the one thing for which that is
too much.
-/
namespace LinkName.Itanium

variable {graph : Graph}

namespace Key

open Plan (settled)

/-- What the slot of a key is short for. -/
def spell (order : graph.Order) (machine : Target) : Standing → Key → List Token
  | .alone, .symbol id => (Plan.mention graph (settled order machine) id).inFull
  | .leading, .symbol id | .following, .symbol id => (settled order machine (.scope id)).inFull
  | _, .type tree => (settled order machine (.type tree .nested)).inFull
  | _, .unnamed => []

/-- What the slot of a key is short for if no scope is to be repeated. -/
def resume (order : graph.Order) (machine : Target) : Standing → Key → List Token
  | .following, .symbol id =>
    (Script.ofExcept (graph.level id) fun level =>
      Plan.sourceName graph (settled order machine) level.name).inFull
  | standing, key => key.spell order machine standing

/-- Whether the key is that of a symbol in a scope. -/
def isEnclosed (graph : Graph) : Key → Bool
  | .symbol id => (graph.level id).toOption.any (·.scope.isSome)
  | _ => false

end Key

namespace Plan

/-- Restores the full text, and repeats no scope if types name members instead of
specializations. -/
abbrev Restores (order : graph.Order) (machine : Target) (stack after : List Standing)
    (script : Script) : Prop :=
  Script.Restores (Key.resume order machine) (Key.isEnclosed graph) graph.NamesMembers stack after
    script

end Plan

/-- Scopes stand at the head of a name, everything else stands alone. -/
def Item.standing : Item → Standing
  | .scope _ => .leading
  | .argument _ _ | .type _ _ => .alone

namespace Plan

def InPlace (order : graph.Order) (machine : Target) (item : Item) : Prop :=
  ∀ rest, Restores order machine (Item.standing item :: rest) ((Item.standing item).next :: rest)
    (settled order machine item)

variable {machine : Target} {order : graph.Order} {id : SymbolId} {rest : List Standing}

/-! ## Names -/

section

variable (formed : graph.WellFormed) (order)
include formed

theorem full_scope (held : graph.Holds (.symbol id)) {level : Level}
    (found : graph.level id = .ok level) :
    (settled order machine (.scope id)).full = (levelName graph (settled order machine) level).full := by
  have unfolded : settled order machine (.scope id) = scopeName graph (settled order machine) id :=
    settled_eq formed order held
  simp only [unfolded, scopeName, found]
  rfl

variable (proper : graph.ProperTemplates) {symbol : Symbol} {template : SymbolId}
variable {scope : Option SymbolId} (stored : graph.symbol id = .ok symbol)
variable (special : symbol.template? = some template) (found : graph.scopeParent id = .ok scope)
include proper stored special found

/-- Behind its scope, or without one, the slot of a template is short for its identifier. -/
theorem resume_template {standing : Standing} (fits : standing = .following ∨ scope = none) :
    Key.resume order machine standing (.symbol template) = [.source symbol.ident] := by
  have level := proper.level_template stored special found
  have source : sourceName graph (settled order machine) template = .write [.source symbol.ident] :=
    sourceName_template proper stored special
  have held : graph.Holds (.symbol template) :=
    formed.closed _ _ (Graph.mentions_template stored special)
  cases standing with
  | following =>
      simp only [Key.resume, level, Script.ofExcept, source]
      rfl
  | leading =>
      obtain rfl : scope = none := by simpa using fits
      refine Script.inFull_of_full ((full_scope order formed held level).trans ?_)
      simp only [levelName, source]
      rfl
  | alone =>
      obtain rfl : scope = none := by simpa using fits
      refine Script.inFull_of_full ?_
      simp only [mention, qualifiedName, level, Script.ofExcept, levelName, source]
      rfl

/-- At the head of a name, the slot of a template is short for its scope and its identifier. -/
theorem resume_template_leading {outer : SymbolId} (inside : scope = some outer)
    {full : List Token} (whole : (settled order machine (.scope outer)).full = .ok full) :
    Key.resume order machine .leading (.symbol template) = full ++ [.source symbol.ident] := by
  subst inside
  have level := proper.level_template stored special found
  have source : sourceName graph (settled order machine) template = .write [.source symbol.ident] :=
    sourceName_template proper stored special
  have held : graph.Holds (.symbol template) :=
    formed.closed _ _ (Graph.mentions_template stored special)
  refine Script.inFull_of_full ((full_scope order formed held level).trans ?_)
  simp only [levelName, enclosing, source, Script.full, whole]
  rfl

end

theorem arguments_restores {owner : SymbolId} {args : List TemplateArg}
    (parts : ∀ part ∈ (LinkName.Item.ofArguments owner args : List Item), InPlace order machine part) :
    Restores order machine (.alone :: rest) (.alone :: rest)
      (arguments graph (settled order machine) owner args) := by
  induction args with
  | nil => exact .write (by simp [Plain]) rfl
  | cons first others ih =>
      cases first with
      | pack inner =>
          cases others with
          | nil =>
              refine .append (.write (by simp [Plain]) rfl)
                (.append (.concat ?_) (.write (by simp [Plain]) rfl))
              intro script listed
              obtain ⟨arg, known, rfl⟩ := List.mem_map.mp listed
              exact parts _ (List.mem_append_left _ (List.mem_map_of_mem known)) _
          | cons second others => exact .refuse _
      | _ =>
          obtain ⟨head, tail⟩ := List.forall_mem_cons.mp parts
          exact .append (head rest) (ih tail)

/-- The arguments of a specialization leave the stack as it is. -/
theorem listing_restores {owner : SymbolId} {args : List TemplateArg} {stack : List Standing}
    (parts : ∀ part ∈ (LinkName.Item.ofArguments owner args : List Item), InPlace order machine part) :
    Restores order machine stack stack (.append (.write [.text "I"])
      (.append (arguments graph (settled order machine) owner args) (.write [.text "E"]))) :=
  .append (.write (by simp [Plain]) rfl)
    (.append (arguments_restores parts) (.write (by simp [Plain]) rfl))

theorem source_restores {stack : List Standing} (ident : String) :
    Restores order machine stack (stack.modifyHead Standing.next) (.write [.source ident]) :=
  .write (by simp [Plain]) rfl

section

variable (formed : graph.WellFormed) (proper : graph.ProperTemplates)
include formed proper

theorem sourceName_restores {scope : Option SymbolId} (found : graph.scopeParent id = .ok scope)
    {standing : Standing} (fits : standing = .following ∨ scope = none)
    (plain : graph.NamesMembers → graph.Unwrapped id)
    (parts : ∀ part ∈ (LinkName.Item.ofName graph id : List Item), InPlace order machine part) :
    Restores order machine (standing :: rest) (standing.next :: rest)
      (sourceName graph (settled order machine) id) := by
  refine .ofExcept fun symbol stored => ?_
  rcases symbol with ⟨ident, parent, access, sort⟩
  cases sort with
  | specialization template args =>
      simp only [LinkName.Item.ofName, stored] at parts
      have earned : Key.resume order machine standing (.symbol template) = [.source ident] :=
        resume_template order formed proper stored rfl found fits
      have level := proper.level_template stored rfl found
      refine .append (.orRef ?_ ?_ (.storeThen (source_restores ident))) (listing_restores parts)
      · intro full whole
        cases whole
        exact earned
      · intro clean _
        obtain rfl : none = scope := Except.ok.inj ((plain clean _ stored rfl).symm.trans found)
        simp [Key.isEnclosed, level, Except.toOption]
  | _ => exact source_restores ident

theorem levelName_restores {level : Level} (found : graph.level id = .ok level)
    {standing : Standing} (fits : standing = .leading ∨ level.scope = none)
    (plain : graph.NamesMembers → graph.Unwrapped id)
    (parts : ∀ part ∈ Item.ofLevel graph level, InPlace order machine part) :
    Restores order machine (standing :: rest) (standing.next :: rest)
      (levelName graph (settled order machine) level) := by
  have isLevel := Graph.isLevel_of_level found
  have named : ∀ part ∈ (LinkName.Item.ofName graph level.name : List Item),
      InPlace order machine part := fun part listed => parts part (List.mem_append_right _ listed)
  unfold levelName
  cases scope : level.scope with
  | none =>
      refine sourceName_restores formed proper isLevel.scope (.inr scope) ?_ named
      exact fun _ _ _ _ => scope ▸ isLevel.scope
  | some outer =>
      obtain rfl : standing = .leading := by simpa [scope] using fits
      have outside : Restores order machine (.leading :: rest) (.following :: rest)
          (settled order machine (.scope outer)) :=
        parts (.scope outer) (List.mem_append_left _ (by simp [scope])) rest
      unfold Plan.enclosing
      rcases isLevel.name with ⟨same, absent⟩ | ⟨mentioned, symbol, template, stored, special, known⟩
      · rw [absent]
        rw [← same] at plain
        exact .append outside (sourceName_restores formed proper isLevel.scope (.inl rfl) plain named)
      · rw [known]
        have mentions : graph.Mentions (.symbol template) (.symbol outer) := by
          obtain ⟨-, -, -, -, -, parent⟩ := proper.general_eq stored special
          exact Graph.mentions_scopeParent (parent.trans (scope ▸ isLevel.scope))
        have fresh : .symbol template ∉ (settled order machine (.scope outer)).keys := by
          intro listed
          have held : (LinkName.Item.scope outer : Item).Held graph := formed.closed _ _ mentions
          have below := (settled_within formed order held _ listed).2
          have lower := order.descends _ _ mentions
          simp only [LinkName.Item.need] at below
          omega
        rcases symbol with ⟨ident, parent, access, sort⟩
        cases sort with
        | specialization template' args =>
            obtain rfl : template' = template := by simpa [Symbol.template?] using special
            simp only [LinkName.Item.ofName, stored] at named
            simp only [sourceName, stored, Script.ofExcept]
            refine .assoc (.append (.implied ?_ fresh outside) (listing_restores named))
            exact fun full whole => resume_template_leading order formed proper stored special
              isLevel.scope scope whole
        | _ => cases special

theorem scopeName_restores (held : graph.Holds (.symbol id)) (general : graph.General id)
    (parts : ∀ part ∈ Item.ofMention graph id, InPlace order machine part) :
    Restores order machine (.leading :: rest) (.following :: rest)
      (scopeName graph (settled order machine) id) := by
  obtain ⟨level, found⟩ := formed.level_eq_ok held
  simp only [Item.ofMention, found] at parts
  simp only [scopeName, found, Script.ofExcept]
  refine .orRef ?_ (by rintro - ⟨⟩) (.storeThen
    (levelName_restores formed proper found (.inl rfl) (fun _ => general.unwrapped) parts))
  exact fun full whole => Script.inFull_of_full ((full_scope order formed held found).trans whole)

/-- The name of a record, an enumeration or a template. -/
theorem mention_restores (held : graph.Holds (.symbol id))
    (plain : graph.NamesMembers → graph.Unwrapped id)
    (parts : ∀ part ∈ Item.ofMention graph id, InPlace order machine part) :
    Restores order machine (.alone :: rest) (.alone :: rest)
      (mention graph (settled order machine) id) := by
  obtain ⟨level, found⟩ := formed.level_eq_ok held
  simp only [Item.ofMention, found] at parts
  refine .orRef (fun full whole => Script.inFull_of_full whole) (by rintro - ⟨⟩) (.thenStore ?_)
  simp only [qualifiedName, found, Script.ofExcept]
  cases scope : level.scope with
  | none => exact levelName_restores formed proper found (.inr scope) plain parts
  | some outer =>
      exact .append (.write (by simp [Plain]) rfl)
        (.append (levelName_restores formed proper found (.inl rfl) plain parts)
          (.write (by simp [Plain]) rfl))

end

/-! ## Types -/

theorem parameters_restores {params : List (Passing × TypeTree)} (isVariadic : Bool)
    (parts : ∀ part ∈ Item.ofParameters params, InPlace order machine part) :
    Restores order machine (.alone :: rest) (.alone :: rest)
      (parameters graph (settled order machine) params isVariadic) := by
  refine .append (.concat ?_) (.write ?_ ?_)
  · intro script listed
    obtain ⟨param, known, rfl⟩ := List.mem_map.mp listed
    unfold parameter
    split
    · exact .refuse _
    · exact parts _ (List.mem_map_of_mem known) rest
  · unfold parameterEnd
    split
    · simp [Plain]
    · split <;> simp [Plain]
  · unfold parameterEnd
    split
    · rfl
    · split <;> rfl

theorem functionType_restores {result : TypeTree} {params : List (Passing × TypeTree)}
    {convention : Convention}
    (returned : InPlace order machine (.type (TypeTree.returned convention result) .nested))
    (listed : ∀ part ∈ Item.ofParameters params, InPlace order machine part) :
    Restores order machine (.alone :: rest) (.alone :: rest)
      (functionType graph (settled order machine) result params convention) := by
  have opens : Restores order machine (.alone :: rest) (.alone :: .alone :: rest)
      (.write (.text "F" :: if convention.linkage = .c then [.text "Y"] else [])) := by
    split <;> exact .write (by simp [Plain]) rfl
  exact .append opens (.append (returned _)
    (.append (parameters_restores _ listed) (.write (by simp [Plain]) rfl)))

theorem lead_restores {around : Layer} {isConst : Bool} {lead : List Token}
    (found : around.itaniumLead? isConst = some lead) :
    Restores order machine (.alone :: rest) (.alone :: rest) (.write lead) := by
  cases around <;> cases isConst <;> cases found <;> exact .write (by simp [Plain]) rfl

theorem basic_restores (isConst : Bool) (basic : BasicType) :
    Restores order machine (.alone :: rest) (.alone :: rest)
      (.write (constMark isConst ++ [.text (builtin machine basic)])) := by
  refine .write (by cases isConst <;> simp [Plain, constMark]) ?_
  cases isConst <;> cases basic <;> simp only [builtin] <;> (try split) <;> rfl

/-- Only a const class is written in two ways. -/
theorem type_place {plan : Plan} {tree : TypeTree} (plain : tree.hasConstClass = false)
    (place : Place) : type graph machine plan tree place = type graph machine plan tree .nested := by
  unfold type
  split
  · rfl
  · cases tree with
    | named naming symbol quals =>
        cases naming with
        | classRef =>
            have mutable : quals.isConst = false := plain
            simp [namedType, mutable, constMark]
        | _ => rfl
    | _ => rfl

theorem type_restores (formed : graph.WellFormed) (proper : graph.ProperTemplates)
    {tree : TypeTree} (place : Place) (held : ∀ symbol ∈ tree.symbols, graph.Holds (.symbol symbol))
    (mutable : tree.hasConstClass = false)
    (plain : graph.NamesMembers → ∀ symbol ∈ tree.symbols, graph.Unwrapped symbol)
    (parts : ∀ part ∈ Item.ofType graph tree, InPlace order machine part) :
    Restores order machine (.alone :: rest) (.alone :: rest)
      (type graph machine (settled order machine) tree place) := by
  rw [type_place mutable]
  have unfolded : settled order machine (.type tree .nested) =
      type graph machine (settled order machine) tree .nested :=
    settled_eq formed order held
  have earned : ∀ full, (type graph machine (settled order machine) tree .nested).full = .ok full →
      Key.resume order machine .alone (.type tree) = full :=
    fun full whole => Script.inFull_of_full (unfolded ▸ whole)
  unfold type at earned ⊢
  split
  · exact .refuse _
  · next native =>
    rw [if_neg native] at earned
    cases tree with
    | basic basic quals =>
        have written : Restores order machine (.alone :: rest) (.alone :: rest)
            (.write (constMark quals.isConst ++ [.text (builtin machine basic)])) :=
          basic_restores quals.isConst basic
        dsimp only [basicType] at earned ⊢
        split at earned
        · next stored =>
          rw [if_pos stored]
          exact .orRef earned (by rintro - ⟨⟩) (.storeThen written)
        · next unstored =>
          rw [if_neg unstored]
          exact written
    | layer around inner quals =>
        dsimp only at earned ⊢
        cases lead : around.itaniumLead? quals.isConst with
        | none => exact .refuse _
        | some tokens =>
            rw [lead] at earned
            exact .orRef earned (by rintro - ⟨⟩) (.thenStore
              (.append (lead_restores lead) (parts _ List.mem_cons_self rest)))
    | named naming symbol quals =>
        have mentioned : Restores order machine (.alone :: rest) (.alone :: rest)
            (mention graph (settled order machine) symbol) :=
          mention_restores formed proper (held symbol List.mem_cons_self)
            (fun clean => plain clean symbol List.mem_cons_self) parts
        cases naming with
        | typedef => exact .refuse _
        | classRef =>
            refine .orRef earned (by rintro - ⟨⟩)
              (.thenStore (.thenStoreIf (.append (.write ?_ ?_) mentioned)))
            · cases quals.isConst <;> simp [Plain, constMark]
            · cases quals.isConst <;> rfl
        | record | enumeration =>
            refine .orRef earned (by rintro - ⟨⟩) (.thenStoreIf (.append (.write ?_ ?_) mentioned))
            · cases quals.isConst <;> simp [Plain, constMark]
            · cases quals.isConst <;> rfl
    | assocArray key value quals => exact .refuse _
    | function result params convention quals =>
        obtain ⟨returned, listed⟩ := List.forall_mem_cons.mp parts
        exact .orRef earned (by rintro - ⟨⟩) (.thenStore (functionType_restores returned listed))

/-! ## Declarations -/

section

variable {symbol : Symbol} (stored : graph.symbol id = .ok symbol)
include stored

/-- A variable leaves the stack as it is, except for one outside every scope, whose bare identifier
is no name that could be read. -/
theorem variableName_restores (asArgument : Bool) {info : VariableInfo}
    (sort : symbol.sort = .var info)
    (parts : ∀ part ∈ Item.ofScope graph id, InPlace order machine part) :
    ∃ after, (asArgument = true → after = .alone :: rest) ∧
      Restores order machine (.alone :: rest) after
        (variableName graph machine (settled order machine) asArgument id symbol info) := by
  have source : sourceName graph (settled order machine) id = .write [.source symbol.ident] :=
    sourceName_eq stored (by simp [Symbol.template?, sort])
  unfold variableName
  split
  · cases found : graph.scopeParent id with
    | error fault => exact ⟨.alone :: rest, fun _ => rfl, .refuse _⟩
    | ok scope =>
        simp only [Item.ofScope, found] at parts
        cases scope with
        | some outer =>
            have outside : Restores order machine (.leading :: .alone :: rest)
                (.following :: .alone :: rest) (settled order machine (.scope outer)) :=
              parts _ List.mem_cons_self _
            have lead : Restores order machine (.alone :: rest) (.leading :: .alone :: rest)
                (.write [.text machine.lead, .text "N"]) := by
              unfold Target.lead
              split <;> exact .write (by simp [Plain]) rfl
            have own : Restores order machine (.following :: .alone :: rest)
                (.following :: .alone :: rest) (sourceName graph (settled order machine) id) :=
              source ▸ source_restores symbol.ident
            exact ⟨.alone :: rest, fun _ => rfl, .append lead (.append outside
              (.append own (.write (by simp [Plain]) rfl)))⟩
        | none =>
            cases asArgument with
            | true =>
                have lead : Restores order machine (.alone :: rest) (.alone :: rest)
                    (.write [.text machine.lead]) := by
                  unfold Target.lead
                  split <;> exact .write (by simp [Plain]) rfl
                exact ⟨.alone :: rest, fun _ => rfl, .append lead (source ▸ source_restores _)⟩
            | false =>
                refine ⟨_, by rintro ⟨⟩, .write ?_ rfl⟩
                unfold freeVariable
                split <;> simp [Plain]
  · exact ⟨.alone :: rest, fun _ => rfl, .refuse _⟩

theorem functionName_restores {info : FunctionInfo} (sort : symbol.sort = .function info)
    (scopes : ∀ part ∈ Item.ofScope graph id, InPlace order machine part)
    (signature : ∀ part ∈ Item.ofSignature graph id, InPlace order machine part) :
    Restores order machine (.alone :: rest) (.alone :: rest)
      (functionName graph machine (settled order machine) id info) := by
  have source {stack : List Standing} : Restores order machine stack (stack.modifyHead Standing.next)
      (sourceName graph (settled order machine) id) :=
    sourceName_eq stored (by simp [Symbol.template?, sort]) ▸ source_restores symbol.ident
  have path : Restores order machine (.alone :: rest) (.alone :: rest)
      (functionPath graph (settled order machine) info id) := by
    refine .ofExcept fun scope found => ?_
    rw [Item.ofScope, found] at scopes
    cases scope with
    | none => exact source
    | some outer =>
        have outside : Restores order machine (.leading :: .alone :: rest)
            (.following :: .alone :: rest) (settled order machine (.scope outer)) :=
          scopes _ List.mem_cons_self _
        have own : Restores order machine (.following :: .alone :: rest) (.following :: .alone :: rest)
            (ownName graph (settled order machine) info id) := by
          unfold ownName
          split
          · exact .write (by simp [Plain]) rfl
          · exact source
        refine .append (.write ?_ ?_) (.append outside
          (.append own (.write (by simp [Plain]) rfl)))
        · cases info.isConst <;> simp [Plain, constMark]
        · cases info.isConst <;> rfl
  rcases symbol with ⟨ident, parent, access, kind⟩
  obtain rfl : kind = .function info := sort
  simp only [Item.ofSignature, stored] at signature
  unfold functionName
  cases same : graph.tree info.type with
  | function result params convention quals =>
      simp only [same] at signature ⊢
      have lead : Restores order machine (.alone :: rest) (.alone :: rest)
          (.write [.text machine.lead]) := by
        unfold Target.lead
        split <;> exact .write (by simp [Plain]) rfl
      refine .append lead ?_
      split
      · exact .append path (parameters_restores _ signature)
      · exact source
  | _ => exact .refuse _

theorem functionArgument_restores {info : FunctionInfo} (sort : symbol.sort = .function info)
    (scopes : ∀ part ∈ Item.ofScope graph id, InPlace order machine part)
    (signature : ∀ part ∈ Item.ofSignature graph id, InPlace order machine part) :
    Restores order machine (.alone :: rest) (.alone :: rest)
      (functionArgument graph machine (settled order machine) id info) := by
  unfold functionArgument
  split
  · refine .ofExcept fun scope _ => ?_
    dsimp only
    split
    · exact .append (.write (by simp [Plain]) rfl)
        (.append (functionName_restores stored sort scopes signature)
          (.write (by simp [Plain]) rfl))
    · exact .append (.write (by simp [Plain]) rfl)
        (.append (functionName_restores stored sort scopes signature)
          (.write (by simp [Plain]) rfl))
  · exact .refuse _

end

/-! ## Items -/

/-- Scopes that are no specializations and types without const classes. -/
def Tame (graph : Graph) : Item → Prop
  | .scope id => graph.General id
  | .argument _ _ => True
  | .type tree _ => tree.hasConstClass = false ∧
    (graph.NamesMembers → ∀ symbol ∈ tree.symbols, graph.Unwrapped symbol)

section

variable (formed : graph.WellFormed) (proper : graph.ProperTemplates)
variable (types : graph.SpecializationsHoldTypes) (classes : graph.ClassesMutable)

include formed classes

theorem tame_tree {type : TypeId} (held : graph.Holds (.type type)) (place : Place) :
    Tame graph (.type (graph.tree type) place) :=
  ⟨classes.hasConstClass_tree formed held, fun members => members.unwrapped_tree formed held⟩

omit formed classes in
theorem tame_ofParameters {params : List (Passing × TypeTree)}
    (plain : ∀ param ∈ params, Tame graph (.type param.2 .nested)) :
    ∀ part ∈ Item.ofParameters params, Tame graph part := by
  intro part listed
  obtain ⟨param, known, rfl⟩ := List.mem_map.mp listed
  simpa only [Tame, TypeTree.hasConstClass_withoutConst, TypeTree.hasConstClass_passed,
    TypeTree.symbols_withoutConst, TypeTree.symbols_passed] using plain param known

theorem tame_ofSignature : ∀ part ∈ Item.ofSignature graph id, Tame graph part := by
  unfold Item.ofSignature
  split
  · next ident parent access info stored =>
    have held := formed.closed _ _ (Graph.mentions_function stored rfl)
    split
    · next result params convention quals same =>
      obtain ⟨mutable, plain⟩ := same ▸ tame_tree formed classes held .nested
      refine tame_ofParameters fun param listed => ⟨?_, fun clean symbol named => ?_⟩
      · exact (TypeTree.hasConstClass_function.mp mutable).2 param listed
      · exact plain clean symbol (TypeTree.mem_symbols_function.mpr (.inr ⟨param, listed, named⟩))
    · simp
  · simp

omit formed classes

theorem tame_ofArguments {owner : SymbolId} {args : List TemplateArg} :
    ∀ part ∈ (LinkName.Item.ofArguments owner args : List Item), Tame graph part := by
  induction args with
  | nil => simp [LinkName.Item.ofArguments]
  | cons first rest ih =>
      cases first with
      | pack inner =>
          intro part listed
          rcases List.mem_append.mp listed with packed | later
          · obtain ⟨arg, -, rfl⟩ := List.mem_map.mp packed
            trivial
          · exact ih part later
      | _ => exact List.forall_mem_cons.mpr ⟨trivial, ih⟩

include types proper in
theorem tame_ofMention : ∀ part ∈ Item.ofMention graph id, Tame graph part := by
  unfold Item.ofMention
  split
  · next level found =>
    intro part listed
    rcases List.mem_append.mp listed with scope | name
    · obtain ⟨outer, inside, rfl⟩ := List.mem_map.mp scope
      exact types.general_level proper found (by simpa using inside)
    · unfold LinkName.Item.ofName at name
      split at name
      · exact tame_ofArguments part name
      · cases name
  · simp

include types in
theorem tame_ofScope {symbol : Symbol} (stored : graph.symbol id = .ok symbol)
    (record : ∀ kind, symbol.sort ≠ .record kind) (enumeration : symbol.sort ≠ .enumeration) :
    ∀ part ∈ Item.ofScope graph id, Tame graph part := by
  unfold Item.ofScope
  split
  · next scope found =>
    intro part listed
    obtain ⟨outer, inside, rfl⟩ := List.mem_map.mp listed
    obtain rfl : scope = some outer := by simpa using inside
    exact types.general_scope stored found record enumeration
  · simp

include types proper in
theorem tame_ofType {tree : TypeTree} {place : Place} (tame : Tame graph (.type tree place)) :
    ∀ part ∈ Item.ofType graph tree, Tame graph part := by
  obtain ⟨mutable, plain⟩ := tame
  cases tree with
  | basic | assocArray => simp [Item.ofType]
  | layer around inner quals => exact List.forall_mem_singleton.mpr ⟨mutable, plain⟩
  | named naming symbol quals => exact tame_ofMention proper types
  | function result params convention quals =>
      obtain ⟨mutableResult, mutableParams⟩ := TypeTree.hasConstClass_function.mp mutable
      refine List.forall_mem_cons.mpr ⟨⟨?_, fun clean symbol named => ?_⟩, ?_⟩
      · rwa [TypeTree.hasConstClass_returned]
      · rw [TypeTree.symbols_returned] at named
        exact plain clean symbol (TypeTree.mem_symbols_function.mpr (.inl named))
      · refine tame_ofParameters fun param listed => ⟨?_, fun clean symbol named => ?_⟩
        · exact mutableParams param listed
        · exact plain clean symbol (TypeTree.mem_symbols_function.mpr (.inr ⟨param, listed, named⟩))

include formed proper types classes

theorem argument_restores {owner : SymbolId} {arg : TemplateArg} (held : graph.HoldsArg arg)
    (parts : ∀ part ∈ Item.parts graph (.argument owner arg), Tame graph part →
      InPlace order machine part) :
    Restores order machine (.alone :: rest) (.alone :: rest)
      (argument graph machine (settled order machine) owner arg) := by
  cases arg with
  | type type =>
      exact parts _ List.mem_cons_self (tame_tree formed classes (held _ rfl) .nested) rest
  | value type number =>
      simp only [argument]
      cases integral : (graph.tree type).integral? with
      | none => exact .refuse _
      | some basic =>
          have written : Restores order machine (.alone :: .alone :: rest) (.alone :: rest)
              (.write (literal basic number ++ [.text "E"])) := by
            unfold literal
            dsimp only
            split <;> exact .write (by simp [Plain]) rfl
          exact .append (.write (by simp [Plain]) rfl) (.append
            (parts _ List.mem_cons_self (tame_tree formed classes (held _ rfl) .nested) _) written)
  | typeAlias type | pack args => exact .refuse _
  | symbolAlias target =>
      have declared : ∀ part ∈ Item.ofDeclaration graph target, Tame graph part →
          InPlace order machine part :=
        fun part listed => parts part (List.mem_append_left _ listed)
      refine .ofExcept fun symbol stored => ?_
      have scopes (record : ∀ kind, symbol.sort ≠ .record kind)
          (enumeration : symbol.sort ≠ .enumeration) :
          ∀ part ∈ Item.ofScope graph target, InPlace order machine part :=
        fun part listed => declared part (List.mem_append_left _ (List.mem_append_left _ listed))
          (tame_ofScope types stored record enumeration part listed)
      cases sort : symbol.sort with
      | function info =>
          refine functionArgument_restores stored sort (scopes (by simp [sort]) (by simp [sort])) ?_
          exact fun part listed => declared part (List.mem_append_right _ listed)
            (tame_ofSignature formed classes part listed)
      | var info =>
          have restored : Restores order machine (.alone :: .alone :: rest) (.alone :: .alone :: rest)
              (variableName graph machine (settled order machine) true target symbol info) := by
            obtain ⟨after, same, restores⟩ := variableName_restores stored true sort
              (scopes (by simp [sort]) (by simp [sort]))
            exact same rfl ▸ restores
          exact .append (.write (by simp [Plain]) rfl)
            (.append restored (.write (by simp [Plain]) rfl))
      | template member =>
          cases member with
          | none => exact .refuse _
          | some member =>
              have general : graph.General target := fun other known =>
                Except.ok.inj (stored.symm.trans known) ▸ by simp [Symbol.template?, sort]
              refine mention_restores formed proper (held _ rfl) (fun _ => general.unwrapped) ?_
              exact fun part listed => parts part (List.mem_append_right _ listed)
                (tame_ofMention proper types part listed)
      | _ => exact .refuse _

/-- Every item is restored where it stands. -/
theorem settled_inPlace {item : Item} (held : item.Held graph) (tame : Tame graph item) :
    InPlace order machine item := by
  refine LinkName.Item.induction (Item.descends formed) order (motive := fun item =>
    Tame graph item → InPlace order machine item) ?_ held tame
  intro item held parts tame rest
  rw [settled_eq formed order held]
  cases item with
  | scope id =>
      exact scopeName_restores formed proper held tame fun part listed =>
        parts part listed (tame_ofMention proper types part listed)
  | argument owner arg => exact argument_restores formed proper types classes held.2 parts
  | type tree place =>
      refine type_restores formed proper place held tame.1 tame.2 fun part listed => ?_
      exact parts part listed (tame_ofType proper types tame part listed)

theorem declaration_restores (id : SymbolId) :
    ∃ after, Restores order machine [.alone] after
      (declaration graph machine (settled order machine) id) := by
  have ready : ∀ part ∈ Item.ofDeclaration graph id, Tame graph part → InPlace order machine part :=
    fun part listed => settled_inPlace formed proper types classes
      (Item.below_ofDeclaration formed order id part listed).1
  unfold declaration
  cases stored : graph.symbol id with
  | error fault => exact ⟨[], .refuse _⟩
  | ok symbol =>
      have scopes (record : ∀ kind, symbol.sort ≠ .record kind)
          (enumeration : symbol.sort ≠ .enumeration) :
          ∀ part ∈ Item.ofScope graph id, InPlace order machine part :=
        fun part listed => ready part (List.mem_append_left _ (List.mem_append_left _ listed))
          (tame_ofScope types stored record enumeration part listed)
      simp only [Script.ofExcept]
      cases sort : symbol.sort with
      | function info =>
          refine ⟨_, functionName_restores stored sort (scopes (by simp [sort]) (by simp [sort])) ?_⟩
          exact fun part listed => ready part (List.mem_append_right _ listed)
            (tame_ofSignature formed classes part listed)
      | var info =>
          obtain ⟨after, -, restores⟩ := variableName_restores stored false sort
            (scopes (by simp [sort]) (by simp [sort]))
          exact ⟨after, restores⟩
      | _ => exact ⟨[], .refuse _⟩

end

/-! ## What is too much -/

/-- A source name has characters. -/
theorem write_sourceName_pos {plan : Plan} {tokens : List Token}
    (whole : (plan.sourceName graph id).full = .ok tokens) : 0 < (Token.write tokens).length := by
  have source (ident : String) : 0 < (Token.write [.source ident]).length := by
    have digits := List.length_pos_iff.mpr (Numeral.digits_ne_nil 10 ident.utf8ByteSize)
    simp only [Token.write, Token.chars, sourceChars, Numeral.decimal, List.flatMap_cons,
      List.flatMap_nil, List.append_nil, List.length_append, List.length_map]
    omega
  unfold sourceName at whole
  cases stored : graph.symbol id with
  | error fault => simp [stored, Script.ofExcept, Script.full] at whole
  | ok symbol =>
      rcases symbol with ⟨ident, parent, access, sort⟩
      simp only [stored, Script.ofExcept] at whole
      cases sort with
      | specialization template args =>
          obtain ⟨general, listing, begun, -, rfl⟩ := Script.full_append whole
          cases begun
          rw [Token.write_append, List.length_append]
          exact Nat.add_pos_left (source ident) _
      | _ =>
          cases whole
          exact source ident

theorem write_levelName_pos {plan : Plan} {level : Level} {tokens : List Token}
    (whole : (plan.levelName graph level).full = .ok tokens) : 0 < (Token.write tokens).length := by
  unfold levelName at whole
  split at whole
  · obtain ⟨outside, name, -, named, rfl⟩ := Script.full_append whole
    rw [Token.write_append, List.length_append]
    exact Nat.add_pos_right _ (write_sourceName_pos named)
  · exact write_sourceName_pos whole

end Plan

namespace Key

open Plan (settled)

variable (formed : graph.WellFormed) (order : graph.Order) (machine : Target)
include formed

/-- Away from what repeats a scope, a slot is short for the same thing either way. -/
theorem spell_eq_resume {key : Key} {bound : Nat} (below : key.Below order bound)
    {standing : Standing} (clear : (standing == .following && key.isEnclosed graph) = false) :
    key.spell order machine standing = key.resume order machine standing := by
  cases standing with
  | alone | leading => rfl
  | following =>
      cases key with
      | type tree | unnamed => rfl
      | symbol id =>
          obtain ⟨level, found⟩ := formed.level_eq_ok below.1
          obtain scope : level.scope = none := by simpa [isEnclosed, found, Except.toOption] using clear
          have whole : (settled order machine (.scope id)).full =
              (Plan.levelName graph (settled order machine) level).full :=
            Plan.full_scope order formed below.1 found
          simp only [Plan.levelName, scope] at whole
          simp only [spell, resume, found, Script.ofExcept, Script.inFull, whole]

/-- A scope that is repeated makes a name longer. -/
theorem length_resume_lt {key : Key} {bound : Nat} (below : key.Below order bound)
    (good : Plan.Good order machine key) (enclosed : key.isEnclosed graph = true) :
    (Token.write (key.resume order machine .following)).length <
      (Token.write (key.spell order machine .following)).length := by
  cases key with
  | type tree | unnamed => cases enclosed
  | symbol id =>
      obtain ⟨level, found⟩ := formed.level_eq_ok below.1
      obtain ⟨outer, scope⟩ : ∃ outer, level.scope = some outer := by
        simpa [isEnclosed, found, Except.toOption, Option.isSome_iff_exists] using enclosed
      obtain ⟨full, whole⟩ := good
      have leveled := (Plan.full_scope order formed below.1 found).symm.trans whole
      simp only [Plan.levelName, scope] at leveled
      obtain ⟨outside, name, around, named, rfl⟩ := Script.full_append leveled
      have enclosing : (settled order machine (.scope outer)).full = .ok outside := by
        unfold Plan.enclosing at around
        split at around <;> exact around
      have held := formed.closed _ _ ((Graph.isLevel_of_level found).mentions_scope scope)
      obtain ⟨further, found'⟩ := formed.level_eq_ok held
      have positive := Plan.write_levelName_pos
        ((Plan.full_scope order formed held found').symm.trans enclosing)
      simp only [spell, resume, found, Script.ofExcept, Script.inFull_of_full whole,
        Script.inFull_of_full named, Token.write_append, List.length_append]
      omega

end Key

namespace Plan

variable {machine : Target} {order : graph.Order}

/-- With its back references spelled out, a name comes to its full text exactly where it repeats no
scope. -/
theorem declaration_transparent (formed : graph.WellFormed) (proper : graph.ProperTemplates)
    (types : graph.SpecializationsHoldTypes) (classes : graph.ClassesMutable) {id : SymbolId}
    {tokens : List Token} {last : Table Key}
    (ran : (declaration graph machine (settled order machine) id).run Table.unbounded =
      .ok (tokens, last)) :
    ∃ full, (declaration graph machine (settled order machine) id).full = .ok full ∧
      (Token.write (expand (fun standing => atSlot last.entries (Key.spell order machine standing))
          [.alone] tokens) = Token.write full ↔
        repeatsScope (atSlot last.entries (Key.isEnclosed graph)) [.alone] tokens = false) ∧
      (graph.NamesMembers →
        repeatsScope (atSlot last.entries (Key.isEnclosed graph)) [.alone] tokens = false) := by
  have steady := declaration_steady machine formed proper order id Table.unbounded
    fun _ listed => absurd listed List.not_mem_nil
  rw [ran] at steady
  cases whole : (declaration graph machine (settled order machine) id).full with
  | error refusal =>
      rw [whole] at steady
      cases steady
  | ok full =>
      rw [whole] at steady
      obtain kept : ∀ key ∈ last.entries, key ∈ [] ∨ Good order machine key := by
        cases steady with
        | written kept => exact kept
      obtain ⟨after, restores⟩ : ∃ after, Restores order machine [.alone] after
          (declaration graph machine (settled order machine) id) :=
        declaration_restores formed proper types classes id
      have restored := restores _ _ _ _ ran whole last.entries List.prefix_rfl
      have below : ∀ key ∈ last.entries, key.Below order (8 * order.rank (.symbol id)) := by
        intro key listed
        have stored := (Script.mem_of_run _ ran listed).resolve_left List.not_mem_nil
        exact declaration_within formed order id key stored
      have good : ∀ key ∈ last.entries, Good order machine key := fun key listed =>
        (kept key listed).resolve_left List.not_mem_nil
      refine ⟨full, rfl, ?_, restored.clear⟩
      rw [← restored.expanded]
      refine write_expand_eq_iff (fun standing slot clear => ?_) (fun slot marked => ?_) _ _
      · cases found : last.entries[slot]? with
        | none => simp [atSlot, found]
        | some key =>
            rw [atSlot_of_getElem? found] at clear ⊢
            rw [atSlot_of_getElem? found]
            exact Key.spell_eq_resume formed order machine (below key (List.mem_of_getElem? found)) clear
      · cases found : last.entries[slot]? with
        | none => simp [atSlot, found] at marked
        | some key =>
            have listed := List.mem_of_getElem? found
            rw [atSlot_of_getElem? found] at marked
            rw [atSlot_of_getElem? found, atSlot_of_getElem? found]
            exact Key.length_resume_lt formed order machine (below key listed) (good key listed) marked

end Plan

end LinkName.Itanium
