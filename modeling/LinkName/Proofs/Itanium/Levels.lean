import LinkName.Proofs.Graph.Levels
import LinkName.Proofs.Itanium.Instances

/-!
The levels that an Itanium name writes. The scopes of a symbol are written outermost first and then
the symbol, each of them in full: nothing that a scope contains is known while it is written, so that
references stand in arguments and parameters only.
-/
namespace LinkName.Itanium

/-- How a level is written; what is written for the arguments of a specialization depends on what is
known by then. -/
inductive SpellsLevel (graph : Graph) (machine : Target) : SymbolId → List Token → Prop
  | plain {id : SymbolId} {symbol : Symbol} (stored : graph.symbol id = .ok symbol)
      (plain : symbol.template? = none) : SpellsLevel graph machine id [.source symbol.ident]
  | special {id template : SymbolId} {symbol : Symbol} {args : List TemplateArg} {depth : Nat}
      {written : List Token} {before after : Table Key} (stored : graph.symbol id = .ok symbol)
      (sort : symbol.sort = .specialization template args)
      (listed : ((Plan.within graph machine depth).arguments graph id args).run before =
        .ok (written, after)) :
      SpellsLevel graph machine id (.source symbol.ident :: .text "I" :: written ++ [.text "E"])
  | destructor {id : SymbolId} {symbol : Symbol} {info : FunctionInfo}
      (stored : graph.symbol id = .ok symbol) (sort : symbol.sort = .function info)
      (role : info.role = .destructor) : SpellsLevel graph machine id [.text "D1"]

/-- A name that writes the levels one after the other, where there are several between `N` and `E`. -/
inductive SpellsName (graph : Graph) (machine : Target) : List SymbolId → String → Prop
  | single {id : SymbolId} {spelled : List Token} (spells : SpellsLevel graph machine id spelled)
      (rest : List Token) :
      SpellsName graph machine [id] (String.ofList (Token.write (.text machine.lead :: spelled ++ rest)))
  | nested {ids : List SymbolId} {spelled : List (List Token)}
      (spells : List.Forall₂ (SpellsLevel graph machine) ids spelled) (isConst : Bool)
      (rest : List Token) :
      SpellsName graph machine ids (String.ofList (Token.write
        (.text machine.lead :: .text "N" :: Plan.constMark isConst ++ spelled.flatten ++
          .text "E" :: rest)))

variable {graph : Graph} {machine : Target} {id : SymbolId} {depth : Nat}
variable {table last : Table Key} {tokens : List Token}

namespace Plan

/-- A template that is not known is not referred back to. -/
theorem sourceName_spells
    (unknown : ∀ symbol template, graph.symbol id = .ok symbol → symbol.template? = some template →
      .symbol template ∉ table.entries)
    (ran : ((within graph machine depth).sourceName graph id).run table = .ok (tokens, last)) :
    SpellsLevel graph machine id tokens := by
  cases stored : graph.symbol id with
  | error fault =>
      simp only [sourceName, stored, Script.ofExcept] at ran
      cases ran
  | ok symbol =>
      simp only [sourceName, stored, Script.ofExcept] at ran
      rcases symbol with ⟨ident, parent, access, sort⟩
      cases sort with
      | specialization template args =>
          obtain ⟨_, middle, more, begun, ended, rfl⟩ := Script.run_append ran
          rcases Script.run_orRef begun with ⟨slot, found, -⟩ | ⟨-, written⟩
          · exact absurd (List.mem_of_getElem? (Table.getElem?_of_find? found))
              (unknown _ template stored rfl)
          · cases written
            obtain ⟨_, listed, rfl⟩ := Script.run_write_append ended
            obtain ⟨_, _, _, inside, closed, rfl⟩ := Script.run_append listed
            cases closed
            exact .special stored rfl inside
      | _ =>
          cases ran
          exact .plain stored rfl

/-- Every symbol that the table knows comes after the given one, or is it. -/
def KnowsInner (order : graph.Order) (id : SymbolId) (table : Table Key) : Prop :=
  ∀ symbol, .symbol symbol ∈ table.entries → order.rank (.symbol id) ≤ order.rank (.symbol symbol)

section

variable {order : graph.Order} {level : Level}

/-- What a level mentions comes before it. -/
theorem KnowsInner.not_mem (knows : KnowsInner order id table) (isLevel : graph.IsLevel id level)
    {mention : SymbolId} (mentioned : graph.Mentions (.symbol level.name) (.symbol mention)) :
    .symbol mention ∉ table.entries := by
  intro listed
  have lower := (order.descends _ _ mentioned).trans_le (isLevel.rank_name_le order)
  exact absurd (knows mention listed) (not_le.mpr lower)

/-- A template is declared in the scope of its specializations. -/
theorem mentions_of_copies (copies : graph.CopiesTemplates) {symbol : Symbol}
    {template scope : SymbolId} (stored : graph.symbol id = .ok symbol)
    (special : symbol.template? = some template) (around : graph.scopeParent id = .ok (some scope)) :
    graph.Mentions (.symbol template) (.symbol scope) := by
  obtain ⟨general, known, -, parent⟩ := copies id symbol template stored special
  exact Graph.mentions_scopeParent ((Graph.scopeParent_congr stored known parent).trans around)

/-- A level is written in full behind the scopes around it. -/
theorem levelName_spells (formed : graph.WellFormed) (copies : graph.CopiesTemplates)
    {names : List SymbolId} (isLevel : graph.IsLevel id level)
    (knows : KnowsInner order id table) (top : level.scope = none → names = [])
    (outer : ∀ scope, level.scope = some scope → ∀ tokens last,
      (within graph machine depth (.scope scope)).run table = .ok (tokens, last) →
        ∃ spelled, List.Forall₂ (SpellsLevel graph machine) names.reverse spelled ∧
          tokens = spelled.flatten)
    (ran : ((within graph machine depth).levelName graph level).run table = .ok (tokens, last)) :
    ∃ spelled, List.Forall₂ (SpellsLevel graph machine) (level.name :: names).reverse spelled ∧
      tokens = spelled.flatten := by
  unfold levelName at ran
  cases around : level.scope with
  | none =>
      simp only [around] at ran
      obtain rfl := top around
      have own := sourceName_spells (fun symbol template stored special =>
        knows.not_mem isLevel (Graph.mentions_template stored special)) ran
      exact ⟨[tokens], .cons own .nil, by simp⟩
  | some scope =>
      simp only [around] at ran
      obtain ⟨before, middle, after, begun, ended, rfl⟩ := Script.run_append ran
      have entered : (within graph machine depth (.scope scope)).run table = .ok (before, middle) := by
        unfold enclosing at begun
        cases general : level.template with
        | none => simpa only [general] using begun
        | some template =>
            simp only [general] at begun
            rcases Script.run_unlessKnown begun with ⟨listed, -⟩ | ⟨-, entered⟩
            · exact absurd listed (knows.not_mem isLevel (isLevel.mentions_template general))
            · exact entered
      obtain ⟨spelled, spells, rfl⟩ := outer scope around before middle entered
      have own : SpellsLevel graph machine level.name after := by
        refine sourceName_spells (fun symbol template stored special listed => ?_) ended
        rcases Script.mem_of_run _ entered listed with sooner | asked
        · exact knows.not_mem isLevel (Graph.mentions_template stored special) sooner
        · have heldScope := formed.closed _ _ (isLevel.mentions_scope around)
          obtain ⟨-, below⟩ := within_within formed order depth
            (show (LinkName.Item.scope scope : Item).Held graph from heldScope) _ asked
          have above := order.descends _ _
            (mentions_of_copies copies stored special (around ▸ isLevel.scope))
          rw [LinkName.Item.need_scope] at below
          omega
      refine ⟨spelled ++ [after], ?_, by simp⟩
      rw [List.reverse_cons]
      exact List.rel_append spells (.cons own .nil)

/-- A scope is written in full, with all that encloses it. -/
theorem scope_spells (formed : graph.WellFormed) (order : graph.Order) (copies : graph.CopiesTemplates)
    {names : List SymbolId} {scope : SymbolId} (held : graph.Holds (.symbol scope))
    (scopes : graph.Scopes (some scope) names) (depth : Nat)
    (inside : ∀ symbol, .symbol symbol ∈ table.entries →
      order.rank (.symbol scope) < order.rank (.symbol symbol))
    (ran : (within graph machine depth (.scope scope)).run table = .ok (tokens, last)) :
    ∃ spelled, List.Forall₂ (SpellsLevel graph machine) names.reverse spelled ∧
      tokens = spelled.flatten := by
  generalize same : some scope = start at scopes
  induction scopes generalizing scope depth table tokens last with
  | outermost => cases same
  | @inner scope level names found outer ih =>
      cases same
      cases depth with
      | zero => cases ran
      | succ depth =>
          have isLevel := Graph.isLevel_of_level found
          -- The scope takes its slot before anything around it is written.
          have written : ((within graph machine depth).levelName graph level).run
              (table.push (.symbol scope)).2 = .ok (tokens, last) := by
            rcases Script.run_orRef ran with ⟨slot, known, -⟩ | ⟨-, written⟩
            · exact absurd (inside scope (List.mem_of_getElem? (Table.getElem?_of_find? known)))
                (lt_irrefl _)
            · have stored : (Script.ofExcept (graph.level scope)
                  ((within graph machine depth).levelName graph)).run (table.push (.symbol scope)).2 =
                    .ok (tokens, last) := written
              simpa only [found, Script.ofExcept] using stored
          have knows : KnowsInner order scope (table.push (.symbol scope)).2 := by
            intro symbol listed
            rcases Table.mem_push listed with sooner | same
            · exact (inside symbol sooner).le
            · cases same
              exact le_rfl
          refine levelName_spells formed copies isLevel knows (fun none => ?_) ?_ written
          · rw [none] at outer
            cases outer
            rfl
          · intro further around tokens' last' ran'
            have mentioned := isLevel.mentions_scope around
            have lower := (order.descends _ _ mentioned).trans_le (isLevel.rank_name_le order)
            exact ih (formed.closed _ _ mentioned) depth
              (fun symbol listed => lower.trans_le (knows symbol listed)) ran' around.symm

/-- Where nothing is known yet, a symbol is written in full behind its scopes. -/
theorem path_spells (formed : graph.WellFormed) (copies : graph.CopiesTemplates)
    {names : List SymbolId} {scope : SymbolId} (around : graph.scopeParent id = .ok (some scope))
    (scopes : graph.Scopes (some scope) names) (depth : Nat) {own : Script}
    (spells : ∀ table tokens last, own.run table = .ok (tokens, last) →
      SpellsLevel graph machine id tokens)
    (ran : (Script.append (within graph machine depth (.scope scope))
      (.append own (.write [.text "E"]))).run Table.unbounded = .ok (tokens, last)) :
    ∃ spelled, List.Forall₂ (SpellsLevel graph machine) (names.reverse ++ [id]) spelled ∧
      tokens = spelled.flatten ++ [.text "E"] := by
  obtain ⟨before, middle, _, begun, ended, rfl⟩ := Script.run_append ran
  obtain ⟨after, _, _, inner, closed, rfl⟩ := Script.run_append ended
  cases closed
  obtain ⟨spelled, outer, rfl⟩ := scope_spells formed formed.order copies
    (formed.closed _ _ (Graph.mentions_scopeParent around)) scopes depth
    (fun symbol listed => absurd listed List.not_mem_nil) begun
  exact ⟨spelled ++ [after], List.rel_append outer (.cons (spells _ _ _ inner) .nil), by simp⟩

end

/-- A function or a variable is no specialization, whose template might be known. -/
theorem sourceName_spells_plain {symbol : Symbol} (stored : graph.symbol id = .ok symbol)
    (plain : symbol.template? = none)
    (ran : ((within graph machine depth).sourceName graph id).run table = .ok (tokens, last)) :
    SpellsLevel graph machine id tokens := by
  refine sourceName_spells (fun found template known special => ?_) ran
  cases stored.symm.trans known
  cases plain.symm.trans special

theorem ownName_spells {symbol : Symbol} {info : FunctionInfo}
    (stored : graph.symbol id = .ok symbol) (sort : symbol.sort = .function info)
    (ran : ((within graph machine depth).ownName graph info id).run table = .ok (tokens, last)) :
    SpellsLevel graph machine id tokens := by
  unfold ownName at ran
  split at ran
  · next role =>
    cases ran
    exact .destructor stored sort role
  · exact sourceName_spells_plain stored (by rw [Symbol.template?, sort]) ran

end Plan

/-! ## Names -/

/-- The name of a function or a variable writes its scopes, outermost first, and then itself. -/
theorem nameFor_spells (built : graph.Built) {target : Target} {text : String}
    (qualified : graph.IsQualified id) (named : nameFor graph target id = .ok text)
    {scope : Option SymbolId} {names : List SymbolId} (around : graph.scopeParent id = .ok scope)
    (scopes : graph.Scopes scope names) :
    SpellsName graph target (names.reverse ++ [id]) text := by
  have formed := built.wellFormed
  obtain ⟨tokens, last, ran, rfl⟩ := run_of_nameFor formed named
  obtain ⟨symbol, stored, ⟨info, signature, quals, sort, typed, linkage⟩ |
    ⟨info, outer, sort, known⟩⟩ := qualified
  all_goals have plain : symbol.template? = none := by rw [Symbol.template?, sort]
  · simp only [nameScript, Plan.declaration, stored, Script.ofExcept, sort, Plan.functionName,
      formed.tree_eq typed, TypeNode.tree, Signature.convention, linkage, if_true,
      Plan.functionPath, around] at ran
    obtain ⟨_, written, rfl⟩ := Script.run_write_append ran
    obtain ⟨path, middle, params, begun, -, rfl⟩ := Script.run_append written
    cases scope with
    | none =>
        cases scopes
        have own := Plan.sourceName_spells_plain stored plain begun
        have whole : SpellsName graph target [id] _ := .single own params
        simpa using whole
    | some scope =>
        obtain ⟨_, inside, rfl⟩ := Script.run_write_append begun
        obtain ⟨spelled, spells, rfl⟩ := Plan.path_spells formed built.sound.copies around scopes _
          (fun _ _ _ => Plan.ownName_spells stored sort) inside
        have whole : SpellsName graph target _ _ := .nested spells info.isConst params
        simpa using whole
  · cases around.symm.trans known
    simp only [nameScript, Plan.declaration, stored, Script.ofExcept, sort, Plan.variableName,
      around] at ran
    split at ran
    · obtain ⟨_, inside, rfl⟩ := Script.run_write_append ran
      obtain ⟨spelled, spells, rfl⟩ := Plan.path_spells formed built.sound.copies around scopes _
        (fun _ _ _ => Plan.sourceName_spells_plain stored plain) inside
      have whole : SpellsName graph target _ _ := .nested spells false []
      simpa [Plan.constMark] using whole
    · cases ran

end LinkName.Itanium
