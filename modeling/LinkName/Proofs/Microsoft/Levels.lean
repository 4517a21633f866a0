import LinkName.Proofs.Graph.Levels
import LinkName.Proofs.Microsoft.Digits

/-!
The levels that a Microsoft name writes. They stand innermost first between the first character and an
end mark; a digit stands for a level whose text has a slot.
-/
namespace LinkName.Microsoft

/-- The text of a level, without an end mark. What is written for the arguments of a specialization
depends on what is recorded by then. -/
inductive LevelText (graph : Graph) (machine : Target) : SymbolId → List Token → Prop
  | plain {id : SymbolId} {symbol : Symbol} (stored : graph.symbol id = .ok symbol)
      (ordinary : symbol.IsOrdinary) : LevelText graph machine id [.ident symbol.ident]
  | special {id template : SymbolId} {symbol : Symbol} {args : List TemplateArg} {depth : Nat}
      {written : List Token} {before after : Record} (stored : graph.symbol id = .ok symbol)
      (sort : symbol.sort = .specialization template args)
      (listed : (Script.append ((Plan.within graph machine depth).repeatedScope machine symbol)
        ((Plan.within graph machine depth).arguments graph id args)).run before = .ok (written, after)) :
      LevelText graph machine id (.text "?$" :: .ident symbol.ident :: .text "@" :: written)

/-- How a level is written where the slots hold the given texts at the end. -/
inductive SpellsLevel (graph : Graph) (machine : Target) (slots : List (List Char)) :
    SymbolId → List Token → Prop
  | spelledOut {id : SymbolId} {text : List Token} (names : LevelText graph machine id text) :
      SpellsLevel graph machine slots id (text ++ [.text "@"])
  | reference {id : SymbolId} {text : List Token} {index : Nat} (names : LevelText graph machine id text)
      (stands : slots[index]? = some (Token.write text)) :
      SpellsLevel graph machine slots id [.nameRef index]
  | destructor {id : SymbolId} {symbol : Symbol} {info : FunctionInfo}
      (stored : graph.symbol id = .ok symbol) (sort : symbol.sort = .function info)
      (role : info.role = .destructor) : SpellsLevel graph machine slots id [.text "?1"]

/-- The name that is written for a symbol has the given levels. -/
def SpellsName (graph : Graph) (target : Target) (id : SymbolId) (ids : List SymbolId)
    (text : String) : Prop :=
  ∃ tokens session spelled rest,
    (encode target id : Encoder graph (List Token)).run
      { tables := Tables.bounded 10 } = .ok tokens session ∧
    text = String.ofList (Token.write tokens) ∧
    List.Forall₂ (SpellsLevel graph target session.tables.names.entries) ids spelled ∧
    tokens = .text "?" :: spelled.flatten ++ .text "@" :: rest

variable {graph : Graph} {machine : Target} {depth : Nat} {id : SymbolId} {slots more : List (List Char)}
variable {record last : Record} {tokens : List Token}

theorem SpellsLevel.mono (spells : SpellsLevel graph machine slots id tokens) (grown : slots <+: more) :
    SpellsLevel graph machine more id tokens := by
  cases spells with
  | spelledOut names => exact .spelledOut names
  | reference names stands =>
      obtain ⟨rest, rfl⟩ := grown
      refine .reference names ?_
      rwa [List.getElem?_append_left (List.getElem?_eq_some_iff.mp stands).1]
  | destructor stored sort role => exact .destructor stored sort role

namespace Script

theorem run_write_append {written : List Token} {body : Script}
    (ran : (append (.write written) body).run record = .ok (tokens, last)) :
    ∃ rest, body.run record = .ok (rest, last) ∧ tokens = written ++ rest := by
  obtain ⟨_, _, rest, begun, ended, whole⟩ := run_append ran
  cases begun
  exact ⟨rest, ended, whole⟩

/-- A level with a table is spelled out or referred back to. -/
theorem level_spells {body : Script}
    (names : ∀ inner middle, body.run record = .ok (inner, middle) → LevelText graph machine id inner)
    (ran : (level false body).run record = .ok (tokens, last)) :
    SpellsLevel graph machine last.names.entries id tokens := by
  obtain ⟨inner, middle, begun, ⟨index, -, found, rfl, rfl⟩ | ⟨-, rfl, -⟩⟩ := run_level ran
  · exact .reference (names _ _ begun) (Table.getElem?_of_find? found)
  · exact .spelledOut (names _ _ begun)

end Script

namespace Plan

theorem special_spells {symbol : Symbol} {template : SymbolId} {args : List TemplateArg}
    (stored : graph.symbol id = .ok symbol) (sort : symbol.sort = .specialization template args)
    (ran : (Script.append (.write [.text "?$", .ident symbol.ident, .text "@"])
      (.append ((within graph machine depth).repeatedScope machine symbol)
        ((within graph machine depth).arguments graph id args))).run record = .ok (tokens, last)) :
    LevelText graph machine id tokens := by
  obtain ⟨rest, listed, rfl⟩ := Script.run_write_append ran
  exact .special stored sort listed

theorem levelName_spells
    (ran : ((within graph machine depth).levelName graph machine false id).run record =
      .ok (tokens, last)) :
    SpellsLevel graph machine last.names.entries id tokens := by
  cases stored : graph.symbol id with
  | error fault =>
      simp only [levelName, stored, Script.ofExcept] at ran
      cases ran
  | ok symbol =>
      simp only [levelName, stored, Script.ofExcept] at ran
      have plain (ordinary : symbol.IsOrdinary)
          (ran : (Script.level false (.write [.ident symbol.ident])).run record = .ok (tokens, last)) :
          SpellsLevel graph machine last.names.entries id tokens := by
        refine Script.level_spells (fun inner middle written => ?_) ran
        cases written
        exact .plain stored ordinary
      rcases symbol with ⟨ident, parent, access, sort⟩
      cases sort with
      | specialization template args =>
          cases legacy : machine.isLegacy with
          | false =>
              simp only [legacy, Bool.false_eq_true, if_false] at ran
              exact Script.level_spells (fun _ _ => special_spells stored rfl) ran
          | true =>
              simp only [legacy, if_true] at ran
              obtain ⟨inner, middle, _, begun, ended, rfl⟩ := Script.run_append ran
              cases ended
              exact .spelledOut (special_spells stored rfl begun)
      | function info =>
          rcases info with ⟨type, role⟩
          cases role with
          | destructor =>
              cases ran
              exact .destructor stored rfl rfl
          | _ => exact plain ⟨rfl, fun _ same => by cases same; simp⟩ ran
      | _ => exact plain ⟨rfl, fun _ same => by cases same⟩ ran

/-- Levels are written one after the other. -/
theorem levelNames_spells {ids : List SymbolId}
    (ran : (Script.concat
      (ids.map ((within graph machine depth).levelName graph machine false))).run record =
        .ok (tokens, last)) :
    ∃ spelled, List.Forall₂ (SpellsLevel graph machine last.names.entries) ids spelled ∧
      tokens = spelled.flatten := by
  induction ids generalizing record tokens with
  | nil =>
      cases ran
      exact ⟨[], .nil, rfl⟩
  | cons first rest ih =>
      obtain ⟨before, middle, after, begun, ended, rfl⟩ := Script.run_append ran
      obtain ⟨spelled, spells, rfl⟩ := ih ended
      have grown := (Script.run_grows _ ended).names.entries
      exact ⟨before :: spelled, .cons ((levelName_spells begun).mono grown) spells, rfl⟩

/-- A qualified name is its levels and an end mark. -/
theorem qualifiedName_spells {ids : List SymbolId} (found : graph.levels id = .ok ids)
    (ran : ((within graph machine depth).qualifiedName graph machine id).run record =
      .ok (tokens, last)) :
    ∃ spelled, List.Forall₂ (SpellsLevel graph machine last.names.entries) ids spelled ∧
      tokens = spelled.flatten ++ [.text "@"] := by
  obtain ⟨before, middle, _, begun, ended, rfl⟩ := Script.run_append ran
  cases ended
  simp only [levelNames, found, Script.ofExcept] at begun
  obtain ⟨spelled, spells, rfl⟩ := levelNames_spells begun
  exact ⟨spelled, spells, rfl⟩

end Plan

/-! ## Names -/

/-- A name begins with the levels of the symbol. -/
theorem nameFor_spells (built : graph.Built) {target : Target} {text : String}
    (named : nameFor graph target id = .ok text) {ids : List SymbolId}
    (found : graph.levels id = .ok ids) : SpellsName graph target id ids text := by
  obtain ⟨tokens, session, encoded, rfl⟩ := run_of_nameFor named
  obtain ⟨record, ran, same, -⟩ := run_of_encode built.wellFormed encoded
  obtain ⟨symbol, stored⟩ := Graph.holds_symbol_iff.mp (holds_of_encode encoded)
  have behind {rest : Script}
      (ran : (Script.append (.write [.text "?"]) (.append ((Plan.within graph target
        (Encoder.depthBound graph)).qualifiedName graph target id) rest)).run
          (Record.bounded 10) = .ok (tokens, record)) : SpellsName graph target id ids
          (String.ofList (Token.write tokens)) := by
    obtain ⟨_, written, rfl⟩ := Script.run_write_append ran
    obtain ⟨before, middle, after, begun, ended, rfl⟩ := Script.run_append written
    obtain ⟨spelled, spells, rfl⟩ := Plan.qualifiedName_spells found begun
    have grown := (Script.run_grows _ ended).names.entries
    refine ⟨_, session, spelled, after, encoded, rfl, ?_, by simp⟩
    rw [same]
    exact spells.imp fun _ _ level => level.mono grown
  simp only [Plan.declaration, stored, Script.ofExcept] at ran
  cases sort : symbol.sort with
  | function info =>
      simp only [sort, Plan.functionName] at ran
      exact behind ran
  | var info =>
      simp only [sort, Plan.variableName] at ran
      split at ran
      · exact behind ran
      · cases ran
  | _ =>
      simp only [sort] at ran
      cases ran

end LinkName.Microsoft
