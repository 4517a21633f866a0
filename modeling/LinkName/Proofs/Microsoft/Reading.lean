import LinkName.Microsoft.Name
import LinkName.Proofs.Graph.Levels
import LinkName.Proofs.Itanium.Token
import LinkName.Proofs.Simulation
import LinkName.Proofs.Table

/-!
Qualified names read back. A reader that sees nothing but the characters keeps a table of its own, and
from the names of any number of symbols it recovers the identifiers of every level of each.
-/
namespace LinkName

namespace Microsoft

/-! ## The reader -/

/-- The state of a reader: its table, the part of a level that has been read, the levels of the name
that is being read, and the names that are complete. -/
structure Reader where
  slots : List String := []
  fragment : List Char := []
  levels : List String := []
  names : List (List String) := []
  deriving DecidableEq, Repr

namespace Reader

/-- A level takes a slot if it is new and one of the ten is free. -/
def remember (slots : List String) (level : String) : List String :=
  if level ∈ slots ∨ 10 ≤ slots.length then slots else slots ++ [level]

/-- The end of a name. -/
def endName (reader : Reader) : Reader :=
  { reader with levels := [], names := reader.names ++ [reader.levels] }

/-- The end of a level that is spelled out. -/
def endLevel (reader : Reader) : Reader where
  slots := remember reader.slots (String.ofList reader.fragment)
  levels := reader.levels ++ [String.ofList reader.fragment]
  names := reader.names

/-- A level that is looked up. -/
def lookUp (reader : Reader) (index : Nat) : Option Reader :=
  reader.slots[index]?.map fun level => { reader with levels := reader.levels ++ [level] }

def step (reader : Reader) (char : Char) : Option Reader :=
  if reader.fragment.isEmpty then
    if char = '@' then some reader.endName
    else if char.isDigit then reader.lookUp (char.toNat - '0'.toNat)
    else some { reader with fragment := [char] }
  else if char = '@' then some reader.endLevel
  else some { reader with fragment := reader.fragment ++ [char] }

/-- The names in a text, if it ends with the end of one. -/
def read (text : List Char) : Option (List (List String)) := do
  let reader ← text.foldlM step {}
  if reader.fragment.isEmpty && reader.levels.isEmpty then some reader.names else none

/-- An identifier that is read up to the character behind it. -/
def Legible (ident : String) : Prop := Itanium.Readable ident ∧ '@' ∉ ident.toList

instance (ident : String) : Decidable (Legible ident) :=
  decidable_of_iff ((ident.toList.head?.any fun first => !first.isDigit) ∧ '@' ∉ ident.toList)
    (by simp [Legible, Itanium.Readable, Option.any_eq_true])

/-- The characters of a level that has begun are collected. -/
theorem foldlM_fragment {chars : List Char} (inside : '@' ∉ chars) (reader : Reader)
    (begun : reader.fragment ≠ []) :
    chars.foldlM step reader = some { reader with fragment := reader.fragment ++ chars } := by
  induction chars generalizing reader with
  | nil => simp
  | cons first rest ih =>
      obtain ⟨here, later⟩ := List.ne_and_not_mem_of_not_mem_cons inside
      have begun : reader.fragment.isEmpty = false := by simpa using begun
      have stepped : step reader first =
          some { reader with fragment := reader.fragment ++ [first] } := by
        simp [step, begun, here.symm]
      rw [List.foldlM_cons, stepped, Option.bind_eq_bind, Option.bind_some, ih later _ (by simp)]
      simp

/-- A level that is spelled out is read as a whole. -/
theorem foldlM_level {ident : String} (legible : Legible ident) (reader : Reader)
    (fresh : reader.fragment = []) :
    (ident.toList ++ ['@']).foldlM step reader =
      some { reader with
        slots := remember reader.slots ident, levels := reader.levels ++ [ident] } := by
  obtain ⟨⟨first, starts, letter⟩, inside⟩ := legible
  obtain ⟨rest, same⟩ : ∃ rest, ident.toList = first :: rest := by
    cases chars : ident.toList with
    | nil => simp [chars] at starts
    | cons head rest => exact ⟨rest, by simp_all⟩
  rw [same] at inside
  obtain ⟨here, later⟩ := List.ne_and_not_mem_of_not_mem_cons inside
  have begun : step reader first = some { reader with fragment := [first] } := by
    simp [step, fresh, here.symm, letter]
  have ended : String.ofList (first :: rest) = ident := by rw [← same, String.ofList_toList]
  rw [same, List.cons_append, List.foldlM_cons, begun, Option.bind_eq_bind, Option.bind_some,
    List.foldlM_append, foldlM_fragment later _ (by simp)]
  simp [step, endLevel, ended, fresh]

theorem step_digit {index : Nat} (small : index < 10) (reader : Reader)
    (fresh : reader.fragment = []) :
    step reader (Numeral.digitChar index) = reader.lookUp index := by
  have digit : ∀ index < 10, (Numeral.digitChar index).isDigit = true ∧
      Numeral.digitChar index ≠ '@' ∧ (Numeral.digitChar index).toNat - '0'.toNat = index := by
    decide
  obtain ⟨isDigit, other, value⟩ := digit index small
  simp only [step, fresh, List.isEmpty_nil, isDigit, other, value, if_true, if_false]

end Reader

/-! ## Reading what is written -/

variable {graph : Graph}

/-- There is room for ten names, of which at most as many are there. -/
def NamesBounded (session : Session graph Tables) : Prop :=
  session.tables.names.limit = some 10 ∧ session.tables.names.entries.length ≤ 10

theorem NamesBounded.isFull_iff {session : Session graph Tables} (bounded : NamesBounded session) :
    session.tables.names.isFull = true ↔ 10 ≤ session.tables.names.entries.length := by
  rw [Table.isFull, bounded.1]
  exact decide_eq_true_iff

/-- A reader that has the table of the session and is not inside a level. -/
def Reader.mirror (session : Session graph Tables) (levels : List String)
    (names : List (List String)) : Reader where
  slots := session.tables.names.entries.map String.ofList
  levels := levels
  names := names

/-- The session with one more name in its table, if there is room. -/
def withName (session : Session graph Tables) (key : List Char) : Session graph Tables :=
  { session with tables := { session.tables with names := (session.tables.names.push key).2 } }

theorem NamesBounded.withName {session : Session graph Tables} (bounded : NamesBounded session)
    (key : List Char) : NamesBounded (withName session key) := by
  refine ⟨(Table.limit_push _ key).trans bounded.1, ?_⟩
  simp only [Microsoft.withName, Table.entries_push, bounded.isFull_iff]
  split
  · exact bounded.2
  · next room =>
      have room : session.tables.names.entries.length < 10 := Nat.not_le.mp room
      rw [List.length_append, List.length_singleton]
      exact room

/-- A level is looked up among the recorded ones; a new one is recorded and spelled out. -/
theorem run_orNameRef (level : List Token) (session : Session graph Tables) :
    (orNameRef false level : Encoder graph (List Token)).run session =
      match session.tables.names.find? (Token.write level) with
      | some index => .ok [.nameRef index] session
      | none => .ok (level ++ [.text "@"]) (withName session (Token.write level)) := by
  have asked : (findOrInsertName (Token.write level) : Encoder graph (Option Nat)) session =
      .ok (session.tables.names.findOrInsert (Token.write level)).1
        { session with tables :=
          { session.tables with
            names := (session.tables.names.findOrInsert (Token.write level)).2 } } := rfl
  simp only [orNameRef, Bool.false_eq_true, if_false, EStateM.run, bind, EStateM.bind, asked,
    Table.findOrInsert]
  cases session.tables.names.find? (Token.write level) <;> rfl

/-- The reader's table takes up what the session's does. -/
theorem Reader.remember_mirror {session : Session graph Tables} (bounded : NamesBounded session)
    {ident : String} (fresh : ident.toList ∉ session.tables.names.entries) :
    Reader.remember (session.tables.names.entries.map String.ofList) ident =
      (withName session ident.toList).tables.names.entries.map String.ofList := by
  have unknown : ident ∉ session.tables.names.entries.map String.ofList := by
    intro listed
    obtain ⟨key, known, rfl⟩ := List.mem_map.mp listed
    exact fresh (by rwa [String.toList_ofList])
  simp only [Reader.remember, unknown, false_or, List.length_map, withName, Table.entries_push,
    bounded.isFull_iff]
  split
  · rfl
  · rw [List.map_append, List.map_singleton, String.ofList_toList]

/-- Wherever this is written, a reader with the table of the session gets through it, and it has the
table of the new session afterwards. The levels and names that it has read change as given. -/
def Reads (write : Encoder graph (List Token)) (levels : List String) (names : List (List String))
    (levels' : List String) (names' : List (List String)) : Prop :=
  ∀ session, NamesBounded session → ∃ tokens session', write.run session = .ok tokens session' ∧
    NamesBounded session' ∧ (Token.write tokens).foldlM Reader.step
      (Reader.mirror session levels names) = some (Reader.mirror session' levels' names')

namespace Reads

variable {levels levels' levels'' : List String} {names names' names'' : List (List String)}
variable {write write' : Encoder graph (List Token)}

theorem nothing : Reads (pure [] : Encoder graph (List Token)) levels names levels names :=
  fun session bounded => ⟨[], session, rfl, bounded, rfl⟩

/-- What is written one after the other is read one after the other. -/
theorem append (reads : Reads write levels names levels' names')
    (then_ : Reads write' levels' names' levels'' names'') :
    Reads (do return (← write) ++ (← write')) levels names levels'' names'' := by
  intro session bounded
  obtain ⟨tokens, between, ran, bounded, got⟩ := reads session bounded
  obtain ⟨more, last, ran', bounded, got'⟩ := then_ between bounded
  refine ⟨tokens ++ more, last, ?_, bounded, ?_⟩
  · simp only [EStateM.run] at ran ran'
    simp only [EStateM.run, bind, EStateM.bind, ran, ran', pure, EStateM.pure]
  · rw [Token.write_append, List.foldlM_append, got]
    exact got'

open Reader (Legible)

theorem endMark (levels : List String) (names : List (List String)) :
    Reads (pure [.text "@"] : Encoder graph (List Token)) levels names [] (names ++ [levels]) :=
  fun session bounded => ⟨_, session, rfl, bounded, rfl⟩

/-- A level is read whether it is spelled out or referred back to. -/
theorem level {ident : String} (legible : Legible ident) (levels : List String)
    (names : List (List String)) :
    Reads (orNameRef false [.ident ident] : Encoder graph (List Token)) levels names
      (levels ++ [ident]) names := by
  intro session bounded
  have key : Token.write [.ident ident] = ident.toList := by simp [Token.write, Token.chars]
  have ran := run_orNameRef [.ident ident] session
  rw [key] at ran
  cases found : session.tables.names.find? ident.toList with
  | some index =>
      have stands := Table.getElem?_of_find? found
      have inside : index < 10 :=
        (List.getElem?_eq_some_iff.mp stands).1.trans_le bounded.2
      have known : (session.tables.names.entries.map String.ofList)[index]? = some ident := by
        rw [List.getElem?_map, stands, Option.map_some, String.ofList_toList]
      have written : Token.write [.nameRef index] = [Numeral.digitChar index] := rfl
      rw [found] at ran
      refine ⟨_, _, ran, bounded, ?_⟩
      rw [written, List.foldlM_cons, Reader.step_digit inside _ rfl]
      simp [Reader.lookUp, Reader.mirror, known]
  | none =>
      have written : Token.write [.ident ident, .text "@"] = ident.toList ++ ['@'] := by
        simp [Token.write, Token.chars]
      rw [found] at ran
      refine ⟨_, _, ran, bounded.withName _, ?_⟩
      rw [List.singleton_append, written, Reader.foldlM_level legible _ rfl]
      simp only [Reader.mirror,
        Reader.remember_mirror bounded (Table.find?_eq_none_iff.mp found)]

end Reads

theorem levelName_ordinary {machine : Target} {parts : Encoding graph} {name : SymbolId}
    {symbol : Symbol} (stored : graph.symbol name = .ok symbol) (ordinary : symbol.IsOrdinary)
    (spelledOut : Bool) :
    levelName machine parts spelledOut name = orNameRef spelledOut [.ident symbol.ident] := by
  obtain ⟨plain, other⟩ := ordinary
  simp only [levelName, Encoder.symbol_eq_pure stored, pure_bind]
  rcases symbol with ⟨ident, parent, access, sort⟩
  cases sort with
  | specialization template args => cases plain
  | function info =>
      rcases info with ⟨type, role⟩
      cases role with
      | destructor => exact absurd rfl (other _ rfl)
      | _ => rfl
  | _ => rfl

/-! ## Names -/

section

open Reader (Legible)

variable {machine : Target} {parts : Encoding graph}

theorem reads_levelNames {ids : List SymbolId} {chain : List Symbol}
    (stored : List.Forall₂ (fun id symbol => graph.symbol id = .ok symbol ∧ symbol.IsOrdinary) ids
      chain) (legible : ∀ symbol ∈ chain, Legible symbol.ident) (levels : List String)
    (names : List (List String)) :
    Reads (Encoder.concat (levelName machine parts false) ids) levels names
      (levels ++ chain.map Symbol.ident) names := by
  induction stored generalizing levels with
  | nil => simpa using .nothing
  | @cons id symbol ids chain first rest ih =>
      obtain ⟨here, others⟩ := List.forall_mem_cons.mp legible
      have own :
          Reads (levelName machine parts false id) levels names (levels ++ [symbol.ident]) names := by
        rw [levelName_ordinary first.1 first.2]
        exact .level here levels names
      have whole := own.append (ih others (levels ++ [symbol.ident]))
      rwa [List.append_assoc] at whole

/-- A qualified name is read as the identifiers of its chain. -/
theorem reads_qualifiedName {id : SymbolId} {ids : List SymbolId} {chain : List Symbol}
    (found : graph.levels id = .ok ids)
    (stored : List.Forall₂ (fun id symbol => graph.symbol id = .ok symbol ∧ symbol.IsOrdinary) ids
      chain) (legible : ∀ symbol ∈ chain, Legible symbol.ident) (names : List (List String)) :
    Reads (qualifiedName machine parts id) [] names [] (names ++ [chain.map Symbol.ident]) := by
  have levels : Reads (levelNames machine parts false id) [] names (chain.map Symbol.ident) names := by
    have written : levelNames machine parts false id =
        Encoder.concat (levelName machine parts false) ids := by
      rw [levelNames, found]
      rfl
    rw [written]
    simpa using reads_levelNames stored legible [] names
  exact levels.append (.endMark _ names)

/-- Names are read one after the other. -/
theorem reads_qualifiedNames (formed : graph.WellFormed) (machine : Target) (parts : Encoding graph)
    {ids : List SymbolId} (held : ∀ id ∈ ids, graph.Holds (.symbol id))
    (ordinary : ∀ id ∈ ids, graph.OrdinaryUpwards id) :
    ∃ chains, List.Forall₂ graph.Chain ids chains ∧
      ((∀ chain ∈ chains, ∀ symbol ∈ chain, Legible symbol.ident) → ∀ names,
        Reads (Encoder.concat (qualifiedName machine parts) ids) [] names []
          (names ++ chains.map (·.map Symbol.ident))) := by
  induction ids with
  | nil => exact ⟨[], .nil, fun _ names => by simpa using .nothing⟩
  | cons first rest ih =>
      obtain ⟨holds, others⟩ := List.forall_mem_cons.mp held
      obtain ⟨plain, plains⟩ := List.forall_mem_cons.mp ordinary
      obtain ⟨levels, found, -⟩ := formed.levels_eq_ok holds
      obtain ⟨chain, chained, stored⟩ := plain.chain_of_levels formed holds found
      obtain ⟨chains, each, reads⟩ := ih others plains
      refine ⟨chain :: chains, .cons chained each, fun legible names => ?_⟩
      obtain ⟨here, later⟩ := List.forall_mem_cons.mp legible
      have name : Reads (qualifiedName machine parts first) [] names []
          (names ++ [chain.map Symbol.ident]) := reads_qualifiedName found stored here names
      have whole := name.append (reads later _)
      rwa [List.append_assoc] at whole

/-- A reader recovers the identifiers of every level of every name from the characters alone, however
many levels and names there are, as long as none is a specialization or a destructor. -/
theorem read_qualifiedNames (built : graph.Built) (machine : Target) (parts : Encoding graph)
    (ids : List SymbolId) (held : ∀ id ∈ ids, graph.Holds (.symbol id))
    (ordinary : ∀ id ∈ ids, graph.OrdinaryUpwards id) :
    ∃ chains, List.Forall₂ graph.Chain ids chains ∧
      ((∀ chain ∈ chains, ∀ symbol ∈ chain, Legible symbol.ident) →
        ∃ tokens, Encoder.outcome (Encoder.concat (qualifiedName machine parts) ids)
            (Tables.bounded 10) = .ok tokens ∧
          Reader.read (Token.write tokens) = some (chains.map (·.map Symbol.ident))) := by
  obtain ⟨chains, chained, reads⟩ :=
    reads_qualifiedNames built.wellFormed machine parts held ordinary
  refine ⟨chains, chained, fun legible => ?_⟩
  obtain ⟨tokens, session, ran, -, got⟩ :=
    reads legible [] { tables := Tables.bounded 10 } ⟨rfl, Nat.zero_le _⟩
  refine ⟨tokens, ?_, ?_⟩
  · rw [Encoder.outcome, ran]
  · let start : Session graph Tables := { tables := Tables.bounded 10 }
    have started : ({} : Reader) = Reader.mirror start [] [] := rfl
    rw [Reader.read, started, got]
    rfl

end

/-- Eleven scopes, each in the one before, and another one of the name of the outermost inside them. -/
def ladder : Graph where
  symbols :=
    { ident := "app", sort := .moduleScope } ::
      ["a", "b", "c", "d", "e", "f", "g", "h", "i", "j", "k", "a"].mapIdx fun index ident =>
        { ident, parent := some ⟨index⟩, sort := .namespaceScope }

theorem ladder_built : ladder.Built :=
  Graph.built_of_takeAll? (ladder.symbols.map .symbol) rfl

theorem ladder_ordinary (id : SymbolId) : ladder.OrdinaryUpwards id := by
  have each : ∀ symbol ∈ ladder.symbols,
      symbol.sort = .moduleScope ∨ symbol.sort = .namespaceScope := by
    refine List.forall_mem_cons.mpr ⟨.inl rfl, fun symbol listed => .inr ?_⟩
    obtain ⟨index, inside, rfl⟩ := List.mem_mapIdx.mp listed
    rfl
  intro outer symbol _ stored
  rcases each symbol (List.mem_of_getElem? (Graph.symbol_eq_ok_iff.mp stored)) with sort | sort <;>
    exact ⟨by rw [Symbol.template?, sort], fun info other => by cases sort.symm.trans other⟩

theorem ladder_legible {id : SymbolId} {symbol : Symbol} (stored : ladder.symbol id = .ok symbol) :
    Reader.Legible symbol.ident := by
  have each : ∀ symbol ∈ ladder.symbols, Reader.Legible symbol.ident := by
    decide
  exact each symbol (List.mem_of_getElem? (Graph.symbol_eq_ok_iff.mp stored))

/-- The ten slots are taken when the eleventh level of the first name is written; so it is spelled out
in the second name as well, which refers back to the ten others. -/
theorem read_qualifiedNames_ladder :
    ∃ chains tokens, List.Forall₂ ladder.Chain [⟨11⟩, ⟨12⟩, ⟨0⟩] chains ∧
      Encoder.outcome (Encoder.concat (qualifiedName Target.microsoft64
        (encoding Target.microsoft64 0)) [⟨11⟩, ⟨12⟩, ⟨0⟩] : Encoder ladder _)
          (Tables.bounded 10) = .ok tokens ∧
      String.ofList (Token.write tokens) = "k@j@i@h@g@f@e@d@c@b@a@@a@0123456789a@@@" ∧
      Reader.read (Token.write tokens) = some (chains.map (·.map Symbol.ident)) := by
  obtain ⟨chains, chained, reads⟩ := read_qualifiedNames ladder_built
    Target.microsoft64 (encoding Target.microsoft64 0)
    [⟨11⟩, ⟨12⟩, ⟨0⟩] (by decide) fun id _ => ladder_ordinary id
  have legible : ∀ chain ∈ chains, ∀ symbol ∈ chain, Reader.Legible symbol.ident := by
    intro chain listed symbol inside
    obtain ⟨id, -, known⟩ := Table.exists_of_forall₂ chained listed
    obtain ⟨name, stored⟩ := known.stored symbol inside
    exact ladder_legible stored
  obtain ⟨tokens, ran, got⟩ := reads legible
  have text : (fun tokens => String.ofList (Token.write tokens)) <$>
      Encoder.outcome (Encoder.concat (qualifiedName Target.microsoft64
        (encoding Target.microsoft64 0)) [⟨11⟩, ⟨12⟩, ⟨0⟩] : Encoder ladder _)
          (Tables.bounded 10) = .ok "k@j@i@h@g@f@e@d@c@b@a@@a@0123456789a@@@" := by
    decide +kernel
  rw [ran] at text
  exact ⟨chains, tokens, chained, ran, Except.ok.inj text, got⟩

end Microsoft

end LinkName
