import LinkName.Proofs.Itanium.Steps

/-!
Names without specializations. The name of a symbol spells its path, or the end of the path behind a
slot that stands for its beginning; so two symbols with one name have one path.
-/
namespace LinkName.Itanium

variable {graph : Graph} {machine : Target} {order : graph.Order} {id : SymbolId}

namespace Plan

/-- The identifier of a symbol behind the scope that encloses it. -/
def pathName (plan : Plan) (scope : Option SymbolId) (ident : String) : Script :=
  match scope with
  | some outer => .append (plan (.scope outer)) (.write [.source ident])
  | none => .write [.source ident]

section

variable (plain : graph.SpecializationFree) {symbol : Symbol} {scope : Option SymbolId}
variable (stored : graph.symbol id = .ok symbol) (found : graph.scopeParent id = .ok scope)
include plain stored found

theorem level_of_plain :
    graph.level id = .ok { name := id, scope, template := none } :=
  Graph.level_of_apart stored (fun parent outer _ known => plain parent outer known) found

theorem levelName_of_plain (plan : Plan) :
    plan.levelName graph { name := id, scope, template := none } =
      plan.pathName scope symbol.ident := by
  cases scope <;> simp only [levelName, pathName, enclosing,
    sourceName_eq stored (plain id symbol stored)]

theorem settled_scope (formed : graph.WellFormed) :
    settled order machine (.scope id) =
      .named (.symbol id) ((settled order machine).pathName scope symbol.ident) := by
  have held : (LinkName.Item.scope id : Item).Held graph := Graph.holds_symbol_iff.mpr ⟨symbol, stored⟩
  rw [settled_eq formed order held]
  show scopeName graph (settled order machine) id = _
  rw [scopeName, level_of_plain plain stored found]
  exact congrArg (Script.named _) (levelName_of_plain plain stored found _)

theorem mention_of_plain (plan : Plan) :
    plan.mention graph id = .compound (.symbol id)
      (if scope.isSome then
        .append (.write [.text "N"])
          (.append (plan.pathName scope symbol.ident) (.write [.text "E"]))
      else plan.pathName scope symbol.ident) := by
  rw [mention, qualifiedName, level_of_plain plain stored found]
  simp only [Script.ofExcept, levelName_of_plain plain stored found]

end

end Plan

namespace Plan

theorem pathName_symbolic {plan : Plan} {scope : Option SymbolId} {ident : String}
    (outside : ∀ outer ∈ scope, (plan (.scope outer)).Symbolic) :
    (plan.pathName scope ident).Symbolic := by
  cases scope with
  | none => exact Script.Symbolic.additive.write _
  | some outer =>
      exact Script.Symbolic.additive.append (outside outer rfl) (Script.Symbolic.additive.write _)

end Plan

/-! ## What names are made of -/

/-- A reference to the beginning of a path, if any, and the identifiers that follow. -/
def chainTokens (base : Option Nat) (idents : List String) : List Token :=
  base.toList.map .backRef ++ idents.map .source

/-- The slot, if any, and the identifiers come to the path of `id`. -/
inductive Chain (graph : Graph) (table : Table Key) (id : SymbolId) :
    Option Nat → List String → Prop
  | fresh {idents : List String} (path : graph.path id = idents) : Chain graph table id none idents
  | known {slot : Nat} {base : SymbolId} {idents : List String}
      (stored : table.entries[slot]? = some (.symbol base))
      (path : graph.path id = graph.path base ++ idents) : Chain graph table id (some slot) idents

theorem chainTokens_append (base : Option Nat) (idents : List String) (ident : String) :
    chainTokens base idents ++ [.source ident] = chainTokens base (idents ++ [ident]) := by
  simp [chainTokens]

namespace Chain

variable {table table' : Table Key} {outer : SymbolId} {base : Option Nat} {idents : List String}

theorem concat (chain : Chain graph table outer base idents) {ident : String}
    (path : graph.path id = graph.path outer ++ [ident]) :
    Chain graph table id base (idents ++ [ident]) := by
  cases chain with
  | fresh whole => exact .fresh (by rw [path, whole])
  | known stored whole => exact .known stored (by rw [path, whole, List.append_assoc])

/-- A longer chain does not start with `id` itself, so it is there before `id` takes its slot. -/
theorem of_push (chain : Chain graph (table.push (.symbol id)).2 id base idents)
    (longer : idents ≠ []) : Chain graph table id base idents := by
  cases chain with
  | fresh path => exact .fresh path
  | @known slot first _ stored path =>
      refine .known ?_ path
      rw [Table.entries_push] at stored
      split at stored
      · exact stored
      · rw [List.getElem?_append] at stored
        split at stored
        · exact stored
        · have newest := List.mem_singleton.mp (List.mem_of_getElem? stored)
          obtain rfl : first = id := Key.symbol.inj newest
          exact absurd (List.self_eq_append_right.mp path) longer

/-- With tables in step, one slot and one list of identifiers come to one path. -/
theorem path_eq {other : SymbolId} (chain : Chain graph table id base idents)
    (chain' : Chain graph table' other base idents) (step : InStep table table') :
    graph.path id = graph.path other := by
  cases chain with
  | fresh path =>
      cases chain' with
      | fresh path' => rw [path, path']
  | known stored path =>
      cases chain' with
      | known stored' path' =>
          obtain rfl := Key.symbol.inj (step.normal_eq stored stored')
          rw [path, path']

end Chain

/-- A script writes the path of a symbol, or what follows a slot in it. -/
def Spells (graph : Graph) (id : SymbolId) (script : Script) : Prop :=
  ∀ table last tokens, script.run table = .ok (tokens, last) →
    ∃ base idents, tokens = chainTokens base idents ∧ Chain graph table id base idents ∧
      ∀ ident ∈ idents, Readable ident

section

variable (plain : graph.SpecializationFree) (legible : graph.IdentsReadable)
variable (formed : graph.WellFormed)
include plain legible formed

omit plain in
theorem pathName_run {symbol : Symbol} {scope : Option SymbolId}
    (stored : graph.symbol id = .ok symbol) (found : graph.scopeParent id = .ok scope)
    (outside : ∀ outer ∈ scope, Spells graph outer (Plan.settled order machine (.scope outer)))
    {table last : Table Key} {tokens : List Token}
    (ran : ((Plan.settled order machine).pathName scope symbol.ident).run table = .ok (tokens, last)) :
    ∃ base idents, tokens = chainTokens base idents ∧ Chain graph table id base idents ∧
      (∀ ident ∈ idents, Readable ident) ∧ idents ≠ [] := by
  have path := formed.path_eq stored found
  have readable := legible id symbol stored
  cases scope with
  | none =>
      cases ran
      exact ⟨none, [symbol.ident], rfl, .fresh path, by simpa using readable, by simp⟩
  | some outer =>
      obtain ⟨before, middle, after, begun, ended, rfl⟩ := Script.run_append ran
      cases ended
      obtain ⟨base, idents, rfl, chain, each⟩ := outside outer rfl _ _ _ begun
      refine ⟨base, idents ++ [symbol.ident], chainTokens_append _ _ _, chain.concat path, ?_, by simp⟩
      exact List.forall_mem_append.mpr ⟨each, by simpa using readable⟩

/-- A scope is written as its path. -/
theorem spells_scope (held : graph.Holds (.symbol id)) :
    Spells graph id (Plan.settled order machine (.scope id)) := by
  induction deep : order.rank (.symbol id) using Nat.strong_induction_on generalizing id with
  | _ rank ih =>
      intro table last tokens ran
      obtain ⟨symbol, stored⟩ := Graph.holds_symbol_iff.mp held
      obtain ⟨scope, found⟩ := formed.scopeParent_eq_ok held
      rw [Plan.settled_scope plain stored found formed] at ran
      rcases Script.run_orRef ran with ⟨slot, hit, rfl, rfl⟩ | ⟨-, ran⟩
      · exact ⟨some slot, [], rfl, .known (Table.getElem?_of_find? hit) (by simp), by simp⟩
      · have outside : ∀ outer ∈ scope,
            Spells graph outer (Plan.settled order machine (.scope outer)) := by
          rintro outer rfl
          have mentioned := Graph.mentions_scopeParent found
          exact ih _ (deep ▸ order.descends _ _ mentioned) (formed.closed _ _ mentioned) rfl
        have inner : ((Plan.settled order machine).pathName scope symbol.ident).run
            (table.push (.symbol id)).2 = .ok (tokens, last) := ran
        obtain ⟨base, idents, written, chain, each, longer⟩ :=
          pathName_run legible formed stored found outside inner
        exact ⟨base, idents, written, chain.of_push longer, each⟩

omit legible in
/-- Scopes know only symbols. -/
theorem scope_symbolic (held : graph.Holds (.symbol id)) :
    (Plan.settled order machine (.scope id)).Symbolic := by
  induction deep : order.rank (.symbol id) using Nat.strong_induction_on generalizing id with
  | _ rank ih =>
      obtain ⟨symbol, stored⟩ := Graph.holds_symbol_iff.mp held
      obtain ⟨scope, found⟩ := formed.scopeParent_eq_ok held
      rw [Plan.settled_scope plain stored found formed]
      have inner : ((Plan.settled order machine).pathName scope symbol.ident).Symbolic := by
        refine Plan.pathName_symbolic ?_
        rintro outer rfl
        have mentioned := Graph.mentions_scopeParent found
        exact ih _ (deep ▸ order.descends _ _ mentioned) (formed.closed _ _ mentioned) rfl
      exact inner.named id

/-! ## Mentions -/

omit plain legible formed in
/-- What mentioning a symbol writes: a slot that stands for it, its identifier or its path. -/
inductive Mentioned (graph : Graph) (table : Table Key) (id : SymbolId) : Sign → List Char → Prop
  | known {slot : Nat} (stored : table.entries[slot]? = some (.symbol id)) :
      Mentioned graph table id .slot (slotChars slot)
  | single {ident : String} (readable : Readable ident) (path : graph.path id = [ident]) :
      Mentioned graph table id .name (sourceChars ident)
  | nested {base : Option Nat} {idents : List String} (chain : Chain graph table id base idents)
      (each : ∀ ident ∈ idents, Readable ident) :
      Mentioned graph table id .name ('N' :: (Token.write (chainTokens base idents) ++ ['E']))

theorem mention_run (held : graph.Holds (.symbol id)) {table last : Table Key} {tokens : List Token}
    (ran : ((Plan.settled order machine).mention graph id).run table = .ok (tokens, last)) :
    ∃ sign, Mentioned graph table id sign (Token.write tokens) := by
  obtain ⟨symbol, stored⟩ := Graph.holds_symbol_iff.mp held
  obtain ⟨scope, found⟩ := formed.scopeParent_eq_ok held
  rw [Plan.mention_of_plain plain stored found] at ran
  rcases Script.run_orRef ran with ⟨slot, hit, rfl, rfl⟩ | ⟨-, ran⟩
  · refine ⟨.slot, ?_⟩
    rw [Token.write, List.flatMap_singleton]
    exact .known (Table.getElem?_of_find? hit)
  · obtain ⟨middle, inner, -⟩ := Script.run_thenStore ran
    cases scope with
    | none =>
        cases inner
        refine ⟨.name, ?_⟩
        rw [Token.write, List.flatMap_singleton]
        exact .single (legible id symbol stored) (formed.path_eq stored found)
    | some outer =>
        obtain ⟨_, _, _, opening, rest, rfl⟩ := Script.run_append inner
        obtain ⟨_, _, _, named, closing, rfl⟩ := Script.run_append rest
        cases opening
        cases closing
        have outside : ∀ enclosing ∈ some outer,
            Spells graph enclosing (Plan.settled order machine (.scope enclosing)) := by
          rintro enclosing listed
          cases listed
          exact spells_scope plain legible formed (formed.closed _ _ (Graph.mentions_scopeParent found))
        obtain ⟨base, idents, rfl, chain, each, -⟩ :=
          pathName_run legible formed stored found outside named
        refine ⟨.name, ?_⟩
        have written := Mentioned.nested chain each
        simpa [Token.write, Token.chars] using written

omit legible in
/-- A mention knows only symbols. -/
theorem mention_symbolic (held : graph.Holds (.symbol id)) :
    ((Plan.settled order machine).mention graph id).Symbolic := by
  obtain ⟨symbol, stored⟩ := Graph.holds_symbol_iff.mp held
  obtain ⟨scope, found⟩ := formed.scopeParent_eq_ok held
  have inner : ((Plan.settled order machine).pathName scope symbol.ident).Symbolic := by
    refine Plan.pathName_symbolic ?_
    rintro outer rfl
    exact scope_symbolic plain formed (formed.closed _ _ (Graph.mentions_scopeParent found))
  rw [Plan.mention_of_plain plain stored found]
  refine Script.Symbolic.compound ?_ id
  cases scope with
  | none => exact inner
  | some outer =>
      exact Script.Symbolic.additive.append (Script.Symbolic.additive.write _)
        (Script.Symbolic.additive.append inner (Script.Symbolic.additive.write _))

end

/-! ## Reading paths back -/

theorem idents_append_inj {idents idents' : List String} {rest rest' : List Char}
    (each : ∀ ident ∈ idents, Readable ident) (each' : ∀ ident ∈ idents', Readable ident)
    (same : idents.flatMap sourceChars ++ 'E' :: rest =
      idents'.flatMap sourceChars ++ 'E' :: rest') : idents = idents' ∧ rest = rest' := by
  have ended {ident : String} {rest further : List Char} :
      'E' :: rest ≠ sourceChars ident ++ further := by
    intro clash
    obtain ⟨first, others, written, digit⟩ := sourceChars_head ident
    rw [written] at clash
    obtain ⟨rfl, -⟩ := List.cons.inj clash
    cases digit
  induction idents generalizing idents' rest with
  | nil =>
      cases idents' with
      | nil => exact ⟨rfl, (List.cons.inj same).2⟩
      | cons ident others => exact absurd (by simpa using same) ended
  | cons ident others ih =>
      cases idents' with
      | nil => exact absurd (by simpa using same.symm) ended
      | cons ident' others' =>
          obtain ⟨readable, later⟩ := List.forall_mem_cons.mp each
          obtain ⟨readable', later'⟩ := List.forall_mem_cons.mp each'
          simp only [List.flatMap_cons, List.append_assoc] at same
          obtain ⟨rfl, further⟩ := sourceChars_append_inj readable readable' same
          obtain ⟨rfl, left⟩ := ih later later' further
          exact ⟨rfl, left⟩

theorem write_chainTokens (base : Option Nat) (idents : List String) :
    Token.write (chainTokens base idents) =
      base.toList.flatMap slotChars ++ idents.flatMap sourceChars := by
  simp [Token.write, chainTokens, List.flatMap_map, Token.chars]

theorem chain_append_inj {base base' : Option Nat} {idents idents' : List String}
    {rest rest' : List Char} (each : ∀ ident ∈ idents, Readable ident)
    (each' : ∀ ident ∈ idents', Readable ident)
    (same : Token.write (chainTokens base idents) ++ 'E' :: rest =
      Token.write (chainTokens base' idents') ++ 'E' :: rest') :
    base = base' ∧ idents = idents' ∧ rest = rest' := by
  have apart {slot : Nat} {further : List Char} {idents : List String} {rest : List Char} :
      slotChars slot ++ further ≠ idents.flatMap sourceChars ++ 'E' :: rest := by
    intro clash
    cases idents with
    | nil => cases (List.cons.inj clash).1
    | cons ident others =>
        obtain ⟨first, more, written, digit⟩ := sourceChars_head ident
        rw [List.flatMap_cons, written] at clash
        obtain ⟨rfl, -⟩ := List.cons.inj clash
        cases digit
  simp only [write_chainTokens, List.append_assoc] at same
  cases base with
  | none =>
      cases base' with
      | none => exact ⟨rfl, idents_append_inj each each' same⟩
      | some slot' => exact absurd (by simpa using same.symm) apart
  | some slot =>
      cases base' with
      | none => exact absurd (by simpa using same) apart
      | some slot' =>
          simp only [Option.toList_some, List.flatMap_singleton] at same
          obtain ⟨rfl, further⟩ := slotChars_append_inj same
          exact ⟨rfl, idents_append_inj each each' further⟩

theorem Mentioned.opens {table : Table Key} {sign : Sign} {chars : List Char}
    (mentioned : Mentioned graph table id sign chars) : sign.Opens chars := by
  cases mentioned with
  | known stored => exact ⟨'S', _, rfl, rfl⟩
  | single readable path => exact Sign.opens_sourceChars _
  | nested chain each => exact ⟨'N', _, rfl, rfl⟩

/-- Two mentions that start two texts alike mention symbols with one path. -/
theorem Mentioned.append_inj {table table' : Table Key} {other : SymbolId} {sign : Sign}
    {chars chars' rest rest' : List Char} (mentioned : Mentioned graph table id sign chars)
    (mentioned' : Mentioned graph table' other sign chars') (step : InStep table table')
    (same : chars ++ rest = chars' ++ rest') : graph.path id = graph.path other ∧ rest = rest' := by
  have apart {ident : String} {further more : List Char} :
      'N' :: further ≠ sourceChars ident ++ more := by
    intro clash
    obtain ⟨first, others, written, digit⟩ := sourceChars_head ident
    rw [written] at clash
    obtain ⟨rfl, -⟩ := List.cons.inj clash
    cases digit
  cases mentioned with
  | known stored =>
      cases mentioned' with
      | known stored' =>
          obtain ⟨rfl, left⟩ := slotChars_append_inj same
          obtain rfl : id = other := Key.symbol.inj (step.normal_eq stored stored')
          exact ⟨rfl, left⟩
  | single readable path =>
      cases mentioned' with
      | single readable' path' =>
          obtain ⟨rfl, left⟩ := sourceChars_append_inj readable readable' same
          exact ⟨path.trans path'.symm, left⟩
      | nested chain' each' => exact absurd (by simpa using same.symm) apart
  | nested chain each =>
      cases mentioned' with
      | single readable' path' => exact absurd (by simpa using same) apart
      | nested chain' each' =>
          simp only [List.cons_append, List.append_assoc, List.cons.injEq, true_and] at same
          obtain ⟨rfl, rfl, left⟩ := chain_append_inj each each' same
          exact ⟨chain.path_eq chain' step, left⟩

end LinkName.Itanium
