import LinkName.Proofs.Itanium.Written

/-!
Types read back. Two names that go on alike with a type each name types that are one C++ type; where
one of them refers back, the other does, and the slot stands for the same thing in both. So the rest
of the names goes on alike as well, with tables that are still in step.
-/
namespace LinkName.Itanium

variable {graph : Graph} {machine : Target} {order : graph.Order}

/-- Where two names go on alike with the type and with another one, the two are one C++ type. -/
def Legible (graph : Graph) (machine : Target) (order : graph.Order) (tree : TypeTree)
    (place : Place) : Prop :=
  ∀ ⦃other : TypeTree⦄ ⦃table table' last last' : Table Key⦄ ⦃tokens tokens' : List Token⦄
    ⦃rest rest' : List Char⦄,
    other.Told graph → (LinkName.Item.type other place : Item).Held graph → InStep table table' →
    (Plan.settled order machine (.type tree place)).run table = .ok (tokens, last) →
    (Plan.settled order machine (.type other place)).run table' = .ok (tokens', last') →
    Token.write tokens ++ rest = Token.write tokens' ++ rest' →
    tree.normal = other.normal ∧ rest = rest' ∧ InStep last last'

theorem quals_eq {tree tree' : TypeTree} (native : tree.isForeign = false)
    (native' : tree'.isForeign = false) (same : tree.isConst = tree'.isConst) :
    tree.quals = tree'.quals := by
  unfold TypeTree.isForeign at native native'
  unfold TypeTree.isConst at same
  generalize tree.quals = quals at *
  generalize tree'.quals = quals' at *
  cases quals
  cases quals'
  simp_all

theorem Names.held (formed : graph.WellFormed) {naming : Naming} {symbol : SymbolId}
    (names : graph.Names naming symbol) : graph.Holds (.symbol symbol) := by
  obtain ⟨id, ⟨form, quals⟩, found, named⟩ := names
  have mentioned : graph.Mentions (.type id) (.symbol symbol) := by
    rw [Graph.Mentions, Graph.mentions_type found]
    cases form <;> cases named <;> exact List.mem_singleton_self _
  exact formed.closed _ _ mentioned

/-- The sign of a mention is that of a slot or a name. -/
theorem Mentioned.sign_eq {table : Table Key} {symbol : SymbolId} {sign : Sign} {chars : List Char}
    (mentioned : Mentioned graph table symbol sign chars) : sign = .slot ∨ sign = .name := by
  cases mentioned with
  | known stored => exact .inl rfl
  | single readable path => exact .inr rfl
  | nested chain each => exact .inr rfl

section

variable (telling : graph.Telling) (formed : graph.WellFormed)
variable {table table' last last' : Table Key} (step : InStep table table')
variable {rest rest' : List Char}

include step in
/-- A slot is read as a slot that stands for one C++ type. -/
theorem known_read {tree other : TypeTree} {place : Place} {slot : Nat} {mark : Bool}
    {chars : List Char} (stored : table.entries[slot]? = some (.type tree))
    (written : Written graph machine order place table' other last' mark .slot chars)
    (same : slotChars slot ++ rest = chars ++ rest') :
    tree.normal = other.normal ∧ rest = rest' ∧ last' = table' := by
  generalize signed : Sign.slot = sign at written
  cases written with
  | known stored' =>
      obtain ⟨rfl, left⟩ := slotChars_append_inj same
      exact ⟨Key.type.inj (step.normal_eq stored stored'), left, rfl⟩
  | layer native known ran => exact absurd signed.symm (Layer.sign?_ne known).1
  | named native names direct ran mentioned =>
      generalize written : Token.write _ = chars at mentioned same
      cases mentioned with
      | known stored' =>
          obtain ⟨rfl, -⟩ := slotChars_append_inj same
          cases step.normal_eq stored stored'
      | single | nested => cases signed
  | basic | classRef | function => cases signed

include telling formed step

/-- A mention is read as a mention of the same symbol, which is named in the same way. -/
theorem mention_read {naming naming' : Naming} {symbol symbol' : SymbolId} {sign : Sign}
    {tokens tokens' : List Token} (names : graph.Names naming symbol)
    (names' : graph.Names naming' symbol')
    (mentioned : Mentioned graph table symbol sign (Token.write tokens))
    (mentioned' : Mentioned graph table' symbol' sign (Token.write tokens'))
    (ran : ((Plan.settled order machine).mention graph symbol).run table = .ok (tokens, last))
    (ran' : ((Plan.settled order machine).mention graph symbol').run table' = .ok (tokens', last'))
    (same : Token.write tokens ++ rest = Token.write tokens' ++ rest') :
    naming = naming' ∧ symbol = symbol' ∧ rest = rest' ∧ InStep last last' := by
  obtain ⟨paths, left⟩ := mentioned.append_inj mentioned' step same
  obtain rfl := telling.paths symbol symbol' (.inr ⟨naming, names⟩) (.inr ⟨naming', names'⟩) paths
  have symbolic : ((Plan.settled order machine).mention graph symbol).Symbolic :=
    mention_symbolic telling.plain formed (Names.held formed names)
  exact ⟨telling.namings _ _ _ names names', rfl, left, (symbolic.run_inStep step ran ran').2⟩

/-- What is below a pointer is not read as the name of a class. -/
theorem inner_ne_classRef {inner : TypeTree} {symbol : SymbolId} {quals : Qualifiers} {sign : Sign}
    {tokens tokens' : List Token} (told : inner.Told graph)
    (held : (LinkName.Item.type inner .nested : Item).Held graph)
    (names : graph.Names .classRef symbol)
    (ran : (Plan.settled order machine (.type inner .nested)).run table = .ok (tokens, last))
    (mentioned : Mentioned graph table' symbol sign (Token.write tokens'))
    (ran' : ((Plan.settled order machine).mention graph symbol).run table' = .ok (tokens', last')) :
    Token.write tokens ++ rest ≠
      (if quals.isConst then ['K'] else []) ++ Token.write tokens' ++ rest' := by
  intro same
  obtain ⟨mark, sign', chars, written, whole⟩ := type_written telling formed held ran
  rw [whole, List.append_assoc, List.append_assoc] at same
  obtain ⟨-, onward⟩ :=
    Sign.mark_append_inj (written.opens.append _) (mentioned.opens.append _) same
  obtain rfl := (written.opens.append rest).sign_eq (onward ▸ mentioned.opens.append rest')
  cases written with
  | known stored =>
      clear same ran'
      generalize Token.write tokens' = chars at mentioned onward
      cases mentioned with
      | known stored' =>
          obtain ⟨rfl, -⟩ := slotChars_append_inj onward
          cases step.normal_eq stored stored'
  | layer native known below =>
      have apart := Layer.sign?_ne known
      exact mentioned.sign_eq.elim apart.1 apart.2.1
  | named native typed direct mentions mentioned' =>
      cases told with
      | named quals also =>
          have read := mention_read telling formed step (also.resolve_left typed) names mentioned'
            mentioned mentions ran' onward
          exact direct read.1
  | basic | classRef | function => cases mentioned.sign_eq <;> contradiction

omit telling formed in
theorem basic_read {basic : BasicType} {quals : Qualifiers} {other : TypeTree} {place : Place}
    {chars : List Char} (native : (TypeTree.basic basic quals).isForeign = false)
    (written : Written graph machine order place table' other last' quals.isConst .basic chars)
    (same : (builtin machine basic).toList ++ rest = chars ++ rest') :
    (TypeTree.basic basic quals).normal = other.normal ∧ rest = rest' ∧
      InStep (if isExtended basic || quals.isConst then
        (table.push (.type (.basic basic quals))).2 else table) last' := by
  generalize marked : quals.isConst = mark at written
  generalize signed : Sign.basic = sign at written
  cases written with
  | @basic other quals' native' =>
      obtain ⟨kinds, left⟩ := builtin_append_inj same
      obtain rfl : quals = quals' := quals_eq native native' marked
      have normal : (TypeTree.basic basic quals).normal = (TypeTree.basic other quals).normal :=
        congrArg (TypeTree.basic · quals) kinds
      have extended : isExtended basic = isExtended other := by
        cases basic <;> cases other <;> first | rfl | cases kinds
      refine ⟨normal, left, ?_⟩
      rw [extended, marked]
      split
      · exact step.push (congrArg Key.type normal)
      · exact step
  | layer native known ran => exact absurd signed.symm (Layer.sign?_ne known).2.2.1
  | named native names direct ran mentioned =>
      subst signed
      cases mentioned.sign_eq <;> contradiction
  | known | classRef | function => cases signed

theorem layer_read {around : Layer} {inner other : TypeTree} {quals : Qualifiers} {place : Place}
    {sign : Sign} {tokens : List Token} {chars : List Char}
    (legible : Legible graph machine order inner .nested) (told : inner.Told graph)
    (held : (LinkName.Item.type inner .nested : Item).Held graph)
    (told' : other.Told graph) (held' : (LinkName.Item.type other place : Item).Held graph)
    (native : (TypeTree.layer around inner quals).isForeign = false)
    (known : around.sign? = some sign)
    (ran : (Plan.settled order machine (.type inner .nested)).run table = .ok (tokens, last))
    (written : Written graph machine order place table' other last' (around.marks quals.isConst) sign
      chars)
    (same : around.opening ++ Token.write tokens ++ rest = chars ++ rest') :
    (TypeTree.layer around inner quals).normal = other.normal ∧ rest = rest' ∧
      InStep (last.push (.type (.layer around inner quals))).2 last' := by
  generalize marked : around.marks quals.isConst = mark at written
  cases written with
  | @layer around' inner' quals' _ tokens' _ native' known' ran' =>
      simp only [List.append_assoc] at same
      obtain ⟨rfl, below⟩ := Layer.opening_append_inj known known' same
      cases told' with
      | layer _ _ told' =>
          obtain ⟨inners, left, further⟩ := legible told' held' step ran ran' below
          have normal : (TypeTree.layer around inner quals).normal =
              (TypeTree.layer around inner' quals').normal := by
            by_cases other : around = .reference
            · subst other
              simp only [TypeTree.normal_reference, inners]
            · have consts : quals.isConst = quals'.isConst := by
                simpa [Layer.marks, other] using marked
              obtain rfl : quals = quals' := quals_eq native native' consts
              simp only [TypeTree.normal_layer other, inners]
          exact ⟨normal, left, further.push (congrArg Key.type normal)⟩
  | classRef native' ran' mentioned =>
      cases told' with
      | named _ names =>
          obtain rfl : around = .pointer := by cases around <;> cases known; rfl
          have below := (List.cons.inj same).2
          exact absurd below (inner_ne_classRef telling formed step told held
            (names.resolve_left (by rintro ⟨⟩)) ran mentioned ran')
  | known => exact absurd rfl (Layer.sign?_ne known).1
  | basic => exact absurd rfl (Layer.sign?_ne known).2.2.1
  | named native names direct ran mentioned =>
      have apart := Layer.sign?_ne known
      exact (mentioned.sign_eq.elim apart.1 apart.2.1).elim
  | function => exact absurd rfl (Layer.sign?_ne known).2.2.2

theorem named_read {naming : Naming} {symbol : SymbolId} {quals : Qualifiers} {other : TypeTree}
    {place : Place} {sign : Sign} {tokens : List Token} {chars : List Char}
    (native : (TypeTree.named naming symbol quals).isForeign = false)
    (names : graph.Names naming symbol) (told' : other.Told graph)
    (ran : ((Plan.settled order machine).mention graph symbol).run table = .ok (tokens, last))
    (mentioned : Mentioned graph table symbol sign (Token.write tokens))
    (written : Written graph machine order place table' other last' quals.isConst sign chars)
    (same : Token.write tokens ++ rest = chars ++ rest') :
    (TypeTree.named naming symbol quals).normal = other.normal ∧ rest = rest' ∧
      InStep (if quals.isConst then (last.push (.type (.named naming symbol quals))).2 else last)
        last' := by
  generalize marked : quals.isConst = mark at written
  cases written with
  | known stored' =>
      generalize Token.write tokens = chars at mentioned same
      cases mentioned with
      | known stored =>
          obtain ⟨rfl, -⟩ := slotChars_append_inj same
          cases step.normal_eq stored stored'
  | @named naming' symbol' quals' _ _ _ native' typed direct' ran' mentioned' =>
      cases told' with
      | named _ names' =>
          obtain ⟨rfl, rfl, left, further⟩ := mention_read telling formed step names
            (names'.resolve_left typed) mentioned mentioned' ran ran' same
          obtain rfl : quals = quals' := quals_eq native native' marked
          refine ⟨rfl, left, ?_⟩
          rw [marked]
          split
          · exact further.push rfl
          · exact further
  | layer native' known ran' =>
      have apart := Layer.sign?_ne known
      exact (mentioned.sign_eq.elim apart.1 apart.2.1).elim
  | basic | classRef | function => cases mentioned.sign_eq <;> contradiction

theorem classRef_read {symbol : SymbolId} {quals : Qualifiers} {other : TypeTree} {place : Place}
    {sign : Sign} {tokens : List Token} {mark : Bool} {chars : List Char}
    (native : (TypeTree.named .classRef symbol quals).isForeign = false)
    (names : graph.Names .classRef symbol) (told' : other.Told graph)
    (held' : (LinkName.Item.type other place : Item).Held graph)
    (ran : ((Plan.settled order machine).mention graph symbol).run table = .ok (tokens, last))
    (mentioned : Mentioned graph table symbol sign (Token.write tokens))
    (written : Written graph machine order place table' other last' mark .pointer chars)
    (same : 'P' :: ((if quals.isConst then ['K'] else []) ++ Token.write tokens) ++ rest =
      chars ++ rest') :
    (TypeTree.named .classRef symbol quals).normal = other.normal ∧ rest = rest' ∧
      InStep ((if quals.isConst then (last.push .unnamed).2 else last).push
        (.type (.named .classRef symbol quals))).2 last' := by
  generalize signed : Sign.pointer = signs at written
  cases written with
  | @classRef symbol' quals' sign' tokens' middle' native' ran' mentioned' =>
      cases told' with
      | named _ names' =>
          simp only [List.cons_append, List.append_assoc, List.cons.injEq, true_and] at same
          obtain ⟨consts, onward⟩ := Sign.mark_append_inj (mentioned.opens.append _)
            (mentioned'.opens.append _) same
          obtain rfl :=
            (mentioned.opens.append rest).sign_eq (onward ▸ mentioned'.opens.append rest')
          obtain ⟨-, rfl, left, further⟩ := mention_read telling formed step names
            (names'.resolve_left (by rintro ⟨⟩)) mentioned mentioned' ran ran' onward
          obtain rfl : quals = quals' := quals_eq native native' consts
          refine ⟨rfl, left, InStep.push ?_ rfl⟩
          split
          · exact further.push rfl
          · exact further
  | layer native' known ran' =>
      subst signed
      rename_i around inner quals' tokens' middle'
      obtain rfl : around = .pointer := by cases around <;> cases known; rfl
      cases told' with
      | layer _ _ told' =>
          have below := (List.cons.inj same).2
          exact absurd below.symm
            (inner_ne_classRef telling formed step.symm told' held' names ran' mentioned ran)
  | named native' typed direct' ran' mentioned' =>
      subst signed
      cases mentioned'.sign_eq <;> contradiction
  | known | basic | function => cases signed

/-! ## Parameter lists -/

end

/-- A parameter that can be read back: its type keeps the conditions, and it could not be taken for
an empty list. -/
structure ParamTold (graph : Graph) (param : Passing × TypeTree) : Prop where
  told : (TypeTree.parameter param).Told graph
  visible : (TypeTree.parameter param).isVoid = false
  held : (LinkName.Item.type (TypeTree.parameter param) .outermost : Item).Held graph

section

variable (telling : graph.Telling) (formed : graph.WellFormed)
variable {table table' last last' : Table Key} {rest rest' : List Char}
include telling formed

omit telling in
theorem paramTold_of_function (order : graph.Order) {result : TypeTree}
    {params : List (Passing × TypeTree)} {convention : Convention} {quals : Qualifiers}
    {place : Place} (told : (TypeTree.function result params convention quals).Told graph)
    (held : (LinkName.Item.type (.function result params convention quals) place : Item).Held
      graph) : ∀ param ∈ params, ParamTold graph param := by
  intro param listed
  have parts := Item.below_parts formed order held
  cases told with
  | function _ _ toldResult each voids =>
      refine ⟨(each param listed).parameter, TypeTree.isVoid_parameter (voids param listed), ?_⟩
      exact (parts _ (List.mem_cons_of_mem _ (List.mem_map_of_mem listed))).1

theorem type_ne_end {tree : TypeTree} {place : Place}
    (held : (LinkName.Item.type tree place : Item).Held graph) {tokens : List Token}
    (ran : (Plan.settled order machine (.type tree place)).run table = .ok (tokens, last))
    (ends : Ends rest') : Token.write tokens ++ rest ≠ rest' := by
  obtain ⟨mark, sign, chars, written, whole⟩ := type_written telling formed held ran
  rw [whole, List.append_assoc]
  exact (written.opens.append rest).ne_end ends mark

omit telling formed in
theorem parameter_run {param : Passing × TypeTree} {tokens : List Token}
    (ran : (Plan.parameter graph (Plan.settled order machine) param).run table = .ok (tokens, last)) :
    (Plan.settled order machine (.type (TypeTree.parameter param) .outermost)).run table =
      .ok (tokens, last) := by
  unfold Plan.parameter at ran
  split at ran
  · cases ran
  · exact ran

theorem listed_read {params params' : List (Passing × TypeTree)} (step : InStep table table')
    (legible : ∀ param ∈ params, Legible graph machine order (TypeTree.parameter param) .outermost)
    (each : ∀ param ∈ params, ParamTold graph param)
    (each' : ∀ param ∈ params', ParamTold graph param)
    {tokens tokens' : List Token}
    (ran : (Script.concat (params.map (Plan.parameter graph (Plan.settled order machine)))).run
      table = .ok (tokens, last))
    (ran' : (Script.concat (params'.map (Plan.parameter graph (Plan.settled order machine)))).run
      table' = .ok (tokens', last'))
    (ends : Ends rest) (ends' : Ends rest')
    (same : Token.write tokens ++ rest = Token.write tokens' ++ rest') :
    params.map (fun param => (TypeTree.parameter param).normal) =
        params'.map (fun param => (TypeTree.parameter param).normal) ∧
      rest = rest' ∧ InStep last last' := by
  induction params generalizing params' table table' tokens tokens' with
  | nil =>
      cases ran
      cases params' with
      | nil =>
          cases ran'
          exact ⟨rfl, same, step⟩
      | cons first others =>
          obtain ⟨_, _, _, begun, -, rfl⟩ := Script.run_append ran'
          rw [Token.write_append, List.append_assoc] at same
          exact absurd same.symm (type_ne_end telling formed (each' first List.mem_cons_self).held
            (parameter_run begun) ends)
  | cons first others ih =>
      obtain ⟨_, _, _, begun, further, rfl⟩ := Script.run_append ran
      rw [Token.write_append, List.append_assoc] at same
      cases params' with
      | nil =>
          cases ran'
          exact absurd same (type_ne_end telling formed (each first List.mem_cons_self).held
            (parameter_run begun) ends')
      | cons first' others' =>
          obtain ⟨_, _, _, begun', further', rfl⟩ := Script.run_append ran'
          rw [Token.write_append, List.append_assoc] at same
          obtain ⟨head', tail'⟩ := List.forall_mem_cons.mp each'
          obtain ⟨heads, onward, between⟩ := legible first List.mem_cons_self head'.told head'.held
            step (parameter_run begun) (parameter_run begun') same
          obtain ⟨tails, left, done⟩ := ih between (List.forall_mem_cons.mp legible).2
            (List.forall_mem_cons.mp each).2 tail' further further' onward
          refine ⟨?_, left, done⟩
          rw [List.map_cons, List.map_cons, heads, tails]

/-- Only `void` is written with the letter of an empty list. -/
theorem isVoid_of_run {tree : TypeTree} {place : Place}
    (held : (LinkName.Item.type tree place : Item).Held graph) {tokens : List Token}
    (ran : (Plan.settled order machine (.type tree place)).run table = .ok (tokens, last))
    (same : Token.write tokens ++ rest = 'v' :: rest') : tree.isVoid = true := by
  obtain ⟨mark, sign, chars, written, whole⟩ := type_written telling formed held ran
  have opens : Sign.basic.Opens ('v' :: rest') := ⟨'v', rest', rfl, rfl⟩
  rw [whole, List.append_assoc] at same
  have front : (if false then ['K'] else []) ++ 'v' :: rest' = 'v' :: rest' := rfl
  obtain ⟨rfl, onward⟩ :=
    Sign.mark_append_inj (written.opens.append _) opens (same.trans front.symm)
  obtain rfl := (written.opens.append rest).sign_eq (onward ▸ opens)
  generalize signed : Sign.basic = sign at written
  generalize false = mark at written
  cases written with
  | @basic basic quals native =>
      have read := readBuiltin_builtin machine basic rest
      rw [onward] at read
      have kinds := (Prod.mk.inj (Option.some.inj read)).1
      cases basic <;> first | rfl | cases kinds
  | layer native known ran => exact absurd signed.symm (Layer.sign?_ne known).2.2.1
  | named native names direct ran mentioned =>
      subst signed
      cases mentioned.sign_eq <;> contradiction
  | known | classRef | function => cases signed

omit telling formed in
theorem variadic_append_inj {variadic variadic' : Bool}
    (ends : ∀ letter ∈ rest.head?, letter = 'E') (ends' : ∀ letter ∈ rest'.head?, letter = 'E')
    (same : Token.write (Plan.parameterEnd variadic false) ++ rest =
      Token.write (Plan.parameterEnd variadic' false) ++ rest') :
    variadic = variadic' ∧ rest = rest' := by
  have apart {rest further : List Char} (ends : ∀ letter ∈ rest.head?, letter = 'E') :
      rest ≠ 'z' :: further := by
    rintro rfl
    cases ends 'z' rfl
  cases variadic with
  | false =>
      cases variadic' with
      | false => exact ⟨rfl, same⟩
      | true => exact absurd same (apart ends)
  | true =>
      cases variadic' with
      | false => exact absurd same.symm (apart ends')
      | true => exact ⟨rfl, (List.cons.inj same).2⟩

/-- Parameters are not read as the end of an empty list. -/
theorem listed_ne_empty {first : Passing × TypeTree} {others : List (Passing × TypeTree)}
    {variadic : Bool} (told : ParamTold graph first) {tokens : List Token}
    (ran : (Script.concat
      ((first :: others).map (Plan.parameter graph (Plan.settled order machine)))).run table =
        .ok (tokens, last)) :
    Token.write tokens ++ rest ≠ Token.write (Plan.parameterEnd variadic true) ++ rest' := by
  intro same
  obtain ⟨_, _, _, begun, -, rfl⟩ := Script.run_append ran
  have written := parameter_run begun
  rw [Token.write_append, List.append_assoc] at same
  cases variadic with
  | true =>
      have ends : Ends ('z' :: rest') := by simp [Ends]
      exact type_ne_end telling formed told.held written ends same
  | false =>
      have void := isVoid_of_run telling formed told.held written same
      rw [told.visible] at void
      cases void

theorem parameters_read {params params' : List (Passing × TypeTree)} {variadic variadic' : Bool}
    (step : InStep table table')
    (legible : ∀ param ∈ params, Legible graph machine order (TypeTree.parameter param) .outermost)
    (each : ∀ param ∈ params, ParamTold graph param)
    (each' : ∀ param ∈ params', ParamTold graph param)
    {tokens tokens' : List Token}
    (ran : ((Plan.settled order machine).parameters graph params variadic).run table =
      .ok (tokens, last))
    (ran' : ((Plan.settled order machine).parameters graph params' variadic').run table' =
      .ok (tokens', last'))
    (ends : ∀ letter ∈ rest.head?, letter = 'E') (ends' : ∀ letter ∈ rest'.head?, letter = 'E')
    (same : Token.write tokens ++ rest = Token.write tokens' ++ rest') :
    variadic = variadic' ∧
      params.map (fun param => (TypeTree.parameter param).normal) =
        params'.map (fun param => (TypeTree.parameter param).normal) ∧
      rest = rest' ∧ InStep last last' := by
  obtain ⟨listed, _, ending, begun, closed, rfl⟩ := Script.run_append ran
  obtain ⟨listed', _, ending', begun', closed', rfl⟩ := Script.run_append ran'
  cases closed
  cases closed'
  simp only [Token.write_append, List.append_assoc] at same
  have letters {variadic : Bool} {rest : List Char} (ends : ∀ letter ∈ rest.head?, letter = 'E') :
      Ends (Token.write (Plan.parameterEnd variadic false) ++ rest) := by
    cases variadic with
    | true => simp [Plan.parameterEnd, Token.write, Token.chars, Ends]
    | false => exact fun letter first => ends letter first ▸ List.mem_cons_self
  cases params with
  | nil =>
      cases params' with
      | nil =>
          cases begun
          cases begun'
          cases variadic <;> cases variadic' <;> cases same <;> exact ⟨rfl, rfl, rfl, step⟩
      | cons first' others' =>
          cases begun
          exact absurd same.symm
            (listed_ne_empty telling formed (each' first' List.mem_cons_self) begun')
  | cons first others =>
      cases params' with
      | nil =>
          cases begun'
          exact absurd same
            (listed_ne_empty telling formed (each first List.mem_cons_self) begun)
      | cons first' others' =>
          obtain ⟨alike, left, further⟩ := listed_read telling formed step legible each each'
            begun begun' (letters ends) (letters ends') same
          obtain ⟨rfl, onward⟩ := variadic_append_inj ends ends' left
          exact ⟨rfl, alike, onward, further⟩

/-! ## Types -/

/-- The mark of C linkage can be told from the result type behind it. -/
theorem external_append_inj {external external' : Prop} [Decidable external] [Decidable external']
    {tree other : TypeTree} {place : Place}
    (held : (LinkName.Item.type tree place : Item).Held graph)
    (held' : (LinkName.Item.type other place : Item).Held graph) {tokens tokens' : List Token}
    (ran : (Plan.settled order machine (.type tree place)).run table = .ok (tokens, last))
    (ran' : (Plan.settled order machine (.type other place)).run table' = .ok (tokens', last'))
    (same : (if external then ['Y'] else []) ++ (Token.write tokens ++ rest) =
      (if external' then ['Y'] else []) ++ (Token.write tokens' ++ rest')) :
    (external ↔ external') ∧ Token.write tokens ++ rest = Token.write tokens' ++ rest' := by
  have ends (further : List Char) : Ends ('Y' :: further) := by simp [Ends]
  by_cases known : external <;> by_cases known' : external' <;>
    simp only [known, known', if_true, if_false] at same
  · exact ⟨iff_of_true known known', (List.cons.inj same).2⟩
  · exact absurd same.symm (type_ne_end telling formed held' ran' (ends _))
  · exact absurd same (type_ne_end telling formed held ran (ends _))
  · exact ⟨iff_of_false known known', same⟩

theorem function_read {result other : TypeTree} {params : List (Passing × TypeTree)}
    {convention : Convention} {quals : Qualifiers} {place place' : Place} {middle : Table Key}
    (step : InStep table table')
    {resultTokens tokens : List Token} {mark : Bool} {chars : List Char}
    (told : (TypeTree.function result params convention quals).Told graph)
    (held : (LinkName.Item.type (.function result params convention quals) place : Item).Held graph)
    (returns : Legible graph machine order (.returned convention result) .nested)
    (takes : ∀ param ∈ params, Legible graph machine order (TypeTree.parameter param) .outermost)
    (told' : other.Told graph) (held' : (LinkName.Item.type other place' : Item).Held graph)
    (ran : (Plan.settled order machine (.type (.returned convention result) .nested)).run table =
      .ok (resultTokens, middle))
    (further : ((Plan.settled order machine).parameters graph params convention.variadic).run middle =
      .ok (tokens, last))
    (written : Written graph machine order place' table' other last' mark .function chars)
    (same : 'F' :: ((if convention.linkage = .c then ['Y'] else []) ++
      (Token.write resultTokens ++ (Token.write tokens ++ ['E']))) ++ rest = chars ++ rest') :
    (TypeTree.function result params convention quals).normal = other.normal ∧ rest = rest' ∧
      InStep (last.push (.type (.function result params convention quals))).2 last' := by
  generalize signed : Sign.function = sign at written
  cases written with
  | @function result' params' convention' quals' _ _ _ _ ran' further' =>
      have heldResult := (Item.below_parts formed order held _ List.mem_cons_self).1
      have heldResult' := (Item.below_parts formed order held' _ List.mem_cons_self).1
      have each := paramTold_of_function formed order told held
      have each' := paramTold_of_function formed order told' held'
      cases told' with
      | function _ _ toldResult' _ _ =>
      simp only [List.cons_append, List.append_assoc, List.cons.injEq, true_and] at same
      obtain ⟨external, behind⟩ :=
        external_append_inj telling formed heldResult heldResult' ran ran' same
      obtain ⟨results, onward, between⟩ :=
        returns (toldResult'.returned convention') heldResult' step ran ran' behind
      obtain ⟨variadics, listed, left, done⟩ := parameters_read telling formed between takes each
        each' further further' (by simp) (by simp) onward
      have normal : (TypeTree.function result params convention quals).normal =
          (TypeTree.function result' params' convention' quals').normal := by
        have pairs := congrArg (List.map fun tree => (Passing.value, tree)) listed
        simp only [List.map_map, Function.comp_def] at pairs
        rw [TypeTree.normal_function, TypeTree.normal_function, results, pairs]
        simp only [Convention.normal, variadics, external]
      exact ⟨normal, (List.cons.inj left).2, done.push (congrArg Key.type normal)⟩
  | layer native known ran => exact absurd signed.symm (Layer.sign?_ne known).2.2.2
  | named native names direct ran mentioned =>
      subst signed
      cases mentioned.sign_eq <;> contradiction
  | known | basic | classRef => cases signed

theorem type_legible {tree : TypeTree} {place : Place} (told : tree.Told graph)
    (held : (LinkName.Item.type tree place : Item).Held graph) :
    Legible graph machine order tree place := by
  refine LinkName.Item.induction (Item.descends formed) order (motive := fun item =>
    ∀ tree place, item = .type tree place → tree.Told graph → Legible graph machine order tree place)
    ?_ held tree place rfl told
  rintro _ held parts tree place rfl told other table table' last last' tokens tokens' rest rest'
    told' held' step ran ran' same
  obtain ⟨mark, sign, chars, written, whole⟩ := type_written telling formed held ran
  obtain ⟨mark', sign', chars', written', whole'⟩ := type_written telling formed held' ran'
  rw [whole, whole', List.append_assoc, List.append_assoc] at same
  obtain ⟨rfl, onward⟩ :=
    Sign.mark_append_inj (written.opens.append _) (written'.opens.append _) same
  obtain rfl := (written.opens.append rest).sign_eq (onward ▸ written'.opens.append rest')
  cases written with
  | known stored =>
      obtain ⟨normal, left, rfl⟩ := known_read step stored written' onward
      exact ⟨normal, left, step⟩
  | basic basic native => exact basic_read step native written' onward
  | layer native known below =>
      cases told with
      | layer around quals toldInner =>
          have heldInner := (Item.below_parts formed order held _ List.mem_cons_self).1
          have legible := parts _ List.mem_cons_self _ _ rfl toldInner
          exact layer_read telling formed step legible toldInner heldInner told' held' native known
            below written' onward
  | named native typed direct mentions mentioned =>
      cases told with
      | named quals names =>
          exact named_read telling formed step native (names.resolve_left typed) told' mentions
            mentioned written' onward
  | classRef native mentions mentioned =>
      cases told with
      | named quals names =>
          exact classRef_read telling formed step native (names.resolve_left (by rintro ⟨⟩)) told' held'
            mentions mentioned written' onward
  | @function _ _ convention _ _ _ _ _ returns takes =>
      have whole := told
      cases told with
      | function _ _ toldResult each voids =>
      refine function_read telling formed step whole held
        (parts _ List.mem_cons_self _ _ rfl (toldResult.returned convention)) ?_ told' held' returns
        takes written' onward
      intro param listed
      exact parts _ (List.mem_cons_of_mem _ (List.mem_map_of_mem listed)) _ _ rfl
        (each param listed).parameter

end

end LinkName.Itanium
