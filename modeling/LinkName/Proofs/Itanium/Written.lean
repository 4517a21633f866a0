import LinkName.Proofs.Itanium.Paths

/-!
What is written for a type. Its first character, behind the mark of `const`, says which kind of type
it is, and the parts that follow are written by runs of their own.
-/
namespace LinkName

namespace Layer

/-- What a layer that C++ has is written with. -/
def opening : Layer → List Char
  | .pointer => ['P']
  | .reference => ['R']
  | .staticArray dim => 'A' :: (Numeral.decimal dim ++ ['_'])
  | .vector => ['U', '8', '_', '_', 'v', 'e', 'c', 't', 'o', 'r']
  | .dynamicArray | .delegate => []

def sign? : Layer → Option Itanium.Sign
  | .pointer => some .pointer
  | .reference => some .reference
  | .staticArray _ => some .array
  | .vector => some .vector
  | .dynamicArray | .delegate => none

/-- Whether `const` is marked before the layer. -/
def marks (around : Layer) (isConst : Bool) : Bool := isConst && decide (around ≠ .reference)

variable {around around' : Layer} {sign : Itanium.Sign} {rest rest' : List Char}

theorem write_itaniumLead {isConst : Bool} {lead : List Itanium.Token}
    (led : around.itaniumLead? isConst = some lead) :
    Itanium.Token.write lead = (if around.marks isConst then ['K'] else []) ++ around.opening ∧
      ∃ sign, around.sign? = some sign := by
  cases around <;> cases led <;> cases isConst <;> exact ⟨rfl, _, rfl⟩

theorem sign?_ne (known : around.sign? = some sign) :
    sign ≠ .slot ∧ sign ≠ .name ∧ sign ≠ .basic ∧ sign ≠ .function := by
  cases around <;> cases known <;> simp

theorem opens_opening (known : around.sign? = some sign) : sign.Opens around.opening := by
  cases around <;> cases known <;> exact ⟨_, _, rfl, rfl⟩

theorem opening_append_inj (known : around.sign? = some sign) (known' : around'.sign? = some sign)
    (same : around.opening ++ rest = around'.opening ++ rest') :
    around = around' ∧ rest = rest' := by
  match around, around', known.trans known'.symm with
  | .pointer, .pointer, _ | .reference, .reference, _ | .vector, .vector, _ =>
      exact ⟨rfl, List.append_cancel_left same⟩
  | .staticArray dim, .staticArray dim', _ =>
      simp only [opening, List.cons_append, List.append_assoc, List.nil_append, List.cons.injEq,
        true_and] at same
      obtain ⟨rfl, left⟩ := Numeral.decimal_append_inj (by simp) (by simp) same
      exact ⟨rfl, (List.cons.inj left).2⟩
  | .dynamicArray, _, _ | .delegate, _, _ => cases known

end Layer

namespace Itanium

theorem opens_builtin (machine : Target) (basic : BasicType) :
    Sign.basic.Opens (builtin machine basic).toList := by
  cases basic <;> simp only [builtin] <;> (try split) <;> exact ⟨_, _, rfl, rfl⟩

/-- The builtin type that a text starts with, and what follows it. -/
def readBuiltin : List Char → Option (BasicType × List Char)
  | 'v' :: rest => some (.void, rest)
  | 'b' :: rest => some (.bool, rest)
  | 'c' :: rest => some (.char, rest)
  | 't' :: rest => some (.uint16, rest)
  | 'w' :: rest => some (.dchar, rest)
  | 'a' :: rest => some (.int8, rest)
  | 'h' :: rest => some (.uint8, rest)
  | 's' :: rest => some (.int16, rest)
  | 'i' :: rest => some (.int32, rest)
  | 'j' :: rest => some (.uint32, rest)
  | 'l' :: rest | 'x' :: rest => some (.int64, rest)
  | 'm' :: rest | 'y' :: rest => some (.uint64, rest)
  | 'n' :: rest => some (.int128, rest)
  | 'o' :: rest => some (.uint128, rest)
  | 'f' :: rest => some (.float32, rest)
  | 'd' :: rest => some (.float64, rest)
  | 'g' :: rest | 'e' :: rest => some (.float80, rest)
  | 'G' :: 'f' :: rest => some (.imaginary32, rest)
  | 'G' :: 'd' :: rest => some (.imaginary64, rest)
  | 'G' :: 'e' :: rest => some (.imaginary80, rest)
  | 'C' :: 'f' :: rest => some (.complex32, rest)
  | 'C' :: 'd' :: rest => some (.complex64, rest)
  | 'C' :: 'e' :: rest => some (.complex80, rest)
  | _ => none

theorem readBuiltin_builtin (machine : Target) (basic : BasicType) (rest : List Char) :
    readBuiltin ((builtin machine basic).toList ++ rest) = some (basic.normal, rest) := by
  cases basic <;> simp only [builtin] <;> (try split) <;> rfl

theorem builtin_append_inj {machine : Target} {basic basic' : BasicType} {rest rest' : List Char}
    (same : (builtin machine basic).toList ++ rest = (builtin machine basic').toList ++ rest') :
    basic.normal = basic'.normal ∧ rest = rest' := by
  have read := readBuiltin_builtin machine basic rest
  rw [same, readBuiltin_builtin] at read
  obtain ⟨kinds, left⟩ := Prod.mk.inj (Option.some.inj read)
  exact ⟨kinds.symm, left.symm⟩

variable {graph : Graph} {machine : Target} {order : graph.Order}

/-- What a run writes for a type behind the mark of `const`, if any. -/
inductive Written (graph : Graph) (machine : Target) (order : graph.Order) (place : Place)
    (table : Table Key) : TypeTree → Table Key → Bool → Sign → List Char → Prop
  | known {tree : TypeTree} {slot : Nat} (stored : table.entries[slot]? = some (.type tree)) :
      Written graph machine order place table tree table false .slot (slotChars slot)
  | basic (basic : BasicType) {quals : Qualifiers}
      (native : (TypeTree.basic basic quals).isForeign = false) :
      Written graph machine order place table (.basic basic quals)
        (if isExtended basic || quals.isConst then (table.push (.type (.basic basic quals))).2
          else table)
        quals.isConst .basic (builtin machine basic).toList
  | layer {around : Layer} {inner : TypeTree} {quals : Qualifiers} {sign : Sign}
      {tokens : List Token} {last : Table Key}
      (native : (TypeTree.layer around inner quals).isForeign = false)
      (known : around.sign? = some sign)
      (ran : (Plan.settled order machine (.type inner .nested)).run table = .ok (tokens, last)) :
      Written graph machine order place table (.layer around inner quals)
        (last.push (.type (.layer around inner quals))).2 (around.marks quals.isConst) sign
        (around.opening ++ Token.write tokens)
  | named {naming : Naming} {symbol : SymbolId} {quals : Qualifiers} {sign : Sign}
      {tokens : List Token} {last : Table Key}
      (native : (TypeTree.named naming symbol quals).isForeign = false)
      (names : naming ≠ .typedef) (direct : naming ≠ .classRef)
      (ran : ((Plan.settled order machine).mention graph symbol).run table = .ok (tokens, last))
      (mentioned : Mentioned graph table symbol sign (Token.write tokens)) :
      Written graph machine order place table (.named naming symbol quals)
        (if quals.isConst then (last.push (.type (.named naming symbol quals))).2 else last)
        quals.isConst sign (Token.write tokens)
  | classRef {symbol : SymbolId} {quals : Qualifiers} {sign : Sign} {tokens : List Token}
      {last : Table Key} (native : (TypeTree.named .classRef symbol quals).isForeign = false)
      (ran : ((Plan.settled order machine).mention graph symbol).run table = .ok (tokens, last))
      (mentioned : Mentioned graph table symbol sign (Token.write tokens)) :
      Written graph machine order place table (.named .classRef symbol quals)
        ((if quals.isConst then (last.push .unnamed).2 else last).push
          (.type (.named .classRef symbol quals))).2
        (decide (place = .nested) && quals.isConst) .pointer
        ('P' :: ((if quals.isConst then ['K'] else []) ++ Token.write tokens))
  | function {result : TypeTree} {params : List (Passing × TypeTree)} {convention : Convention}
      {quals : Qualifiers} {resultTokens tokens : List Token} {middle last : Table Key}
      (ran : (Plan.settled order machine (.type (.returned convention result) .nested)).run table =
        .ok (resultTokens, middle))
      (further : ((Plan.settled order machine).parameters graph params convention.variadic).run
        middle = .ok (tokens, last)) :
      Written graph machine order place table (.function result params convention quals)
        (last.push (.type (.function result params convention quals))).2 false .function
        ('F' :: ((if convention.linkage = .c then ['Y'] else []) ++
          (Token.write resultTokens ++ (Token.write tokens ++ ['E']))))

theorem write_constMark (isConst : Bool) :
    Token.write (Plan.constMark isConst) = if isConst then ['K'] else [] := by
  cases isConst <;> rfl

theorem write_singleton (token : Token) : Token.write [token] = token.chars :=
  List.flatMap_singleton ..

section

variable (telling : graph.Telling) (formed : graph.WellFormed)
include telling formed

theorem namedType_written {naming : Naming} {symbol : SymbolId} {quals : Qualifiers} {place : Place}
    (native : (TypeTree.named naming symbol quals).isForeign = false)
    (held : graph.Holds (.symbol symbol)) {table last : Table Key} {tokens : List Token}
    (ran : ((Plan.settled order machine).namedType graph naming symbol quals place).run table =
      .ok (tokens, last)) :
    ∃ mark sign chars,
      Written graph machine order place table (.named naming symbol quals) last mark sign chars ∧
      Token.write tokens = (if mark then ['K'] else []) ++ chars := by
  cases naming with
  | record | enumeration base =>
      rcases Script.run_orRef ran with ⟨slot, hit, rfl, rfl⟩ | ⟨-, inner⟩
      · exact ⟨_, _, _, .known (Table.getElem?_of_find? hit), write_singleton _⟩
      · obtain ⟨middle, body, rfl⟩ := Script.run_thenStoreIf inner
        obtain ⟨name, mentions, rfl⟩ := Script.run_write_append body
        obtain ⟨sign, mentioned⟩ := mention_run telling.plain telling.idents formed held mentions
        refine ⟨_, _, _, .named native (by rintro ⟨⟩) (by rintro ⟨⟩) mentions mentioned, ?_⟩
        rw [Token.write_append, write_constMark]
  | classRef =>
      rcases Script.run_compound ran with ⟨slot, hit, rfl, rfl⟩ | ⟨middle, inner, rfl⟩
      · exact ⟨_, _, _, .known hit, write_singleton _⟩
      · obtain ⟨between, body, rfl⟩ := Script.run_thenStoreIf inner
        obtain ⟨name, mentions, rfl⟩ := Script.run_write_append body
        obtain ⟨sign, mentioned⟩ := mention_run telling.plain telling.idents formed held mentions
        refine ⟨_, _, _, .classRef native mentions mentioned, ?_⟩
        simp only [Token.write_append, write_constMark, write_singleton]
        cases place <;> cases quals.isConst <;> rfl
  | typedef => cases ran

theorem type_written {tree : TypeTree} {place : Place}
    (held : (LinkName.Item.type tree place : Item).Held graph) {table last : Table Key}
    {tokens : List Token}
    (ran : (Plan.settled order machine (.type tree place)).run table = .ok (tokens, last)) :
    ∃ mark sign chars, Written graph machine order place table tree last mark sign chars ∧
      Token.write tokens = (if mark then ['K'] else []) ++ chars := by
  rw [Plan.settled_eq formed order held] at ran
  change (Plan.type graph machine _ tree place).run table = _ at ran
  unfold Plan.type at ran
  split at ran
  · cases ran
  next foreign =>
  have native : tree.isForeign = false := by simpa using foreign
  cases tree with
  | basic basic quals =>
      have whole : Token.write (Plan.constMark quals.isConst ++ [.text (builtin machine basic)]) =
          (if quals.isConst then ['K'] else []) ++ (builtin machine basic).toList := by
        rw [Token.write_append, write_constMark, write_singleton]
        rfl
      have written : Written graph machine order place table (.basic basic quals) _ _ _ _ :=
        .basic basic native
      simp only [Plan.basicType] at ran
      split at ran
      next stores =>
        rw [if_pos stores] at written
        rcases Script.run_orRef ran with ⟨slot, hit, rfl, rfl⟩ | ⟨-, inner⟩
        · exact ⟨_, _, _, .known (Table.getElem?_of_find? hit), write_singleton _⟩
        · cases inner
          exact ⟨_, _, _, written, whole⟩
      next bare =>
        rw [if_neg bare] at written
        cases ran
        exact ⟨_, _, _, written, whole⟩
  | layer around inner quals =>
      simp only at ran
      cases led : around.itaniumLead? quals.isConst with
      | none =>
          rw [led] at ran
          cases ran
      | some lead =>
          rw [led] at ran
          rcases Script.run_compound ran with ⟨slot, hit, rfl, rfl⟩ | ⟨middle, body, rfl⟩
          · exact ⟨_, _, _, .known hit, write_singleton _⟩
          · obtain ⟨parts, below, rfl⟩ := Script.run_write_append body
            obtain ⟨whole, sign, known⟩ := Layer.write_itaniumLead led
            refine ⟨_, _, _, .layer native known below, ?_⟩
            rw [Token.write_append, whole, List.append_assoc]
  | named naming symbol quals =>
      exact namedType_written telling formed native (held symbol List.mem_cons_self) ran
  | assocArray key value quals => cases ran
  | function result params convention quals =>
      rcases Script.run_compound ran with ⟨slot, hit, rfl, rfl⟩ | ⟨middle, body, rfl⟩
      · exact ⟨_, _, _, .known hit, write_singleton _⟩
      · obtain ⟨_, inner, rfl⟩ := Script.run_write_append body
        obtain ⟨resultTokens, between, _, returns, rest, rfl⟩ := Script.run_append inner
        obtain ⟨listed, _, ending, takes, closing, rfl⟩ := Script.run_append rest
        cases closing
        refine ⟨_, _, _, .function returns takes, ?_⟩
        split <;> simp_all [Token.write, Token.chars]

end

theorem Written.opens {tree : TypeTree} {place : Place} {table last : Table Key} {mark : Bool}
    {sign : Sign} {chars : List Char}
    (written : Written graph machine order place table tree last mark sign chars) :
    sign.Opens chars := by
  cases written with
  | known stored => exact ⟨'S', _, rfl, rfl⟩
  | basic basic native => exact opens_builtin machine basic
  | layer native known ran => exact (Layer.opens_opening known).append _
  | named native names direct ran mentioned => exact mentioned.opens
  | classRef native ran mentioned => exact ⟨'P', _, rfl, rfl⟩
  | function ran further => exact ⟨'F', _, rfl, rfl⟩

end Itanium

end LinkName
