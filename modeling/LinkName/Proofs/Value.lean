import LinkName.Naming
import LinkName.Proofs.Graph.Width
import LinkName.Proofs.Readers
import LinkName.Proofs.Simulation

/-!
The integers of value arguments. Itanium names write the integer as a decimal numeral behind the
type, Microsoft names as a number of their own kind, and both stand for the same integer. Where the
type contains the value, that is the value itself. Otherwise an unsigned type reads a residue of it,
which need not be one that the type contains.
-/
namespace LinkName

namespace BasicType

/-- How wide the values of an integral type are. -/
def bits : BasicType → Nat
  | .bool => 1
  | .char | .int8 | .uint8 => 8
  | .wchar | .int16 | .uint16 => 16
  | .dchar | .int32 | .uint32 => 32
  | .int64 | .uint64 => 64
  | .int128 | .uint128 => 128
  | _ => 0

/-- How many bits of a value an unsigned type reads. -/
def patternBits (basic : BasicType) : Nat := if basic = .uint128 then 128 else 64

/-- What an unsigned type reads of a value. -/
def pattern (basic : BasicType) (number : Int) : Nat := (number % 2 ^ basic.patternBits).toNat

/-- Whether an integral type contains the value. -/
def Contains (basic : BasicType) (number : Int) : Prop :=
  if basic.isUnsigned then 0 ≤ number ∧ number < 2 ^ basic.bits
  else -2 ^ (basic.bits - 1) ≤ number ∧ number < 2 ^ (basic.bits - 1)

/-- The integer with the given sign and magnitude. -/
def signed (value : Bool × Nat) : Int := if value.1 then -value.2 else value.2

variable {basic : BasicType}

theorem bits_le_patternBits (unsigned : basic.isUnsigned = true) :
    basic.bits ≤ basic.patternBits := by
  cases basic <;> first | decide | cases unsigned

theorem signMagnitude_of_isUnsigned (unsigned : basic.isUnsigned = true) (number : Int) :
    basic.signMagnitude number = (false, basic.pattern number) := by
  unfold signMagnitude pattern patternBits
  split
  · rw [BitVec.toNat_ofInt]
    rfl
  · rw [BitVec.toNat_ofInt]
    rfl

theorem coe_pattern (basic : BasicType) (number : Int) :
    (basic.pattern number : Int) = number % 2 ^ basic.patternBits :=
  Int.toNat_of_nonneg (Int.emod_nonneg number (Int.pow_pos (by decide)).ne')

theorem pattern_lt (basic : BasicType) (number : Int) :
    basic.pattern number < 2 ^ basic.patternBits := by
  have less : (basic.pattern number : Int) < 2 ^ basic.patternBits := by
    rw [coe_pattern]
    exact Int.emod_lt_of_pos number (Int.pow_pos (by decide))
  exact_mod_cast less

theorem pattern_eq_iff {number other : Int} : basic.pattern number = basic.pattern other ↔
    number % 2 ^ basic.patternBits = other % 2 ^ basic.patternBits := by
  rw [← coe_pattern, ← coe_pattern, Int.natCast_inj]

/-- What is read is the residue modulo the width of the type only if the type contains it. -/
theorem pattern_eq_emod_iff (unsigned : basic.isUnsigned = true) (number : Int) :
    (basic.pattern number : Int) = number % 2 ^ basic.bits ↔
      basic.pattern number < 2 ^ basic.bits := by
  have narrow : (2 : Int) ^ basic.bits ∣ 2 ^ basic.patternBits := by
    exact_mod_cast Nat.pow_dvd_pow 2 (bits_le_patternBits unsigned)
  have same : (basic.pattern number : Int) % 2 ^ basic.bits = number % 2 ^ basic.bits := by
    rw [coe_pattern, Int.emod_emod_of_dvd _ narrow]
  constructor
  · intro reduced
    have less : (basic.pattern number : Int) < 2 ^ basic.bits := by
      rw [reduced]
      exact Int.emod_lt_of_pos number (Int.pow_pos (by decide))
    exact_mod_cast less
  · intro less
    have less : (basic.pattern number : Int) < 2 ^ basic.bits := by exact_mod_cast less
    rw [← same, Int.emod_eq_of_lt (Int.natCast_nonneg _) less]

/-- A value that the type contains is written as it is. -/
theorem signed_signMagnitude {number : Int} (contains : basic.Contains number) :
    signed (basic.signMagnitude number) = number := by
  unfold Contains at contains
  split at contains
  · next unsigned =>
    have room : (2 : Int) ^ basic.bits ≤ 2 ^ basic.patternBits := by
      exact_mod_cast Nat.pow_le_pow_right (by decide) (bits_le_patternBits unsigned)
    rw [signMagnitude_of_isUnsigned unsigned]
    exact (coe_pattern basic number).trans
      (Int.emod_eq_of_lt contains.1 (contains.2.trans_le room))
  · next signed' =>
    have other : basic ≠ .uint128 := by
      rintro rfl
      exact signed' rfl
    rw [signMagnitude, if_neg other, if_neg signed', signed]
    by_cases negative : number < 0
    · simp only [negative, decide_true, if_true]
      omega
    · simp only [negative, decide_false, Bool.false_eq_true, if_false]
      omega

end BasicType

/-- The values of the type are those of a builtin type: it is that type or an enumeration over it. -/
def Graph.HasValues (graph : Graph) (type : TypeId) (basic : BasicType) : Prop :=
  graph.type type = .ok { form := .basic basic } ∨
    ∃ symbol, graph.type type = .ok { form := .enumeration symbol basic }

/-- The node of a type with integral values. -/
theorem Graph.HasValues.node {graph : Graph} {type : TypeId} {basic : BasicType}
    (typed : graph.HasValues type basic) (integral : basic.isIntegral = true) :
    ∃ node, graph.type type = .ok node ∧ node.form.integral? = some basic := by
  rcases typed with stored | ⟨symbol, stored⟩
  · exact ⟨_, stored, if_pos integral⟩
  · exact ⟨_, stored, if_pos integral⟩

section

variable (graph : Graph) (owner : SymbolId) (type : TypeId) (number : Int) (value : Bool × Nat)

/-- The argument is written as `L`, the type, and a numeral that is read as the integer, whatever
has been written before and whatever follows. -/
def Itanium.WritesValue : Prop :=
  ∃ numeral : List Itanium.Token,
    (∀ (machine : Target) (parts : Itanium.Encoding graph) session,
      (Itanium.argument machine parts owner (.value type number)).run session =
        (parts.type type .nested >>= fun written =>
          pure (.text "L" :: written ++ numeral)).run session) ∧
    ∀ rest, Itanium.readValue (Itanium.Token.write numeral ++ rest) = some (value, rest)

/-- The argument is written as a number that is read as the integer, whatever has been written
before and whatever follows, and nothing is recorded. -/
def Microsoft.WritesValue : Prop :=
  ∃ numeral : List Microsoft.Token,
    (∀ (machine : Target) (parts : Microsoft.Encoding graph) session,
      (Microsoft.argument machine parts owner (.value type number)).run session =
        .ok numeral session) ∧
    ∀ rest, Microsoft.readValue (Microsoft.Token.write numeral ++ rest) = some (value, rest)

end

variable {graph : Graph} {owner : SymbolId} {type : TypeId} {basic : BasicType} {number : Int}

/-! ## What the encoders write -/

namespace Itanium

theorem run_argument_value (typed : graph.HasValues type basic)
    (integral : basic.isIntegral = true) (machine : Target) (parts : Encoding graph)
    (session : Session graph (Table Component)) :
    (argument machine parts owner (.value type number)).run session =
      (parts.type type .nested >>= fun written =>
        pure (.text "L" :: written ++ (literal basic number ++ [.text "E"]))).run session := by
  obtain ⟨node, stored, same⟩ := typed.node integral
  unfold argument
  rw [Encoder.run_type_bind (Overlay.type_of_graph stored)]
  simp only [same, List.cons_append, List.nil_append, List.append_assoc]

theorem writesValue (typed : graph.HasValues type basic) (integral : basic.isIntegral = true)
    (owner : SymbolId) (number : Int) :
    WritesValue graph owner type number (basic.signMagnitude number) :=
  ⟨_, run_argument_value typed integral, readValue_literal basic number⟩

/-- There is one integer that an argument is read as. -/
theorem WritesValue.unique {value value' : Bool × Nat}
    (writes : WritesValue graph owner type number value)
    (also : WritesValue graph owner type number value') : value = value' := by
  obtain ⟨numeral, written, reads⟩ := writes
  obtain ⟨numeral', written', reads'⟩ := also
  let parts : Encoding graph :=
    { scope := fun _ => pure [], argument := fun _ _ => pure [], type := fun _ _ => pure [] }
  let machine := Target.itanium64
  have same := (written machine parts { tables := Table.unbounded }).symm.trans
    (written' machine parts { tables := Table.unbounded })
  obtain ⟨tokens, -⟩ := EStateM.Result.ok.inj same
  obtain rfl : numeral = numeral' := (List.cons.inj tokens).2
  exact congrArg Prod.fst (Option.some.inj ((reads []).symm.trans (reads' [])))

/-- An unqualified builtin type is written wherever it stands. -/
theorem run_type_basic (stored : graph.type type = .ok { form := .basic basic })
    (integral : basic.isIntegral = true) (machine : Target) (depth : Nat)
    (session : Session graph (Table Component)) :
    ((encoding machine (depth + 1)).type type .nested).run session =
      .ok [.text (builtin machine basic)] session := by
  have plain : isExtended basic = false := by cases basic <;> first | rfl | cases integral
  simp only [encoding, Itanium.type]
  rw [Encoder.run_type_bind (Overlay.type_of_graph stored)]
  simp only [basicType, plain]
  rfl

end Itanium

namespace Microsoft

theorem run_argument_value (typed : graph.HasValues type basic)
    (integral : basic.isIntegral = true) (machine : Target) (parts : Encoding graph)
    (session : Session graph Tables) :
    (argument machine parts owner (.value type number)).run session =
      .ok (.text "$0" :: literal basic number) session := by
  obtain ⟨node, stored, same⟩ := typed.node integral
  unfold argument
  rw [Encoder.run_type_bind (Overlay.type_of_graph stored)]
  simp only [same]
  rfl

theorem writesValue (typed : graph.HasValues type basic) (integral : basic.isIntegral = true)
    (owner : SymbolId) (number : Int) :
    WritesValue graph owner type number (basic.signMagnitude number) :=
  ⟨_, run_argument_value typed integral, readValue_literal basic number⟩

theorem WritesValue.unique {value value' : Bool × Nat}
    (writes : WritesValue graph owner type number value)
    (also : WritesValue graph owner type number value') : value = value' := by
  obtain ⟨numeral, written, reads⟩ := writes
  obtain ⟨numeral', written', reads'⟩ := also
  let parts : Encoding graph :=
    { scope := fun _ => pure [], argument := fun _ _ => pure [], type := fun _ _ => pure [] }
  let machine := Target.microsoft64
  have same := (written machine parts { tables := Tables.bounded 10 }).symm.trans
    (written' machine parts { tables := Tables.bounded 10 })
  obtain rfl : numeral = numeral' := (EStateM.Result.ok.inj same).1
  exact congrArg Prod.fst (Option.some.inj ((reads []).symm.trans (reads' [])))

end Microsoft

/-- Both families write the same integer for a value argument of an integral type, in every place;
and if the type contains the value, it is the value. -/
theorem value_arguments_agree (typed : graph.HasValues type basic)
    (integral : basic.isIntegral = true) (owner : SymbolId) (number : Int) :
    (∃ value, Itanium.WritesValue graph owner type number value ∧
      Microsoft.WritesValue graph owner type number value ∧
      (basic.Contains number → BasicType.signed value = number)) ∧
    (graph.type type = .ok { form := .basic basic } →
      ∀ machine depth (session : Session graph (Table Itanium.Component)),
        ((Itanium.encoding machine (depth + 1)).type type .nested).run session =
          .ok [.text (Itanium.builtin machine basic)] session) :=
  ⟨⟨basic.signMagnitude number, Itanium.writesValue typed integral owner number,
      Microsoft.writesValue typed integral owner number, BasicType.signed_signMagnitude⟩,
    fun stored => Itanium.run_type_basic stored integral⟩

/-- `void low(Cell!(cent, -2 ^ 127), Cell!(Mode, 65535))`, where `Mode` is an enumeration over
`ushort`. -/
def extremes : Graph where
  symbols :=
    [{ ident := "app", sort := .moduleScope },
      { ident := "Mode", parent := some ⟨0⟩, sort := .enumeration },
      { ident := "Cell", parent := some ⟨0⟩, sort := .template none },
      { ident := "Cell", parent := some ⟨0⟩, sort := .specialization ⟨2⟩ [.value ⟨0⟩ (-2 ^ 127)] },
      { ident := "Cell", parent := some ⟨0⟩, sort := .specialization ⟨2⟩ [.value ⟨1⟩ 65535] },
      { ident := "low", parent := some ⟨0⟩, sort := .function { type := ⟨5⟩ } }]
  types :=
    [{ form := .basic .int128 }, { form := .enumeration ⟨1⟩ .uint16 }, { form := .basic .void },
      { form := .record ⟨3⟩ }, { form := .record ⟨4⟩ },
      { form := .function { result := ⟨2⟩, params := [{ type := ⟨3⟩ }, { type := ⟨4⟩ }] } }]

theorem extremes_built : extremes.Built :=
  Graph.built_of_takeAll?
    [.symbol { ident := "app", sort := .moduleScope },
      .symbol { ident := "Mode", parent := some ⟨0⟩, sort := .enumeration },
      .symbol { ident := "Cell", parent := some ⟨0⟩, sort := .template none },
      .type { form := .basic .int128 }, .type { form := .enumeration ⟨1⟩ .uint16 },
      .type { form := .basic .void }, .specialization ⟨2⟩ [.value ⟨0⟩ (-2 ^ 127)],
      .specialization ⟨2⟩ [.value ⟨1⟩ 65535], .type { form := .record ⟨3⟩ },
      .type { form := .record ⟨4⟩ },
      .type
        { form := .function { result := ⟨2⟩, params := [{ type := ⟨3⟩ }, { type := ⟨4⟩ }] } },
      .symbol { ident := "low", parent := some ⟨0⟩, sort := .function { type := ⟨5⟩ } }] rfl

theorem value_arguments_agree_low :
    extremes.Built ∧
    (∃ value, Itanium.WritesValue extremes ⟨3⟩ ⟨0⟩ (-2 ^ 127) value ∧
      Microsoft.WritesValue extremes ⟨3⟩ ⟨0⟩ (-2 ^ 127) value ∧
      BasicType.signed value = -2 ^ 127) ∧
    (∃ value, Itanium.WritesValue extremes ⟨4⟩ ⟨1⟩ 65535 value ∧
      Microsoft.WritesValue extremes ⟨4⟩ ⟨1⟩ 65535 value ∧ BasicType.signed value = 65535) ∧
    Itanium.nameFor extremes .itanium64 ⟨5⟩ =
      .ok "_Z3low4CellILnn170141183460469231731687303715884105728EES_IL4Mode65535EE" ∧
    Microsoft.nameFor extremes .microsoft64 ⟨5⟩ =
      .ok "?low@@YAXU?$Cell@$0?IAAAAAAAAAAAAAAAAAAAAAAAAAAAAAAA@@@U?$Cell@$0PPPP@@@@Z" := by
  obtain ⟨⟨least, itanium, microsoft, exact_least⟩, -⟩ :=
    value_arguments_agree (show extremes.HasValues ⟨0⟩ .int128 from .inl rfl) rfl ⟨3⟩ (-2 ^ 127)
  obtain ⟨⟨mode, itanium', microsoft', exact_mode⟩, -⟩ :=
    value_arguments_agree (show extremes.HasValues ⟨1⟩ .uint16 from .inr ⟨_, rfl⟩) rfl ⟨4⟩ 65535
  refine ⟨extremes_built, ⟨least, itanium, microsoft, exact_least ?_⟩,
    ⟨mode, itanium', microsoft', exact_mode ?_⟩, ?_, ?_⟩
  · exact ⟨le_rfl, by decide⟩
  · exact ⟨by decide, by decide⟩
  · decide +kernel
  · decide +kernel

/-! ## Unsigned types -/

/-- Both families write the same argument for two values. -/
def SameValueArgument (graph : Graph) (owner : SymbolId) (type : TypeId) (number other : Int) :
    Prop :=
  (∀ machine (parts : Itanium.Encoding graph),
    Itanium.argument machine parts owner (.value type number) =
      Itanium.argument machine parts owner (.value type other)) ∧
  ∀ machine (parts : Microsoft.Encoding graph),
    Microsoft.argument machine parts owner (.value type number) =
      Microsoft.argument machine parts owner (.value type other)

theorem sameValueArgument_iff (typed : graph.HasValues type basic)
    (integral : basic.isIntegral = true) {other : Int} :
    SameValueArgument graph owner type number other ↔
      basic.signMagnitude number = basic.signMagnitude other := by
  constructor
  · rintro ⟨-, microsoft⟩
    refine (Microsoft.writesValue typed integral owner number).unique ?_
    obtain ⟨numeral, written, reads⟩ := Microsoft.writesValue typed integral owner other
    exact ⟨numeral, fun machine parts session => by rw [microsoft, written], reads⟩
  · intro same
    have itanium : Itanium.literal basic number = Itanium.literal basic other := by
      rw [Itanium.literal, same, Itanium.literal]
    have microsoft : Microsoft.literal basic number = Microsoft.literal basic other := by
      rw [Microsoft.literal, same, Microsoft.literal]
    refine ⟨fun machine parts => ?_, fun machine parts => ?_⟩
    · funext session
      refine (Itanium.run_argument_value typed integral machine parts session).trans ?_
      rw [itanium]
      exact (Itanium.run_argument_value typed integral machine parts session).symm
    · funext session
      refine (Microsoft.run_argument_value typed integral machine parts session).trans ?_
      rw [microsoft]
      exact (Microsoft.run_argument_value typed integral machine parts session).symm

/-- An unsigned type reads the low 64 bits of a value, the widest one the low 128 bits, and both
families write what is read. That is the residue modulo the width of the type exactly if the type
contains it, as types of 64 and of 128 bits always do. Two values are written alike exactly if the
same is read of both. -/
theorem unsigned_value_arguments (typed : graph.HasValues type basic)
    (unsigned : basic.isUnsigned = true) (owner : SymbolId) (number : Int) :
    Itanium.WritesValue graph owner type number (false, basic.pattern number) ∧
      Microsoft.WritesValue graph owner type number (false, basic.pattern number) ∧
      ((basic.pattern number : Int) = number % 2 ^ basic.bits ↔
        basic.pattern number < 2 ^ basic.bits) ∧
      (basic = .uint64 ∨ basic = .uint128 → basic.pattern number < 2 ^ basic.bits) ∧
      ∀ other, SameValueArgument graph owner type number other ↔
        number % 2 ^ basic.patternBits = other % 2 ^ basic.patternBits := by
  have integral : basic.isIntegral = true := by rw [BasicType.isIntegral, unsigned, Bool.true_or]
  have value (number : Int) := BasicType.signMagnitude_of_isUnsigned unsigned number
  refine ⟨?_, ?_, BasicType.pattern_eq_emod_iff unsigned number, ?_, fun other => ?_⟩
  · exact value number ▸ Itanium.writesValue typed integral owner number
  · exact value number ▸ Microsoft.writesValue typed integral owner number
  · rintro (rfl | rfl) <;> exact BasicType.pattern_lt _ number
  · rw [sameValueArgument_iff typed integral, value, value, Prod.mk.injEq,
      BasicType.pattern_eq_iff]
    exact and_iff_right rfl

/-- `void set(Cell!(ubyte, 255))` and `void set(Cell!(ubyte, -1))`. -/
def octets : Graph where
  symbols :=
    [{ ident := "app", sort := .moduleScope },
      { ident := "Cell", parent := some ⟨0⟩, sort := .template none },
      { ident := "Cell", parent := some ⟨0⟩, sort := .specialization ⟨1⟩ [.value ⟨0⟩ 255] },
      { ident := "Cell", parent := some ⟨0⟩, sort := .specialization ⟨1⟩ [.value ⟨0⟩ (-1)] },
      { ident := "set", parent := some ⟨0⟩, sort := .function { type := ⟨4⟩ } },
      { ident := "set", parent := some ⟨0⟩, sort := .function { type := ⟨5⟩ } }]
  types :=
    [{ form := .basic .uint8 }, { form := .basic .void }, { form := .record ⟨2⟩ },
      { form := .record ⟨3⟩ },
      { form := .function { result := ⟨1⟩, params := [{ type := ⟨2⟩ }] } },
      { form := .function { result := ⟨1⟩, params := [{ type := ⟨3⟩ }] } }]

theorem octets_built : octets.Built :=
  Graph.built_of_takeAll?
    [.symbol { ident := "app", sort := .moduleScope },
      .symbol { ident := "Cell", parent := some ⟨0⟩, sort := .template none },
      .type { form := .basic .uint8 }, .type { form := .basic .void },
      .specialization ⟨1⟩ [.value ⟨0⟩ 255], .specialization ⟨1⟩ [.value ⟨0⟩ (-1)],
      .type { form := .record ⟨2⟩ }, .type { form := .record ⟨3⟩ },
      .type { form := .function { result := ⟨1⟩, params := [{ type := ⟨2⟩ }] } },
      .type { form := .function { result := ⟨1⟩, params := [{ type := ⟨3⟩ }] } },
      .symbol { ident := "set", parent := some ⟨0⟩, sort := .function { type := ⟨4⟩ } },
      .symbol { ident := "set", parent := some ⟨0⟩, sort := .function { type := ⟨5⟩ } }] rfl

theorem unsigned_value_arguments_set :
    Itanium.WritesValue octets ⟨2⟩ ⟨0⟩ 255 (false, 255) ∧
      Microsoft.WritesValue octets ⟨2⟩ ⟨0⟩ 255 (false, 255) ∧
      SameValueArgument octets ⟨2⟩ ⟨0⟩ 255 (255 + 2 ^ 64) ∧
      Itanium.nameFor octets .itanium64 ⟨4⟩ = .ok "_Z3set4CellILh255EE" ∧
      Microsoft.nameFor octets .microsoft64 ⟨4⟩ = .ok "?set@@YAXU?$Cell@$0PP@@@@Z" := by
  obtain ⟨itanium, microsoft, -, -, same⟩ :=
    unsigned_value_arguments (show octets.HasValues ⟨0⟩ .uint8 from .inl rfl) rfl ⟨2⟩ 255
  exact ⟨itanium, microsoft, (same _).mpr (by decide), by decide +kernel, by decide +kernel⟩

/-- Of `-1` the type of 8 bits reads 64 bits, more than it contains. The argument is not written as
`255`, which is the same value of that type. -/
theorem octets_read_beyond_width :
    octets.Built ∧ octets.HasValues ⟨0⟩ .uint8 ∧
      (-1 : Int) % 2 ^ BasicType.uint8.bits = 255 ∧
      ¬ Itanium.WritesValue octets ⟨3⟩ ⟨0⟩ (-1) (false, 255) ∧
      ¬ Microsoft.WritesValue octets ⟨3⟩ ⟨0⟩ (-1) (false, 255) ∧
      Itanium.nameFor octets .itanium64 ⟨4⟩ = .ok "_Z3set4CellILh255EE" ∧
      Itanium.nameFor octets .itanium64 ⟨5⟩ = .ok "_Z3set4CellILh18446744073709551615EE" ∧
      Microsoft.nameFor octets .microsoft64 ⟨4⟩ = .ok "?set@@YAXU?$Cell@$0PP@@@@Z" ∧
      Microsoft.nameFor octets .microsoft64 ⟨5⟩ =
        .ok "?set@@YAXU?$Cell@$0PPPPPPPPPPPPPPPP@@@@Z" := by
  have typed : octets.HasValues ⟨0⟩ .uint8 := .inl rfl
  have read : BasicType.uint8.signMagnitude (-1) ≠ (false, 255) := by decide
  refine ⟨octets_built, typed, by decide, fun writes => ?_, fun writes => ?_, by decide +kernel,
    by decide +kernel, by decide +kernel, by decide +kernel⟩
  · exact read ((Itanium.writesValue typed rfl ⟨3⟩ (-1)).unique writes)
  · exact read ((Microsoft.writesValue typed rfl ⟨3⟩ (-1)).unique writes)

end LinkName
