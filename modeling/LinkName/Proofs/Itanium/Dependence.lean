import LinkName.Itanium.Name

/-!
What Itanium names ask of a target: whether `long` has 64 bits, whether a `long double` has sixteen
bytes without its padding, and whether symbols carry an underscore. The questions are asked in the
codes of builtin types, before the name of a function or a variable and in an alias argument, at any
depth. Two encoders whose targets answer them alike take every step alike, so their tables, what
they have derived and what they refuse stay the same.
-/
namespace LinkName.Itanium

/-- The targets answer alike what Itanium names ask. -/
structure Alike (target target' : Target) : Prop where
  long : target.longBits = 64 ↔ target'.longBits = 64
  real : target.realSize - target.realPadding = 16 ↔ target'.realSize - target'.realPadding = 16
  underscored : target.machO = target'.machO

namespace Alike

theorem lead_eq {target target' : Target} (alike : Alike target target') :
    target.lead = target'.lead := by
  simp only [Target.lead, alike.underscored]

theorem facts (target : Target) : Alike target target.itaniumFacts where
  long := by simp [Target.itaniumFacts]
  real := by simp [Target.itaniumFacts]
  underscored := rfl

theorem facts_eq_iff {target target' : Target} :
    target.itaniumFacts = target'.itaniumFacts ↔ Alike target target' := by
  constructor
  · intro same
    refine ⟨?_, ?_, ?_⟩
    · rw [(facts target).long, same, ← (facts target').long]
    · rw [(facts target).real, same, ← (facts target').real]
    · rw [(facts target).underscored, same, ← (facts target').underscored]
  · intro alike
    simp only [Target.itaniumFacts, beq_iff_eq, alike.long, alike.real, alike.underscored]

variable {graph : Graph} {target target' : Target} (alike : Alike target target')
variable (parts : Encoding graph)
include alike

/-! ## Steps -/

theorem builtin_eq (basic : BasicType) : builtin target basic = builtin target' basic := by
  cases basic <;> simp only [builtin, beq_iff_eq, alike.long, alike.real]

theorem basicType_eq (id : TypeId) (node : TypeNode) (basic : BasicType) :
    (basicType target id node basic : Encoder graph (List Token)) =
      basicType target' id node basic := by
  simp only [basicType, alike.builtin_eq]

theorem type_eq : type target parts = type target' parts := by
  funext id place
  simp only [type, alike.basicType_eq]

theorem variableName_eq : variableName target parts = variableName target' parts := by
  funext asArgument id
  simp only [variableName, freeVariable, alike.lead_eq, alike.underscored]

theorem functionName_eq : functionName target parts = functionName target' parts := by
  funext id
  simp only [functionName, alike.lead_eq]

theorem argument_eq : argument target parts = argument target' parts := by
  funext owner arg
  simp only [argument, alike.functionName_eq, alike.variableName_eq]

/-! ## Runs -/

/-- However deep the parts are nested, all of them are written alike. -/
theorem encoding_eq (depth : Nat) :
    (encoding target depth : Encoding graph) = encoding target' depth := by
  induction depth with
  | zero => rfl
  | succ depth ih => simp only [encoding, ih, alike.argument_eq, alike.type_eq]

theorem encode_eq (id : SymbolId) :
    (encode target id : Encoder graph (List Token)) = encode target' id := by
  simp only [encode, alike.encoding_eq, alike.variableName_eq, alike.functionName_eq]

theorem name_eq (graph : Graph) (id : SymbolId) : name graph target id = name graph target' id := by
  simp only [name, alike.encode_eq]

end Alike

end LinkName.Itanium
