import LinkName.Microsoft.Name

/-!
What Microsoft names ask of a target: which dialect it speaks, the modern one if it has none, and
whether its pointers have 64 bits. The questions are asked wherever a type, a level of a name or a
calling convention is written, at any depth. Two encoders whose targets answer them alike take every
step alike, so both of their tables, what they have derived and what they refuse stay the same.
-/
namespace LinkName

/-- The target that answers what Microsoft names ask as `target` does, and all else as a common
one. -/
def Target.microsoftFacts (target : Target) : Target where
  abi := .microsoft (target.dialect?.getD .modern)
  pointerBits := if target.is64Bit then 64 else 32
  longBits := 32
  realSize := 8
  realPadding := 0

namespace Microsoft

/-- The targets answer alike what Microsoft names ask. -/
structure Alike (target target' : Target) : Prop where
  dialect : target.dialect?.getD .modern = target'.dialect?.getD .modern
  pointers : target.pointerBits = 64 ↔ target'.pointerBits = 64

namespace Alike

theorem facts (target : Target) : Alike target target.microsoftFacts where
  dialect := rfl
  pointers := by simp [Target.microsoftFacts, Target.is64Bit]

theorem facts_eq_iff {target target' : Target} :
    target.microsoftFacts = target'.microsoftFacts ↔ Alike target target' := by
  constructor
  · intro same
    refine ⟨?_, ?_⟩
    · rw [(facts target).dialect, same, ← (facts target').dialect]
    · rw [(facts target).pointers, same, ← (facts target').pointers]
  · intro alike
    simp only [Target.microsoftFacts, Target.is64Bit, alike.dialect, Bool.beq_eq_decide_eq,
      alike.pointers]

variable {graph : Graph} {target target' : Target} (alike : Alike target target')
variable (parts : Encoding graph)
include alike

theorem legacy_eq : target.isLegacy = target'.isLegacy := by
  simp only [Target.isLegacy, alike.dialect]

theorem wide_eq : target.is64Bit = target'.is64Bit :=
  Bool.eq_iff_iff.mpr (by simpa [Target.is64Bit] using alike.pointers)

/-! ## Codes -/

theorem builtin?_eq (basic : BasicType) : builtin? target basic = builtin? target' basic := by
  cases basic <;> simp only [builtin?, alike.legacy_eq]

theorem convention?_eq : convention? target = convention? target' := by
  funext linkage isMember
  simp only [convention?, alike.wide_eq]

theorem width_eq : width target = width target' := by simp only [width, alike.wide_eq]

theorem modifier_eq : modifier target = modifier target' := by
  funext node place
  simp only [modifier, alike.legacy_eq]

/-! ## Levels -/

theorem levelName_eq : levelName target parts = levelName target' parts := by
  funext spelledOut id
  simp only [levelName, specializationName, repeatedScope, alike.legacy_eq]

theorem levelNames_eq : levelNames target parts = levelNames target' parts := by
  funext spelledOut id
  simp only [levelNames, alike.levelName_eq]

theorem qualifiedName_eq : qualifiedName target parts = qualifiedName target' parts := by
  funext id
  simp only [qualifiedName, alike.levelNames_eq]

/-! ## Types -/

theorem array_eq : array target parts = array target' parts := by
  funext id place
  simp only [array, alike.modifier_eq]

theorem pointee_eq : pointee target parts = pointee target' parts := by
  funext id place
  simp only [pointee, alike.array_eq]

theorem functionType_eq : functionType target parts = functionType target' parts := by
  funext id needsThis isStructor
  simp only [functionType, alike.convention?_eq]

theorem pointer_eq : pointer target parts = pointer target' parts := by
  funext id pointed node place
  simp only [pointer, alike.functionType_eq, alike.modifier_eq, alike.legacy_eq, alike.width_eq,
    alike.array_eq]

theorem basicType_eq (id : TypeId) (node : TypeNode) (basic : BasicType) (place : Place) :
    (basicType target id node basic place : Encoder graph (List Token)) =
      basicType target' id node basic place := by
  simp only [basicType, alike.builtin?_eq, alike.modifier_eq, alike.legacy_eq]

theorem enumeration_eq : enumeration target parts = enumeration target' parts := by
  funext id node symbol base place
  simp only [enumeration, alike.modifier_eq, alike.qualifiedName_eq]

theorem classType_eq : classType target parts = classType target' parts := by
  funext node symbol place
  simp only [classType, alike.modifier_eq, alike.width_eq, alike.qualifiedName_eq]

theorem type_eq : type target parts = type target' parts := by
  funext id place
  simp only [type, alike.basicType_eq, alike.legacy_eq, alike.pointee_eq, alike.pointer_eq,
    alike.width_eq, alike.modifier_eq, alike.qualifiedName_eq, alike.enumeration_eq,
    alike.classType_eq]

/-! ## Declarations -/

theorem functionName_eq : functionName target parts = functionName target' parts := by
  funext id
  simp only [functionName, placement, alike.qualifiedName_eq, alike.width_eq,
    alike.functionType_eq]

theorem variableName_eq : variableName target parts = variableName target' parts := by
  funext id
  simp only [variableName, variableEnd, alike.qualifiedName_eq, alike.width_eq]

theorem argument_eq : argument target parts = argument target' parts := by
  funext owner arg
  simp only [argument, aliasLetter?, alike.functionName_eq, alike.variableName_eq, alike.legacy_eq,
    alike.qualifiedName_eq]

/-! ## Runs -/

/-- However deep the parts are nested, all of them are written alike. -/
theorem encoding_eq (depth : Nat) :
    (encoding target depth : Encoding graph) = encoding target' depth := by
  induction depth with
  | zero => rfl
  | succ depth ih =>
      simp only [encoding, ih, alike.levelNames_eq, alike.argument_eq, alike.type_eq]

theorem encode_eq (id : SymbolId) :
    (encode target id : Encoder graph (List Token)) = encode target' id := by
  simp only [encode, alike.encoding_eq, alike.variableName_eq, alike.functionName_eq]

theorem name_eq (graph : Graph) (id : SymbolId) : name graph target id = name graph target' id := by
  simp only [name, alike.encode_eq]

end Alike

end Microsoft

end LinkName
