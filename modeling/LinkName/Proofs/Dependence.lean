import LinkName.Naming
import LinkName.Proofs.Graph.Construction
import LinkName.Proofs.Itanium.Dependence
import LinkName.Proofs.Microsoft.Dependence

/-!
What of a target a name depends on. Two targets give the same names throughout exactly when they
answer alike what the family asks, three questions in the Itanium family and two in the Microsoft
family: one declaration that mentions an integer, a float and a pointer shows every answer in its
name.
-/
namespace LinkName

/-- `void measure(long, real, void *)`, with 64 bits in the integer and 80 in the float. -/
def measure : Graph where
  symbols :=
    [{ ident := "app", sort := .moduleScope },
      { ident := "measure", parent := some ⟨0⟩, sort := .function { type := ⟨4⟩ } }]
  types :=
    [{ form := .basic .void }, { form := .basic .int64 }, { form := .basic .float80 },
      { form := .pointer ⟨0⟩ },
      { form :=
          .function
            { result := ⟨0⟩, params := [{ type := ⟨1⟩ }, { type := ⟨2⟩ }, { type := ⟨3⟩ }] } }]

/-- Graphs that can be built are enough to tell targets apart. -/
theorem measure_built : measure.Built :=
  Graph.built_of_takeAll?
    [.symbol { ident := "app", sort := .moduleScope }, .type { form := .basic .void },
      .type { form := .basic .int64 }, .type { form := .basic .float80 },
      .type { form := .pointer ⟨0⟩ },
      .type
        { form :=
            .function
              { result := ⟨0⟩, params := [{ type := ⟨1⟩ }, { type := ⟨2⟩ }, { type := ⟨3⟩ }] } },
      .symbol { ident := "measure", parent := some ⟨0⟩, sort := .function { type := ⟨4⟩ } }] rfl

namespace Itanium

/-- What Itanium names are answered comes to three booleans. -/
theorem itaniumFacts_cases (target : Target) :
    ∃ longIs64 realIsQuad underscored : Bool,
      target.itaniumFacts =
        { abi := .itanium, pointerBits := 64, longBits := if longIs64 then 64 else 32,
          realSize := if realIsQuad then 16 else 8, realPadding := 0, machO := underscored } :=
  ⟨target.longBits == 64, target.realSize - target.realPadding == 16, target.machO, rfl⟩

theorem name_measure (target : Target) :
    name measure target ⟨1⟩ =
      .ok (target.lead ++ "7measure" ++ builtin target .int64 ++ builtin target .float80 ++
        "Pv") := by
  have alike := Alike.facts target
  rw [alike.name_eq, alike.lead_eq, alike.builtin_eq, alike.builtin_eq]
  obtain ⟨longIs64, realIsQuad, underscored, same⟩ := itaniumFacts_cases target
  rw [same]
  cases longIs64 <;> cases realIsQuad <;> cases underscored <;> decide +kernel

/-- The name of `measure` shows every answer that this family is given. -/
theorem alike_of_measure {target target' : Target}
    (same : name measure target ⟨1⟩ = name measure target' ⟨1⟩) : Alike target target' := by
  rw [(Alike.facts target).name_eq, (Alike.facts target').name_eq, name_measure, name_measure,
    Except.ok.injEq] at same
  rw [← Alike.facts_eq_iff]
  obtain ⟨longIs64, realIsQuad, underscored, facts⟩ := itaniumFacts_cases target
  obtain ⟨longIs64', realIsQuad', underscored', facts'⟩ := itaniumFacts_cases target'
  rw [facts, facts'] at same ⊢
  clear facts facts'
  revert same longIs64 realIsQuad underscored longIs64' realIsQuad' underscored'
  decide +kernel

end Itanium

namespace Microsoft

theorem microsoftFacts_cases (target : Target) :
    ∃ (dialect : Dialect) (wide : Bool),
      target.microsoftFacts =
        { abi := .microsoft dialect, pointerBits := if wide then 64 else 32, longBits := 32,
          realSize := 8, realPadding := 0 } :=
  ⟨target.dialect?.getD .modern, target.is64Bit, rfl⟩

theorem name_measure (target : Target) :
    name measure target ⟨1⟩ =
      .ok (if target.isLegacy then
          if target.is64Bit then "?measure@@YAX_J_ZPEAX@Z" else "?measure@@YAX_J_ZPAX@Z"
        else if target.is64Bit then "?measure@@YAX_J_TPEAX@Z" else "?measure@@YAX_J_TPAX@Z") := by
  have alike := Alike.facts target
  rw [alike.name_eq, alike.legacy_eq, alike.wide_eq]
  obtain ⟨dialect, wide, same⟩ := microsoftFacts_cases target
  rw [same]
  cases dialect <;> cases wide <;> decide +kernel

/-- The name of `measure` shows every answer that this family is given. -/
theorem alike_of_measure {target target' : Target}
    (same : name measure target ⟨1⟩ = name measure target' ⟨1⟩) : Alike target target' := by
  rw [(Alike.facts target).name_eq, (Alike.facts target').name_eq, name_measure, name_measure,
    Except.ok.injEq] at same
  rw [← Alike.facts_eq_iff]
  obtain ⟨dialect, wide, facts⟩ := microsoftFacts_cases target
  obtain ⟨dialect', wide', facts'⟩ := microsoftFacts_cases target'
  rw [facts, facts'] at same ⊢
  clear facts facts'
  revert same
  cases dialect <;> cases dialect' <;> revert wide wide' <;> decide +kernel

end Microsoft

/-- Two targets give the same names and refusals to the symbols of every graph if and only if they
agree on the facts that the family of names reads. Whatever else a target says about itself, its own
family of names included, shows in no name. -/
theorem nameFor_eq_nameFor_iff (target target' : Target) :
    ((∀ graph id, Itanium.nameFor graph target id = Itanium.nameFor graph target' id) ↔
      (target.longBits = 64 ↔ target'.longBits = 64) ∧
        (target.realSize - target.realPadding = 16 ↔
          target'.realSize - target'.realPadding = 16) ∧
        target.machO = target'.machO) ∧
    ((∀ graph id, Microsoft.nameFor graph target id = Microsoft.nameFor graph target' id) ↔
      target.dialect?.getD .modern = target'.dialect?.getD .modern ∧
        (target.pointerBits = 64 ↔ target'.pointerBits = 64)) := by
  constructor
  · constructor
    · intro same
      obtain ⟨long, real, underscored⟩ := Itanium.alike_of_measure (same measure ⟨1⟩)
      exact ⟨long, real, underscored⟩
    · rintro ⟨long, real, underscored⟩ graph id
      exact Itanium.Alike.name_eq ⟨long, real, underscored⟩ graph id
  · constructor
    · intro same
      obtain ⟨dialect, pointers⟩ := Microsoft.alike_of_measure (same measure ⟨1⟩)
      exact ⟨dialect, pointers⟩
    · rintro ⟨dialect, pointers⟩ graph id
      exact Microsoft.Alike.name_eq ⟨dialect, pointers⟩ graph id

end LinkName
