import LinkName.Proofs.Itanium.Refusals
import LinkName.Proofs.Microsoft.Refusals
import LinkName.Naming

/-!
Compression and refusals. A table that takes no entries finds nothing, so an encoder that starts with
one writes everything out. Neither family refuses more, less or anything else for having tables.
-/
namespace LinkName

/-- With its tables or with tables that never find anything, an encoder either names the symbol or
refuses it for the same reason. -/
theorem discard_outcome_of_built {graph : Graph} (built : graph.Built)
    (general : graph.SpecializesTemplates) (apart : graph.TemplatesApart) (target : Target)
    (dialect : Dialect) {id : SymbolId} (held : graph.Holds (.symbol id)) :
    Functor.discard (Encoder.outcome
        (Itanium.encode target id : Itanium.Encoder graph _) Table.unbounded) =
      Functor.discard (Encoder.outcome
        (Itanium.encode target id : Itanium.Encoder graph _) (Table.bounded 0)) ∧
    Functor.discard (Encoder.outcome
        (Microsoft.encode { target with abi := .microsoft dialect } id : Microsoft.Encoder graph _)
        (Microsoft.Tables.bounded 10)) =
      Functor.discard (Encoder.outcome
        (Microsoft.encode { target with abi := .microsoft dialect } id : Microsoft.Encoder graph _)
        (Microsoft.Tables.bounded 0)) :=
  have proper : graph.ProperTemplates := ⟨built.sound.copies, general, apart⟩
  ⟨Itanium.discard_outcome_encode built.wellFormed proper target held none (some 0),
    Microsoft.discard_outcome_encode built.wellFormed _ held 10 0⟩

/-- Two functions that take a specialization. One of them also takes a pointer to a type that C++
does not have. -/
def pairs : Graph where
  symbols :=
    [{ ident := "app", sort := .moduleScope },
      { ident := "Pair", parent := some ⟨0⟩, sort := .template none },
      { ident := "Pair", parent := some ⟨0⟩, sort := .specialization ⟨1⟩ [.type ⟨0⟩] },
      { ident := "swap", parent := some ⟨0⟩, sort := .function { type := ⟨3⟩ } },
      { ident := "join", parent := some ⟨0⟩, sort := .function { type := ⟨6⟩ } }]
  types :=
    [{ form := .basic .int32 }, { form := .basic .void }, { form := .record ⟨2⟩ },
      { form := .function { result := ⟨1⟩, params := [{ type := ⟨2⟩ }, { type := ⟨2⟩ }] } },
      { form := .dynamicArray ⟨2⟩ }, { form := .pointer ⟨4⟩ },
      { form := .function { result := ⟨1⟩, params := [{ type := ⟨2⟩ }, { type := ⟨5⟩ }] } }]

theorem pairs_built : pairs.Built :=
  Graph.built_of_takeAll?
    [.symbol { ident := "app", sort := .moduleScope }, .type { form := .basic .int32 },
      .type { form := .basic .void },
      .symbol { ident := "Pair", parent := some ⟨0⟩, sort := .template none },
      .specialization ⟨1⟩ [.type ⟨0⟩], .type { form := .record ⟨2⟩ },
      .type { form := .function { result := ⟨1⟩, params := [{ type := ⟨2⟩ }, { type := ⟨2⟩ }] } },
      .type { form := .dynamicArray ⟨2⟩ }, .type { form := .pointer ⟨4⟩ },
      .type { form := .function { result := ⟨1⟩, params := [{ type := ⟨2⟩ }, { type := ⟨5⟩ }] } },
      .symbol { ident := "swap", parent := some ⟨0⟩, sort := .function { type := ⟨3⟩ } },
      .symbol { ident := "join", parent := some ⟨0⟩, sort := .function { type := ⟨6⟩ } }] rfl

theorem pairs_specializesTemplates : pairs.SpecializesTemplates := by
  rintro ⟨_ | _ | _ | _ | _ | index⟩ symbol template stored special <;> cases stored <;>
    cases special
  exact ⟨_, none, rfl, rfl⟩

theorem pairs_templatesApart : pairs.TemplatesApart := by
  rintro ⟨_ | _ | _ | _ | _ | index⟩ symbol member parent outer stored sort inside known <;>
    cases stored <;> cases sort
  cases inside
  cases known
  rfl

theorem discard_outcome_of_pairs :
    Itanium.nameFor pairs .itanium64 ⟨3⟩ = .ok "_Z4swap4PairIiES0_" ∧
      (Itanium.nameFor pairs .itanium64 ⟨4⟩).isOk = false ∧
      Functor.discard (Encoder.outcome
          (Itanium.encode Target.itanium64 ⟨4⟩ : Itanium.Encoder pairs _)
          Table.unbounded) =
        Functor.discard (Encoder.outcome
          (Itanium.encode Target.itanium64 ⟨4⟩ : Itanium.Encoder pairs _)
          (Table.bounded 0)) :=
  ⟨by decide +kernel, by decide +kernel,
    (discard_outcome_of_built pairs_built pairs_specializesTemplates pairs_templatesApart .itanium64
      .modern (show pairs.Holds (.symbol ⟨4⟩) by decide)).1⟩

end LinkName
