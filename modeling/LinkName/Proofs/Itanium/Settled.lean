import LinkName.Proofs.Itanium.Refinement
import LinkName.Proofs.Itanium.Transport

/-!
The plan that all deep enough plans come to. It is a fixed point: the script of an item is made from
the scripts that the same plan has for its parts. What holds of an item as soon as it holds of its
parts holds of all items.
-/
namespace LinkName.Itanium

namespace Plan

variable {graph : Graph} {plan plan' : Plan} {machine : Target}

/-- The script of an item depends on those of its parts alone. -/
theorem item_congr (formed : graph.WellFormed) {item : Item} (held : item.Held graph)
    (same : ∀ part ∈ Item.parts graph item, plan part = plan' part) :
    plan.item graph machine item = plan'.item graph machine item := by
  have carried := item_relabel machine (.refl graph) formed formed held
    (.of_eq Script.relabel_id same)
  rw [LinkName.Item.relabel_id] at carried
  exact (carried.trans (Script.relabel_id _)).symm

theorem declaration_congr (formed : graph.WellFormed) {id : SymbolId}
    (held : graph.Holds (.symbol id))
    (same : ∀ part ∈ Item.ofDeclaration graph id, plan part = plan' part) :
    plan.declaration graph machine id = plan'.declaration graph machine id := by
  have carried := declaration_relabel machine (.refl graph) formed formed held
    (.of_eq Script.relabel_id same)
  exact (carried.trans (Script.relabel_id _)).symm

theorem mention_congr (formed : graph.WellFormed) {id : SymbolId} (held : graph.Holds (.symbol id))
    (same : ∀ part ∈ Item.ofMention graph id, plan part = plan' part) :
    plan.mention graph id = plan'.mention graph id := by
  have carried := mention_relabel (.refl graph) formed formed held
    (.of_eq Script.relabel_id same)
  exact (carried.trans (Script.relabel_id _)).symm

/-- More depth than an item needs changes nothing. -/
theorem within_stable (formed : graph.WellFormed) (order : graph.Order) (machine : Target) {item : Item}
    (held : item.Held graph) {depth more : Nat} (deep : item.need order < depth)
    (deeper : item.need order < more) :
    within graph machine depth item = within graph machine more item :=
  LinkName.Item.stable (Item.descends formed) order
    (fun _ _ _ held same => item_congr formed held same) held deep deeper

def settled (order : graph.Order) (machine : Target) : Plan := fun item =>
  within graph machine (item.need order + 1) item

theorem within_eq_settled (formed : graph.WellFormed) (order : graph.Order) {item : Item}
    (held : item.Held graph) {depth : Nat} (deep : item.need order < depth) :
    within graph machine depth item = settled order machine item :=
  within_stable formed order machine held deep (Nat.lt_succ_self _)

theorem settled_eq (formed : graph.WellFormed) (order : graph.Order) {item : Item}
    (held : item.Held graph) :
    settled order machine item = (settled order machine).item graph machine item := by
  refine item_congr formed held fun part listed => ?_
  obtain ⟨heldPart, less⟩ := Item.below_parts formed order held part listed
  exact within_eq_settled formed order heldPart less

/-- Eight times the rank of a declaration is deep enough for it. -/
theorem declaration_settled (formed : graph.WellFormed) (order : graph.Order) {id : SymbolId}
    (held : graph.Holds (.symbol id)) {depth : Nat}
    (deep : 8 * order.rank (.symbol id) ≤ depth) :
    (within graph machine depth).declaration graph machine id =
      (settled order machine).declaration graph machine id := by
  refine declaration_congr formed held fun part listed => ?_
  obtain ⟨heldPart, less⟩ := Item.below_ofDeclaration formed order id part listed
  exact within_eq_settled formed order heldPart (less.trans_le deep)

end Plan

/-- The outcome of an encoder is that of the settled script. -/
theorem outcome_eq_run {graph : Graph} (formed : graph.WellFormed) (order : graph.Order)
    (machine : Target) {id : SymbolId} (held : graph.Holds (.symbol id)) (limit : Option Nat) :
    Encoder.outcome (encode machine id : Encoder graph (List Token)) { limit } =
      Prod.fst <$> ((Plan.settled order machine).declaration graph machine id).run { limit } := by
  rw [outcome_encode formed machine held, Plan.declaration_settled formed order held
    (Encoder.rank_le_depthBound order held)]
  rfl

end LinkName.Itanium
