import LinkName.Proofs.Item
import LinkName.Proofs.Type.Derivation
import Mathlib.Algebra.Group.Int.Defs
import Mathlib.Algebra.Group.Nat.Defs

/-!
Numbers of bounded width. Handles have 32 bits, dimensions of arrays 64, and the values of template
arguments 128. Whatever is written as a number is then below `2 ^ 128`.
-/
namespace LinkName

/-- The dimension of an array. -/
def TypeForm.dim : TypeForm → Nat
  | .staticArray dim _ => dim
  | _ => 0

/-- The value of an argument that has one. -/
def TemplateArg.number? : TemplateArg → Option Int
  | .value _ number => some number
  | _ => none

/-- The values among the arguments of a specialization. -/
def Symbol.numbers (symbol : Symbol) : List Int :=
  match symbol.sort with
  | .specialization _ args => (TemplateArg.leavesOf args).filterMap TemplateArg.number?
  | _ => []

/-- Everything in the graph has the width that is set aside for it. -/
structure Graph.Representable (graph : Graph) : Prop where
  symbols : graph.symbols.length ≤ UInt32.size
  types : graph.types.length ≤ UInt32.size
  dims : ∀ node ∈ graph.types, node.form.dim < UInt64.size
  numbers : ∀ symbol ∈ graph.symbols, ∀ number ∈ symbol.numbers,
    -2 ^ 127 ≤ number ∧ number < 2 ^ 127

/-- The magnitude of a value has 128 bits in whatever type the value is read. -/
theorem BasicType.magnitude_lt (basic : BasicType) {number : Int} (low : -2 ^ 127 ≤ number)
    (high : number < 2 ^ 127) : (basic.signMagnitude number).2 < 2 ^ 128 := by
  unfold BasicType.signMagnitude
  split
  · exact (BitVec.ofInt 128 number).isLt
  · split
    · exact (BitVec.ofInt 64 number).isLt.trans (by decide)
    · dsimp only
      omega

/-! ## Dimensions -/

namespace Overlay

variable {graph : Graph} {overlay : Overlay graph}

theorem shapeWithin_dims (modest : overlay.Modest) (representable : graph.Representable)
    {fuel : Nat} {id base : TypeId} {dims : List Nat}
    (shaped : overlay.shapeWithin fuel id = .ok (dims, base)) :
    dims.length ≤ fuel ∧ ∀ dim ∈ dims, dim < UInt64.size := by
  induction fuel generalizing id dims with
  | zero => cases shaped
  | succ fuel ih =>
      unfold Overlay.shapeWithin at shaped
      cases found : overlay.type id with
      | error fault => simp [found, bind, Except.bind] at shaped
      | ok node =>
          obtain ⟨form, quals⟩ := node
          simp only [found, bind, Except.bind] at shaped
          cases form with
          | staticArray dim element =>
              cases inner : overlay.shapeWithin fuel element with
              | error fault => simp [inner] at shaped
              | ok shape =>
                  obtain ⟨rest, last⟩ := shape
                  simp only [inner, pure, Except.pure] at shaped
                  cases shaped
                  obtain ⟨short, small⟩ := ih inner
                  obtain ⟨general, listed, same⟩ := modest.exists_array found
                  have head := representable.dims general listed
                  rw [same] at head
                  exact ⟨Nat.succ_le_succ short, List.forall_mem_cons.mpr ⟨head, small⟩⟩
          | _ =>
              cases shaped
              exact ⟨Nat.zero_le _, by simp⟩

/-- The dimensions of an array, and how many there are. -/
theorem shape_dims (modest : overlay.Modest) (sound : overlay.Sound)
    (representable : graph.Representable) {id base : TypeId} {dims : List Nat}
    (shaped : overlay.shape id = .ok (dims, base)) :
    dims.length < 2 ^ 128 ∧ ∀ dim ∈ dims, dim < 2 ^ 128 := by
  obtain ⟨short, small⟩ := shapeWithin_dims modest representable shaped
  have symbols := representable.symbols
  have types := representable.types
  have derived := modest.length_le sound
  simp only [reach, UInt32.size] at short symbols types
  exact ⟨by omega, fun dim listed => (small dim listed).trans (by decide)⟩

end Overlay

/-! ## Arguments -/

namespace Item

variable {π : Type} {graph : Graph}

/-- A value argument is one that can be represented. -/
def Representable : Item π → Prop
  | .argument _ arg => ∀ number ∈ arg.number?, -2 ^ 127 ≤ number ∧ number < 2 ^ 127
  | .scope _ | .type _ _ => True

theorem value_mem_leavesOf {args : List TemplateArg} {type : TypeId} {number : Int}
    (listed : .value type number ∈ args) : .value type number ∈ TemplateArg.leavesOf args := by
  induction args with
  | nil => cases listed
  | cons first rest ih =>
      rcases List.mem_cons.mp listed with rfl | listed
      · exact List.mem_append_left _ (by simp [TemplateArg.leaves])
      · exact List.mem_append_right _ (ih listed)

theorem value_mem_leaves {owner : SymbolId} {args : List TemplateArg} {type : TypeId} {number : Int}
    (listed : (.argument owner (.value type number) : Item π) ∈ ofArguments owner args) :
    .value type number ∈ TemplateArg.leavesOf args := by
  induction args with
  | nil => cases listed
  | cons first rest ih =>
      cases first with
      | pack inner =>
          rcases List.mem_append.mp listed with packed | listed
          · obtain ⟨arg, known, same⟩ := List.mem_map.mp packed
            cases same
            exact List.mem_append_left _ (value_mem_leavesOf known)
          · exact List.mem_append_right _ (ih listed)
      | _ =>
          rcases List.mem_cons.mp listed with same | listed
          · cases same <;> exact List.mem_append_left _ (by simp [TemplateArg.leaves])
          · exact List.mem_append_right _ (ih listed)

theorem representable_ofName (representable : graph.Representable) {id : SymbolId} :
    ∀ part ∈ (ofName graph id : List (Item π)), part.Representable := by
  intro part listed
  unfold ofName at listed
  split at listed
  · next ident parent access template args stored =>
    obtain ⟨arg, rfl⟩ := eq_argument_of_mem listed
    cases arg with
    | value type number =>
        rintro _ ⟨⟩
        have symbol := List.mem_of_getElem? (Graph.symbol_eq_ok_iff.mp stored)
        refine representable.numbers _ symbol _ ?_
        exact List.mem_filterMap.mpr ⟨_, value_mem_leaves listed, rfl⟩
    | _ => rintro _ ⟨⟩
  · cases listed

end Item

end LinkName
