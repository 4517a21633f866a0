import LinkName.Naming
import LinkName.Proofs.Readers
import LinkName.Proofs.Simulation
import LinkName.Proofs.Type.Identity
import Mathlib.Data.List.Perm.Subperm

/-!
Dimensions as they are read back. Their count comes first, so a reader knows where they end, and each
number ends by itself. The dimensions written for an array are those of all the arrays nested in it,
outermost first.
-/
namespace LinkName

namespace Overlay

variable {graph : Graph} {overlay : Overlay graph}

/-! ## Nested arrays -/

/-- Arrays nested in one another: their dimensions, outermost first, and the type of the elements,
which is no array itself. -/
inductive Nests (overlay : Overlay graph) : TypeId → List Nat → TypeId → Prop where
  | element {id : TypeId} {node : TypeNode} (found : overlay.type id = .ok node)
      (other : node.form.isStaticArray = false) : Nests overlay id [] id
  | array {id element base : TypeId} {node : TypeNode} {dim : Nat} {dims : List Nat}
      (found : overlay.type id = .ok node) (form : node.form = .staticArray dim element)
      (inner : Nests overlay element dims base) : Nests overlay id (dim :: dims) base

namespace Nests

variable {id base : TypeId} {dims : List Nat}

theorem found (nests : overlay.Nests id dims base) : ∃ node, overlay.type id = .ok node := by
  cases nests with
  | element found _ | array found _ _ => exact ⟨_, found⟩

theorem mono {graph' : Graph} {later : Overlay graph'}
    (kept : ∀ id node, overlay.type id = .ok node → later.type id = .ok node)
    (nests : overlay.Nests id dims base) : later.Nests id dims base := by
  induction nests with
  | element found other => exact .element (kept _ _ found) other
  | array found form _ ih => exact .array (kept _ _ found) form ih

theorem unique {dims' : List Nat} {base' : TypeId} (nests : overlay.Nests id dims base)
    (also : overlay.Nests id dims' base') : dims = dims' ∧ base = base' := by
  induction nests generalizing dims' with
  | element found other =>
      cases also with
      | element => exact ⟨rfl, rfl⟩
      | array found' form _ =>
          obtain rfl := Except.ok.inj (found.symm.trans found')
          rw [form] at other
          cases other
  | array found form _ ih =>
      cases also with
      | element found' other =>
          obtain rfl := Except.ok.inj (found.symm.trans found')
          rw [form] at other
          cases other
      | array found' form' inner' =>
          obtain rfl := Except.ok.inj (found.symm.trans found')
          cases form.symm.trans form'
          obtain ⟨rfl, rfl⟩ := ih inner'
          exact ⟨rfl, rfl⟩

/-- The types on the way inwards. None of them comes twice, since fewer dimensions are left at each. -/
theorem exists_way (nests : overlay.Nests id dims base) :
    ∃ way : List TypeId, way.length = dims.length + 1 ∧ way.Nodup ∧
      ∀ other ∈ way, ∃ dims', dims'.length ≤ dims.length ∧ overlay.Nests other dims' base := by
  induction nests with
  | @element id node found other =>
      refine ⟨[id], rfl, List.nodup_singleton id, fun other listed => ?_⟩
      obtain rfl := List.mem_singleton.mp listed
      exact ⟨[], le_rfl, .element found ‹_›⟩
  | @array id element base node dim dims found form inner ih =>
      obtain ⟨way, length, nodup, inside⟩ := ih
      have whole := inner.array found form
      refine ⟨id :: way, congrArg Nat.succ length, List.nodup_cons.mpr ⟨fun again => ?_, nodup⟩,
        fun other listed => ?_⟩
      · obtain ⟨dims', fewer, nests'⟩ := inside id again
        obtain ⟨same, -⟩ := whole.unique nests'
        have lengths := congrArg List.length same
        rw [List.length_cons] at lengths
        omega
      · rcases List.mem_cons.mp listed with rfl | listed
        · exact ⟨_, le_rfl, whole⟩
        · obtain ⟨dims', fewer, nests'⟩ := inside other listed
          exact ⟨dims', fewer.trans (Nat.le_succ _), nests'⟩

theorem length_lt_reach (nests : overlay.Nests id dims base) : dims.length < overlay.reach := by
  obtain ⟨way, length, nodup, inside⟩ := nests.exists_way
  have indices : (way.map TypeId.index).Nodup :=
    nodup.map fun left right same => by cases left; cases right; exact congrArg TypeId.mk same
  have bounded : way.map TypeId.index ⊆
      List.range (graph.types.length + overlay.derived.length) := by
    intro index listed
    obtain ⟨other, known, rfl⟩ := List.mem_map.mp listed
    obtain ⟨dims', -, nests'⟩ := inside other known
    obtain ⟨node, found⟩ := nests'.found
    have stored := (List.getElem?_eq_some_iff.mp (type_eq_ok_iff.mp found)).1
    exact List.mem_range.mpr (by simpa using stored)
  have few := (indices.subperm bounded).length_le
  rw [List.length_map, List.length_range, length] at few
  unfold reach
  omega

theorem shapeWithin_eq (nests : overlay.Nests id dims base) :
    ∀ {fuel : Nat}, dims.length < fuel → overlay.shapeWithin fuel id = .ok (dims, base) := by
  induction nests with
  | @element id node found other =>
      rintro (_ | fuel) deep
      · exact absurd deep (Nat.not_lt_zero _)
      · simp only [shapeWithin, found, bind, Except.bind]
        split
        · next form =>
          rw [form] at other
          cases other
        · rfl
  | array found form _ ih =>
      rintro (_ | fuel) deep
      · exact absurd deep (Nat.not_lt_zero _)
      · simp only [shapeWithin, found, form, bind, Except.bind, pure, Except.pure,
          ih (Nat.lt_of_succ_lt_succ deep)]

theorem shape_eq (nests : overlay.Nests id dims base) : overlay.shape id = .ok (dims, base) :=
  nests.shapeWithin_eq nests.length_lt_reach

end Nests

/-- Any dimensions are those of some arrays. -/
theorem exists_nests (dims : List Nat) : ∃ graph : Graph, graph.Built ∧
    ∃ id base, ({} : Overlay graph).Nests id dims base := by
  induction dims with
  | nil =>
      refine ⟨(({} : Graph).internForm (.basic .int32)).2, .internType .empty ?_, _, _,
        .element (type_of_graph Graph.type_internType) rfl⟩
      simp [TypeForm.mentions, TypeForm.parts, TypeForm.symbol?]
  | cons dim dims ih =>
      obtain ⟨graph, built, element, base, inner⟩ := ih
      have held : graph.Holds (.type element) := by
        obtain ⟨node, found⟩ := inner.found
        refine Graph.holds_type_iff.mpr ⟨node, ?_⟩
        simpa [type_eq_ok_iff, Graph.type_eq_ok_iff] using found
      refine ⟨(graph.internForm (.staticArray dim element)).2, .internType built ?_, _, base,
        .array (type_of_graph Graph.type_internType) rfl (inner.mono fun id node found => ?_)⟩
      · simpa [TypeForm.mentions, TypeForm.parts, TypeForm.symbol?] using held
      · have grown : graph.types <+: (graph.internForm (.staticArray dim element)).2.types := by
          rw [Graph.internForm, Graph.internType_types]
          exact TypeNode.prefix_extend
        obtain ⟨more, same⟩ := grown
        rw [type_eq_ok_iff, List.append_nil] at found ⊢
        rw [← same, List.getElem?_append_left (List.getElem?_eq_some_iff.mp found).1, found]

end Overlay

namespace Microsoft

open Numeral

/-! ## Reading dimensions -/

/-- Reads as many numbers as are asked for. -/
def readNumbers : Nat → List Char → Option (List Nat × List Char)
  | 0, text => some ([], text)
  | count + 1, text => do
    let (number, text) ← readNumber text
    let (numbers, text) ← readNumbers count text
    return (number :: numbers, text)

/-- Reads how many dimensions there are, and then each. -/
def readDimensions (text : List Char) : Option (List Nat × List Char) := do
  let (count, text) ← readNumber text
  readNumbers count text

theorem readNumbers_append (numbers : List Nat) (rest : List Char) :
    readNumbers numbers.length (numbers.flatMap numberChars ++ rest) = some (numbers, rest) := by
  induction numbers with
  | nil => rfl
  | cons number numbers ih =>
      simp [readNumbers, List.append_assoc, readNumber_append, ih]

variable {graph : Graph} {session : Session graph Tables} {id base : TypeId} {dims : List Nat}

/-- What is written for an array: the dimensions of all arrays nested in it, and then the type of
their elements. -/
theorem array_eq (machine : Target) (parts : Encoding graph) (place : Place) {node : TypeNode}
    (nests : session.overlay.Nests id dims base) (found : session.overlay.type id = .ok node) :
    (array machine parts id place).run session =
      ((modifier machine node place ++ dimensions dims ++ ·) <$>
        parts.type base { place with element := true }).run session := by
  have read : (array machine parts id place).run session =
      (Encoder.ofExcept (session.overlay.shape id) >>= fun shape => do
        return modifier machine node place ++ dimensions shape.1 ++
          (← parts.type shape.2 { place with element := true })).run session := by
    rw [array, Encoder.run_type_bind found]
    rfl
  rw [read, nests.shape_eq, Encoder.ofExcept, pure_bind, map_eq_pure_bind]

theorem readDimensions_append (dims : List Nat) (rest : List Char) :
    readDimensions (Token.write (.number dims.length :: dims.map .number) ++ rest) =
      some (dims, rest) := by
  have written : Token.write (.number dims.length :: dims.map .number) =
      numberChars dims.length ++ dims.flatMap numberChars := by
    simp [Token.write, Token.chars, List.flatMap_map]
  simp [readDimensions, written, List.append_assoc, readNumber_append, readNumbers_append]

/-- Every number is read back whatever follows it, so that none is the start of another, and one of
128 bits has at most 32 letters. Any dimensions are those of some nested arrays; and wherever such
arrays are written, the run that stands after the `Y` is read back as their dimensions, outermost
first, whatever follows. -/
theorem numbers_and_dimensions_read_back :
    (∀ number rest, readNumber (numberChars number ++ rest) = some (number, rest)) ∧
    (∀ number other, numberChars number <+: numberChars other → number = other) ∧
    (∀ number < 2 ^ 128, (hexLetters number).length ≤ 32) ∧
    (∀ dims, ∃ graph : Graph, graph.Built ∧ ∃ id base, ({} : Overlay graph).Nests id dims base) ∧
    ∀ (graph : Graph) (machine : Target) (parts : Encoding graph) (session : Session graph Tables)
      (place : Place) (id base : TypeId) (dims : List Nat), session.overlay.Nests id dims base →
      ∃ node run, session.overlay.type id = .ok node ∧
        (array machine parts id place).run session =
          ((modifier machine node place ++ .text "Y" :: run ++ ·) <$>
            parts.type base { place with element := true }).run session ∧
        ∀ rest, readDimensions (Token.write run ++ rest) = some (dims, rest) := by
  refine ⟨readNumber_append, fun _ _ => eq_of_prefix_of_read readNumber_append,
    fun _ => length_hexLetters_le, Overlay.exists_nests,
    fun graph machine parts session place id base dims nests => ?_⟩
  obtain ⟨node, found⟩ := nests.found
  exact ⟨node, _, found, array_eq machine parts place nests found, readDimensions_append dims⟩

/-- `int (&grid)[2][300]` -/
def tiles : Graph where
  symbols :=
    [{ ident := "app", sort := .moduleScope },
      { ident := "grid", parent := some ⟨0⟩,
        sort := .var { type := ⟨3⟩, storage := { isGshared := true } } }]
  types :=
    [{ form := .basic .int32 }, { form := .staticArray 300 ⟨0⟩ }, { form := .staticArray 2 ⟨1⟩ },
      { form := .reference ⟨2⟩ }]

theorem numbers_and_dimensions_read_back_tiles :
    nameFor tiles .microsoft64 ⟨1⟩ = .ok "?grid@@3AEAY11BCM@HEA" ∧
    readNumber "BCM@HEA".toList = some (300, "HEA".toList) ∧
    ({} : Overlay tiles).Nests ⟨2⟩ [2, 300] ⟨0⟩ ∧
    ∃ run, (∀ rest, readDimensions (Token.write run ++ rest) = some ([2, 300], rest)) ∧
      ∃ inner, (array Target.microsoft64 (encoding Target.microsoft64 1)
          ⟨2⟩ { indirect := true } : Encoder tiles (List Token)).run
            { tables := Tables.bounded 10 } =
        .ok ([.text "A"] ++ .text "Y" :: run ++ inner) { tables := Tables.bounded 10 } := by
  obtain ⟨number, -, -, -, dimensions⟩ := numbers_and_dimensions_read_back
  have nests : ({} : Overlay tiles).Nests ⟨2⟩ [2, 300] ⟨0⟩ :=
    .array rfl rfl (.array rfl rfl (.element rfl rfl))
  obtain ⟨node, run, found, ran, read⟩ := dimensions tiles Target.microsoft64
    (encoding Target.microsoft64 1) { tables := Tables.bounded 10 }
    { indirect := true } ⟨2⟩ ⟨0⟩ [2, 300] nests
  obtain rfl : _ = node := Except.ok.inj found
  exact ⟨by decide +kernel, number 300 _, nests, run, read, [.text "H"], ran⟩

end Microsoft

end LinkName
