import LinkName.Proofs.Microsoft.Growth
import LinkName.Proofs.Microsoft.Plan
import LinkName.Proofs.Text

/-!
What becomes of a `const` below a pointer or a reference. The qualifier of a type is a letter of its
own, ahead of everything else that its name says, except in three cases: a vector has none, an
element of an array leaves it to the array, which only spells its own, and so does everything below
such an element. Where there is a letter, functions that differ in the `const` alone have different
names; where there is none, they have one name.
-/
namespace LinkName

/-! ## Types in contexts -/

namespace Layer

/-- Pointers and references. -/
def isIndirection : Layer → Bool
  | pointer | reference => true
  | _ => false

def isArray : Layer → Bool
  | staticArray _ => true
  | _ => false

theorem isArray_of_isIndirection {layer : Layer} (indirection : layer.isIndirection = true) :
    layer.isArray = false := by
  cases layer <;> first | rfl | cases indirection

end Layer

namespace TypeTree

/-- The type with `const` added to it. -/
def constant (tree : TypeTree) : TypeTree :=
  tree.requalified { tree.quals with isConst := true }

/-- The types that say in a name of this family whether they are `const`, or could. -/
def takesConst : TypeTree → Bool
  | .basic _ _ | .layer .vector _ _ | .layer .pointer _ _ => true
  | .named .record _ _ | .named (.enumeration _) _ _ | .named .classRef _ _ => true
  | _ => false

/-- The type inside of layers, the outermost first. -/
def wrap (layers : List (Layer × Qualifiers)) (hole : TypeTree) : TypeTree :=
  layers.foldr (fun layer inner => .layer layer.1 inner layer.2) hole

theorem wrap_injective (layers : List (Layer × Qualifiers)) : (wrap layers).Injective := by
  intro hole hole' same
  induction layers with
  | nil => exact same
  | cons layer rest ih => exact ih (TypeTree.layer.inj same).2.1

theorem passed_injective (passing : Passing) {tree tree' : TypeTree}
    (same : passed (passing, tree) = passed (passing, tree')) : tree = tree' := by
  cases passing with
  | value => exact same
  | ref | out => exact (TypeTree.layer.inj same).2.1
  | lazy => exact (TypeTree.function.inj (TypeTree.layer.inj same).2.1).1

end TypeTree

/-- What may stand around a type in the type of a parameter: pointers, references and arrays, with a
pointer or a reference on the outside. -/
structure Context where
  outer : Layer × Qualifiers
  inner : List (Layer × Qualifiers)
  indirect : outer.1.isIndirection = true
  spelled : ∀ layer ∈ inner, (layer.1.isIndirection || layer.1.isArray) = true

namespace Context

def plug (context : Context) (hole : TypeTree) : TypeTree :=
  hole.wrap (context.outer :: context.inner)

/-- Whether the hole is behind an array. -/
def behindArray (context : Context) : Bool := context.inner.any (·.1.isArray)

theorem plug_constant_ne (context : Context) {hole : TypeTree} (constant : hole.isConst = false) :
    context.plug hole ≠ context.plug hole.constant := by
  intro same
  have qualified : hole.constant.isConst = true := by cases hole <;> rfl
  rw [← TypeTree.wrap_injective _ same, constant] at qualified
  cases qualified

end Context

namespace Microsoft

/-- Whether a type below an indirection says that it is `const`. What is behind an array has no letter
for its qualifiers, but pointers and classes have another one. -/
def tellsConst (machine : Target) (behindArray : Bool) : TypeTree → Bool
  | .basic _ _ | .named .record _ _ | .named (.enumeration _) _ _ => !behindArray
  | .named .classRef _ _ => true
  | .layer .pointer target _ =>
    if target.isStaticArray then !behindArray || machine.isLegacy else true
  | _ => false

/-- Two texts in place of each other: where something is told they part, elsewhere they are one. -/
def Told (told : Bool) (tokens tokens' : List Token) : Prop :=
  if told then Diverge (Token.write tokens) (Token.write tokens') else tokens = tokens'

namespace Told

variable {told : Bool} {tokens tokens' : List Token}

theorem append (differ : Told told tokens tokens') (rest : List Token) :
    Told told (tokens ++ rest) (tokens' ++ rest) := by
  cases told with
  | true =>
      simp only [Told, if_true, Token.write_append] at differ ⊢
      exact differ.append _ _
  | false => exact congrArg (· ++ rest) differ

/-- Texts that have parted may go on differently. -/
theorem apart (differ : Told true tokens tokens') (rest rest' : List Token) :
    Told true (tokens ++ rest) (tokens' ++ rest') := by
  simp only [Told, if_true, Token.write_append] at differ ⊢
  exact differ.append _ _

theorem after (lead : List Token) (differ : Told told tokens tokens') :
    Told told (lead ++ tokens) (lead ++ tokens') := by
  cases told with
  | true =>
      simp only [Told, if_true, Token.write_append] at differ ⊢
      exact differ.after _
  | false => exact congrArg (lead ++ ·) differ

end Told

/-! ## Scripts with one mark in place of another -/

/-- Scripts that differ in one thing that they write, or are refused both. -/
inductive Marked (told : Bool) : Script → Script → Prop
  | refuse (refusal refusal' : Refusal) : Marked told (.refuse refusal) (.refuse refusal')
  | mark {tokens tokens' : List Token} (differ : Told told tokens tokens') :
      Marked told (.write tokens) (.write tokens')
  | before {script script' : Script} (marked : Marked told script script') (rest : Script) :
      Marked told (.append script rest) (.append script' rest)
  | after (lead : List Token) {script script' : Script} (marked : Marked told script script') :
      Marked told (.append (.write lead) script) (.append (.write lead) script')

namespace Marked

variable {told : Bool} {script script' : Script} {record record' last last' : Record}
variable {tokens tokens' : List Token}

/-- From one record the scripts come to one record. -/
theorem run (marked : Marked told script script') (ran : script.run record = .ok (tokens, last)) :
    ∃ other, script'.run record = .ok (other, last) ∧ Told told tokens other := by
  induction marked generalizing record last tokens with
  | refuse refusal refusal' => cases ran
  | mark differ =>
      cases ran
      exact ⟨_, rfl, differ⟩
  | before marked rest ih =>
      obtain ⟨first, middle, second, begun, ended, rfl⟩ := Script.run_append ran
      obtain ⟨other, begun', differ⟩ := ih begun
      exact ⟨other ++ second, Script.run_append_of begun' ended, differ.append second⟩
  | after lead marked ih =>
      obtain ⟨_, middle, second, begun, ended, rfl⟩ := Script.run_append ran
      cases begun
      obtain ⟨other, ended', differ⟩ := ih ended
      exact ⟨lead ++ other, Script.run_append_of rfl ended', differ.after lead⟩

/-- What is told is told whatever the records. -/
theorem diverge (marked : Marked true script script')
    (ran : script.run record = .ok (tokens, last))
    (ran' : script'.run record' = .ok (tokens', last')) :
    Diverge (Token.write tokens) (Token.write tokens') := by
  induction marked generalizing record record' last last' tokens tokens' with
  | refuse refusal refusal' => cases ran
  | mark differ =>
      cases ran
      cases ran'
      exact differ
  | before marked rest ih =>
      obtain ⟨first, middle, second, begun, ended, rfl⟩ := Script.run_append ran
      obtain ⟨first', middle', second', begun', ended', rfl⟩ := Script.run_append ran'
      rw [Token.write_append, Token.write_append]
      exact (ih begun begun').append _ _
  | after lead marked ih =>
      obtain ⟨_, middle, second, begun, ended, rfl⟩ := Script.run_append ran
      obtain ⟨_, middle', second', begun', ended', rfl⟩ := Script.run_append ran'
      cases begun
      cases begun'
      rw [Token.write_append, Token.write_append]
      exact (ih ended ended').after _

end Marked

/-! ## Types with and without `const` -/

namespace Plan

variable {graph : Graph} {machine : Target} {plan : Plan} {hole : TypeTree} {place : Place}

theorem isConst_constant (tree : TypeTree) : tree.constant.isConst = true := by
  cases tree <;> rfl

theorem isForeign_constant (tree : TypeTree) : tree.constant.isForeign = tree.isForeign := by
  cases tree <;> rfl

theorem pointerLetter_told {left right : Bool} (letters : left ≠ right) :
    Told true [pointerLetter left] [pointerLetter right] := by
  cases left <;> cases right <;> first | exact absurd rfl letters | exact .of_head (by decide) _ _

/-- The letter of a `const`, if there is one, comes ahead of the letter of the type. -/
theorem lead_told (machine : Target) (constant : hole.isConst = false)
    (indirect : place.indirect = true) {told : Bool} {letter letter' : Token}
    (letters : Told told [letter] [letter']) (rest : List Token) :
    Told (!place.element || told) (modifier machine hole place ++ letter :: rest)
      (modifier machine hole.constant place ++ letter' :: rest) := by
  cases element : place.element with
  | true =>
      simp only [modifier, element, if_true, List.nil_append, Bool.not_true, Bool.false_or]
      exact letters.append rest
  | false =>
      simp only [Told, modifier, element, indirect, constant, isConst_constant]
      exact .of_head (by decide) _ _

theorem pointer_marked (target : TypeTree) {quals : Qualifiers} (constant : quals.isConst = false)
    (indirect : place.indirect = true) :
    Marked (tellsConst machine place.element (.layer .pointer target quals))
      (plan.pointer graph machine (.layer .pointer target quals) target place)
      (plan.pointer graph machine (TypeTree.layer .pointer target quals).constant target place) := by
  have plain : (TypeTree.layer .pointer target quals).isConst = false := constant
  have letters : Told true [pointerLetter (TypeTree.layer .pointer target quals).isConst]
      [pointerLetter (TypeTree.layer .pointer target quals).constant.isConst] := by
    rw [plain, isConst_constant]
    exact pointerLetter_told (by simp)
  have lead := lead_told machine plain indirect letters (width machine)
  simp only [Bool.or_true] at lead
  unfold pointer
  cases target with
  | function result params convention further =>
      simp only [Script.recordedAfter, indirect, Bool.true_or, if_true]
      exact .before (.mark (letters.append [.text "6"])) _
  | layer around inner further =>
      cases around with
      | staticArray dim =>
          simp only [Script.recorded, indirect, Bool.true_or, if_true]
          refine .before (.mark ?_) _
          -- The modern dialect has one letter for all pointers to arrays.
          refine lead_told machine plain indirect ?_ (width machine)
          rw [plain, isConst_constant]
          cases machine.isLegacy with
          | true => exact pointerLetter_told (by simp)
          | false => rfl
      | _ =>
          simp only [Script.recorded, indirect, Bool.true_or, if_true]
          exact .before (.mark lead) _
  | _ =>
      simp only [Script.recorded, indirect, Bool.true_or, if_true]
      exact .before (.mark lead) _

theorem namedType_marked {naming : Naming} {symbol : SymbolId} {quals : Qualifiers}
    (constant : quals.isConst = false) (indirect : place.indirect = true)
    (takes : (TypeTree.named naming symbol quals).takesConst = true) :
    Marked (tellsConst machine place.element (.named naming symbol quals))
      (plan.namedType graph machine naming symbol (.named naming symbol quals) place)
      (plan.namedType graph machine naming symbol (TypeTree.named naming symbol quals).constant
        place) := by
  have plain : (TypeTree.named naming symbol quals).isConst = false := constant
  have letters : Told true [pointerLetter (TypeTree.named naming symbol quals).isConst]
      [pointerLetter (TypeTree.named naming symbol quals).constant.isConst] := by
    rw [plain, isConst_constant]
    exact pointerLetter_told (by simp)
  unfold namedType
  cases graph.symbol symbol with
  | error fault => exact .refuse _ _
  | ok found =>
      have code (letter : Token) : Told (!place.element)
          (modifier machine (.named naming symbol quals) place ++ [letter])
          (modifier machine (TypeTree.named naming symbol quals).constant place ++ [letter]) := by
        have same : Told false [letter] [letter] := rfl
        simpa only [Bool.or_false] using lead_told machine plain indirect same []
      cases naming with
      | record => exact .before (.mark (code _)) _
      | enumeration base =>
          simp only [Script.ofExcept, namedLead]
          cases enumBase? base with
          | none => exact .refuse _ _
          | some letter => exact .before (.mark (code _)) _
      | classRef =>
          refine .before (.mark ?_) _
          have lead := lead_told machine plain indirect letters []
          rw [Bool.or_true] at lead
          have told := lead.apart
            (width machine ++ (modifier machine (.named .classRef symbol quals) place.below ++
              [.text (recordCode .klass)]))
            (width machine ++ (modifier machine (TypeTree.named .classRef symbol quals).constant
              place.below ++ [.text (recordCode .klass)]))
          simp only [indirect, if_true, List.append_assoc] at told ⊢
          exact told
      | typedef => cases takes

/-- Below an indirection the scripts of a type and of the `const` type differ in a mark at most. -/
theorem type_marked (constant : hole.isConst = false) (takes : hole.takesConst = true)
    (indirect : place.indirect = true) :
    Marked (tellsConst machine place.element hole) (plan.type graph machine hole place)
      (plan.type graph machine hole.constant place) := by
  unfold type
  rw [isForeign_constant]
  split
  · exact .refuse _ _
  · cases hole with
    | basic basic quals =>
        have plain : (TypeTree.basic basic quals).isConst = false := constant
        simp only [TypeTree.constant, TypeTree.requalified, basicType]
        cases builtin? machine basic with
        | none => exact .refuse _ _
        | some code =>
            have same : Told false [.text code] [.text code] := rfl
            have mark := lead_told machine plain indirect same []
            simp only [Script.recorded, indirect, Bool.true_or, if_true, ite_self]
            rw [Bool.or_false] at mark
            exact .mark mark
    | named naming symbol quals =>
        cases naming with
        | typedef => cases takes
        | _ =>
            simp only [TypeTree.constant, TypeTree.requalified, Script.recorded, indirect,
              Bool.true_or, if_true]
            exact namedType_marked constant indirect takes
    | layer around inner quals =>
        cases around with
        | pointer => exact pointer_marked inner constant indirect
        | vector =>
            simp only [TypeTree.constant, TypeTree.requalified, Script.recorded, indirect,
              Bool.true_or, if_true]
            exact .mark rfl
        | _ => cases takes
    | _ => cases takes

/-! ## Types in contexts -/

theorem shape_eq_self {tree : TypeTree} (single : tree.isStaticArray = false) :
    tree.shape = ([], tree) := by
  cases tree with
  | layer around inner quals => cases around <;> first | rfl | cases single
  | _ => rfl

theorem isStaticArray_of_takesConst (takes : hole.takesConst = true) :
    hole.isStaticArray = false := by
  cases hole with
  | layer around inner quals => cases around <;> first | rfl | cases takes
  | _ => rfl

theorem takesConst_constant (tree : TypeTree) : tree.constant.takesConst = tree.takesConst := by
  cases tree with
  | layer around inner quals => cases around <;> rfl
  | named naming symbol quals => cases naming <;> rfl
  | _ => rfl

theorem isStaticArray_constant (tree : TypeTree) :
    tree.constant.isStaticArray = tree.isStaticArray := by
  cases tree with
  | layer around inner quals => cases around <;> rfl
  | _ => rfl

theorem isStaticArray_cons (layer : Layer × Qualifiers) (rest : List (Layer × Qualifiers)) :
    (hole.wrap (layer :: rest)).isStaticArray = layer.1.isArray := by
  rcases layer with ⟨_ | _ | _ | _ | _ | _, quals⟩ <;> rfl

theorem isStaticArray_wrap (layers : List (Layer × Qualifiers)) :
    (hole.constant.wrap layers).isStaticArray = (hole.wrap layers).isStaticArray := by
  cases layers with
  | nil => exact isStaticArray_constant hole
  | cons layer rest => rw [isStaticArray_cons, isStaticArray_cons]

theorem dims_wrap (takes : hole.takesConst = true) (layers : List (Layer × Qualifiers)) :
    (hole.constant.wrap layers).shape.1 = (hole.wrap layers).shape.1 := by
  induction layers with
  | nil =>
      have single := isStaticArray_of_takesConst takes
      have single' := (isStaticArray_constant hole).trans single
      simp only [TypeTree.wrap, List.foldr_nil, shape_eq_self single, shape_eq_self single']
  | cons layer rest ih =>
      rcases layer with ⟨_ | _ | dim | _ | _ | _, quals⟩
      case staticArray => exact congrArg (dim :: ·) ih
      all_goals rfl

theorem modifier_wrap (layer : Layer × Qualifiers) (rest : List (Layer × Qualifiers)) :
    modifier machine (hole.constant.wrap (layer :: rest)) place =
      modifier machine (hole.wrap (layer :: rest)) place := by
  rcases layer with ⟨_ | _ | _ | _ | _ | _, quals⟩ <;> rfl

/-- What is written ahead of what a pointer or a reference leads to. -/
def indirectionLead (machine : Target) (around : Layer) (inner : TypeTree) (quals : Qualifiers)
    (place : Place) : List Token :=
  match around with
  | .reference => .text "A" :: width machine
  | _ =>
    modifier machine (.layer around inner quals) place ++
      pointerLetter (quals.isConst || (inner.isStaticArray && !machine.isLegacy)) :: width machine

theorem type_indirection {around : Layer} (indirection : around.isIndirection = true)
    {inner : TypeTree} {quals : Qualifiers}
    (own : (TypeTree.layer around inner quals).isForeign = false)
    (data : ∀ result params convention further, inner ≠ .function result params convention further) :
    plan.type graph machine (.layer around inner quals) place =
      .recorded place (.layer around inner quals)
        (.append (.write (indirectionLead machine around inner quals place))
          (plan.pointee machine inner place.below)) := by
  unfold type
  simp only [own, Bool.false_eq_true, if_false]
  cases around with
  | reference => rfl
  | pointer =>
      dsimp only [indirectionLead]
      cases inner with
      | function result params convention further => exact absurd rfl (data _ _ _ _)
      | layer around' inner' quals' =>
          cases around' with
          | staticArray dim => rfl
          | _ =>
            simp only [pointer, pointee, TypeTree.isStaticArray, Bool.false_and, Bool.or_false]
            rfl
      | _ =>
        simp only [pointer, pointee, TypeTree.isStaticArray, Bool.false_and, Bool.or_false]
        rfl
  | _ => cases indirection

theorem indirectionLead_wrap (layer : Layer × Qualifiers) (rest : List (Layer × Qualifiers)) :
    indirectionLead machine layer.1 (hole.constant.wrap rest) layer.2 place =
      indirectionLead machine layer.1 (hole.wrap rest) layer.2 place := by
  rcases layer with ⟨_ | _ | _ | _ | _ | _, quals⟩ <;>
    simp only [indirectionLead, isStaticArray_wrap]
  all_goals rfl

theorem wrap_ne_function (takes : hole.takesConst = true) (layers : List (Layer × Qualifiers))
    (result : TypeTree) (params : List (Passing × TypeTree)) (convention : Convention)
    (quals : Qualifiers) : hole.wrap layers ≠ .function result params convention quals := by
  cases layers with
  | nil =>
      rintro rfl
      cases takes
  | cons layer rest => exact nofun

theorem type_wrap (takes : hole.takesConst = true) {layer : Layer × Qualifiers}
    (indirection : layer.1.isIndirection = true) {rest : List (Layer × Qualifiers)}
    (own : (hole.wrap (layer :: rest)).isForeign = false) :
    plan.type graph machine (hole.wrap (layer :: rest)) place =
      .recorded place (hole.wrap (layer :: rest))
        (.append (.write (indirectionLead machine layer.1 (hole.wrap rest) layer.2 place))
          (plan.pointee machine (hole.wrap rest) place.below)) :=
  type_indirection indirection own (wrap_ne_function takes rest)

theorem type_foreign {tree : TypeTree} (foreign : tree.isForeign = true) :
    plan.type graph machine tree place = .refuse (.type (tree.spell graph.text) .foreignQualifiers) :=
  if_pos foreign

theorem isForeign_wrap (layer : Layer × Qualifiers) (rest : List (Layer × Qualifiers)) :
    (hole.constant.wrap (layer :: rest)).isForeign = (hole.wrap (layer :: rest)).isForeign := rfl

/-- The layers of a context as far as they are not folded into an array around them. -/
def Folded (place : Place) (layers : List (Layer × Qualifiers)) : Prop :=
  (∃ layer ∈ layers.head?, layer.1.isArray = true) → place.element = true

/-- Whether a place, or a layer before the hole, takes the letter away. -/
def behind (place : Place) (layers : List (Layer × Qualifiers)) : Bool :=
  place.element || layers.any (·.1.isArray)

theorem pointee_marked (takes : hole.takesConst = true) {layers : List (Layer × Qualifiers)}
    (inner : ∀ place : Place, place.indirect = true → Folded place layers →
      Marked (tellsConst machine (behind place layers) hole)
        (plan (.type (hole.wrap layers).shape.2 place))
        (plan (.type (hole.constant.wrap layers).shape.2 place)))
    (indirect : place.indirect = true) :
    Marked (tellsConst machine (behind place layers) hole)
      (plan.pointee machine (hole.wrap layers) place)
      (plan.pointee machine (hole.constant.wrap layers) place) := by
  unfold pointee
  rw [isStaticArray_wrap]
  cases array : (hole.wrap layers).isStaticArray with
  | true =>
      cases layers with
      | nil => exact absurd array (by simp [TypeTree.wrap, isStaticArray_of_takesConst takes])
      | cons layer rest =>
          rw [isStaticArray_cons] at array
          have element := inner { place with element := true } indirect fun _ => rfl
          simp only [behind, Bool.true_or, List.any_cons, array, Bool.or_true, if_true] at element ⊢
          unfold Plan.array
          rw [dims_wrap takes, modifier_wrap]
          exact .after _ element
  | false =>
      have single := (isStaticArray_wrap layers).trans array
      have folded : Folded place layers := by
        rintro ⟨layer, starts, known⟩
        obtain ⟨rest, rfl⟩ := List.head?_eq_some_iff.mp starts
        rw [isStaticArray_cons, known] at array
        cases array
      have whole := inner place indirect folded
      rw [shape_eq_self array, shape_eq_self single] at whole
      exact whole

/-- The scripts of a type in a context: what leads to it is written alike, and then a mark. -/
inductive Wrapped (told : Bool) (lead : List Token) (place : Place) (tree tree' : TypeTree) :
    Script → Script → Prop
  | refuse (refusal refusal' : Refusal) :
      Wrapped told lead place tree tree' (.refuse refusal) (.refuse refusal')
  | recorded {inner inner' : Script} (marked : Marked told inner inner') :
      Wrapped told lead place tree tree' (.recorded place tree (.append (.write lead) inner))
        (.recorded place tree' (.append (.write lead) inner'))

theorem Wrapped.indirect {told : Bool} {lead : List Token} {tree tree' : TypeTree}
    {script script' : Script} (wrapped : Wrapped told lead place tree tree' script script')
    (unrecorded : (place.indirect || place.returned) = true) : Marked told script script' := by
  cases wrapped with
  | refuse refusal refusal' => exact .refuse refusal refusal'
  | recorded marked =>
      simp only [Script.recorded, unrecorded, if_true]
      exact .after lead marked

theorem wrapped (takes : hole.takesConst = true) {layer : Layer × Qualifiers}
    (indirection : layer.1.isIndirection = true) {rest : List (Layer × Qualifiers)}
    (inner : ∀ place : Place, place.indirect = true → Folded place rest →
      Marked (tellsConst machine (behind place rest) hole)
        (plan (.type (hole.wrap rest).shape.2 place))
        (plan (.type (hole.constant.wrap rest).shape.2 place))) (place : Place) :
    Wrapped (tellsConst machine (behind place rest) hole)
      (indirectionLead machine layer.1 (hole.wrap rest) layer.2 place) place
      (hole.wrap (layer :: rest)) (hole.constant.wrap (layer :: rest))
      (plan.type graph machine (hole.wrap (layer :: rest)) place)
      (plan.type graph machine (hole.constant.wrap (layer :: rest)) place) := by
  have marked : Marked (tellsConst machine (behind place.below rest) hole)
      (plan.pointee machine (hole.wrap rest) place.below)
      (plan.pointee machine (hole.constant.wrap rest) place.below) := pointee_marked takes inner rfl
  have takes' := (takesConst_constant hole).trans takes
  have foreign : (hole.constant.wrap (layer :: rest)).isForeign =
      (hole.wrap (layer :: rest)).isForeign := isForeign_wrap layer rest
  cases own : (hole.wrap (layer :: rest)).isForeign with
  | true =>
      rw [type_foreign own, type_foreign (foreign.trans own)]
      exact .refuse _ _
  | false =>
      rw [type_wrap takes indirection own, type_wrap takes' indirection (foreign.trans own),
        indirectionLead_wrap]
      exact .recorded marked

/-- The mark of a type is that of every context. -/
theorem within_marked (constant : hole.isConst = false) (takes : hole.takesConst = true)
    (depth : Nat) {layers : List (Layer × Qualifiers)}
    (spelled : ∀ layer ∈ layers, (layer.1.isIndirection || layer.1.isArray) = true)
    (indirect : place.indirect = true) (folded : Folded place layers) :
    Marked (tellsConst machine (behind place layers) hole)
      (within graph machine depth (.type (hole.wrap layers).shape.2 place))
      (within graph machine depth (.type (hole.constant.wrap layers).shape.2 place)) := by
  induction layers generalizing depth place with
  | nil =>
      have single := isStaticArray_of_takesConst takes
      have single' := (isStaticArray_constant hole).trans single
      simp only [TypeTree.wrap, List.foldr_nil, shape_eq_self single, shape_eq_self single', behind,
        List.any_nil, Bool.or_false]
      cases depth with
      | zero => exact .refuse _ _
      | succ depth => exact type_marked constant takes indirect
  | cons layer rest ih =>
      obtain ⟨around, quals⟩ := layer
      obtain ⟨head, tail⟩ := List.forall_mem_cons.mp spelled
      cases array : around.isArray with
      | true =>
          have element : place.element = true := folded ⟨_, rfl, array⟩
          obtain ⟨dim, rfl⟩ : ∃ dim, around = .staticArray dim := by
            cases around <;> first | exact ⟨_, rfl⟩ | cases array
          have same := ih depth tail indirect fun _ => element
          simp only [behind, element, Bool.true_or] at same ⊢
          exact same
      | false =>
          have indirection : around.isIndirection = true := by simpa [array] using head
          have single (hole : TypeTree) :
              (hole.wrap ((around, quals) :: rest)).isStaticArray = false :=
            (isStaticArray_cons _ _).trans array
          rw [shape_eq_self (single hole), shape_eq_self (single hole.constant)]
          simp only [behind, List.any_cons, array, Bool.false_or]
          cases depth with
          | zero => exact .refuse _ _
          | succ depth =>
              have shape := @wrapped graph machine (within graph machine depth) hole takes
                (around, quals) indirection rest (fun _ => ih depth tail) place
              exact shape.indirect (by simp [indirect])

end Plan

end Microsoft

end LinkName
