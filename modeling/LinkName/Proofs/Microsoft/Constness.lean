import LinkName.Proofs.Bounds
import LinkName.Proofs.Graph.Siblings
import LinkName.Proofs.Microsoft.Digits
import LinkName.Proofs.Microsoft.Marks

/-!
Functions that differ in one `const`. Where a name has a letter for it, the names part there, or at a
type that is spelled out in the one and referred back to in the other; where it has none, the types
of the two parameters take each other's place in the record and leave one name.
-/
namespace LinkName

namespace Table

variable {κ : Type} [DecidableEq κ]

theorem find?_eq_none_of_fixed {table : Table κ} {key other : κ} (apart : key ≠ other)
    (fixed : table.map (Equiv.swap key other) = table) :
    table.find? key = none ∧ table.find? other = none := by
  have each (entry : κ) (listed : entry ∈ table.entries) : Equiv.swap key other entry = entry := by
    have same : table.entries.map (Equiv.swap key other) = table.entries.map id :=
      (congrArg entries fixed).trans (List.map_id _).symm
    exact List.map_inj_left.mp same entry listed
  constructor <;> rw [find?_eq_none_iff] <;> intro listed
  · have swapped := each key listed
    rw [Equiv.swap_apply_left] at swapped
    exact apart swapped.symm
  · have swapped := each other listed
    rw [Equiv.swap_apply_right] at swapped
    exact apart swapped

end Table

namespace Microsoft

namespace Script

/-- The types that the record is asked for. -/
def consulted : Script → List TypeTree
  | .write _ | .refuse _ => []
  | .append first second => first.consulted ++ second.consulted
  | .level _ body => body.consulted
  | .orTypeRef tree body => tree :: body.consulted
  | .typeRefAfter tree _ body => tree :: body.consulted

end Script

/-- The record with two types in place of each other. -/
def Record.swap (tree tree' : TypeTree) (record : Record) : Record where
  names := record.names
  types := record.types.map (Equiv.swap tree tree')

/-- A course that does the same whichever of the types is in the record. -/
def Indifferent {α : Type} (tree tree' : TypeTree) (course : Course Record α) : Prop :=
  ∀ record, course (record.swap tree tree') =
    (fun ending => (ending.1, ending.2.swap tree tree')) <$> course record

namespace Indifferent

variable {α β : Type} {tree tree' : TypeTree} {course : Course Record α}

theorem pure (value : α) : Indifferent tree tree' (Pure.pure value) := fun _ => rfl

theorem bind {next : α → Course Record β} (first : Indifferent tree tree' course)
    (rest : ∀ value, Indifferent tree tree' (next value)) :
    Indifferent tree tree' (course >>= next) := by
  intro record
  simp only [Bind.bind, StateT.bind, first record]
  cases course record with
  | error refusal => rfl
  | ok ending => exact rest ending.1 ending.2

theorem writeLevel (spelledOut : Bool) (tokens : List Token) :
    Indifferent tree tree' (Script.writeLevel spelledOut tokens) := by
  unfold Script.writeLevel
  cases spelledOut with
  | true => exact bind (fun _ => rfl) fun _ => pure _
  | false =>
      refine bind (fun _ => rfl) fun found => ?_
      cases found <;> exact pure _

theorem findOrInsertType {other : TypeTree} (apart : other ≠ tree ∧ other ≠ tree') :
    Indifferent tree tree' (Script.findOrInsertType other) := by
  intro record
  have kept : Equiv.swap tree tree' other = other := Equiv.swap_apply_of_ne_of_ne apart.1 apart.2
  have found := Table.find?_map (Equiv.swap tree tree').injective record.types other
  have stored := Table.push_map (Equiv.swap tree tree') record.types other
  rw [kept] at found stored
  rw [Script.findOrInsertType_eq, Script.findOrInsertType_eq]
  unfold Table.findOrInsert
  simp only [Record.swap, found]
  cases record.types.find? other with
  | some index => rfl
  | none => exact congrArg (fun types => Except.ok (none, Record.mk record.names types)) stored

end Indifferent

/-- The script asks for neither type. -/
def Avoids (tree tree' : TypeTree) (script : Script) : Prop :=
  ∀ other ∈ script.consulted, other ≠ tree ∧ other ≠ tree'

theorem Avoids.indifferent {tree tree' : TypeTree} {script : Script}
    (avoids : Avoids tree tree' script) : Indifferent tree tree' script.run := by
  induction script with
  | write tokens => exact .pure tokens
  | refuse refusal => exact fun _ => rfl
  | append first second before after =>
      obtain ⟨left, right⟩ := List.forall_mem_append.mp avoids
      exact (before left).bind fun _ => (after right).bind fun _ => .pure _
  | level spelledOut body ih => exact (ih avoids).bind fun tokens => .writeLevel spelledOut tokens
  | orTypeRef other body ih =>
      obtain ⟨apart, rest⟩ := List.forall_mem_cons.mp avoids
      refine (Indifferent.findOrInsertType apart).bind fun found => ?_
      cases found with
      | some index => exact .pure _
      | none => exact ih rest
  | typeRefAfter other lead body ih =>
      obtain ⟨apart, rest⟩ := List.forall_mem_cons.mp avoids
      refine (ih rest).bind fun tokens => (Indifferent.findOrInsertType apart).bind fun found => ?_
      cases found <;> exact .pure _

theorem Avoids.run_swap {tree tree' : TypeTree} {script : Script} {record last : Record}
    {tokens : List Token} (avoids : Avoids tree tree' script)
    (ran : script.run record = .ok (tokens, last)) :
    script.run (record.swap tree tree') = .ok (tokens, last.swap tree tree') := by
  rw [avoids.indifferent record, ran]
  rfl

theorem avoids_of_count {tree tree' : TypeTree} {script : Script}
    (none : script.consulted.count tree = 0) (never : tree' ∉ script.consulted) :
    Avoids tree tree' script :=
  fun _ listed => ⟨fun same => List.count_eq_zero.mp none (same ▸ listed),
    fun same => never (same ▸ listed)⟩

namespace Record

variable {tree tree' : TypeTree} {record : Record}

/-- Where swapping two types changes nothing, neither is recorded. -/
theorem find?_eq_none (apart : tree ≠ tree') (fixed : record.swap tree tree' = record) :
    record.types.find? tree = none ∧ record.types.find? tree' = none :=
  Table.find?_eq_none_of_fixed apart (congrArg Record.types fixed)

/-- One type recorded becomes the other one recorded. -/
theorem swap_push (fixed : record.swap tree tree' = record) :
    Record.swap tree tree' { record with types := (record.types.push tree).2 } =
      { record with types := (record.types.push tree').2 } := by
  have pushed := Table.push_map (Equiv.swap tree tree') record.types tree
  rw [Equiv.swap_apply_left, show record.types.map (Equiv.swap tree tree') = record.types from
    congrArg Record.types fixed] at pushed
  simp only [swap, pushed]

end Record

/-! ## Parameters whose types are recorded -/

/-- The text starts with something that is not a reference. -/
def Opens (lead : List Token) : Prop :=
  ∃ first rest, Token.write lead = first :: rest ∧ first.isDigit = false

/-- The scripts of two types that are referred back to once they are recorded, and have one mark in
place of another where they are not. -/
inductive Recalled (told : Bool) (tree tree' : TypeTree) : Script → Script → Prop
  | refuse (refusal refusal' : Refusal) :
      Recalled told tree tree' (.refuse refusal) (.refuse refusal')
  | ahead {lead : List Token} {body body' : Script} (opens : Opens lead)
      (marked : Marked told body body') :
      Recalled told tree tree' (.orTypeRef tree (.append (.write lead) body))
        (.orTypeRef tree' (.append (.write lead) body'))
  | after {lead : List Token} {body body' : Script} (opens : Opens lead)
      (marked : Marked told body body') :
      Recalled told tree tree' (.typeRefAfter tree lead body) (.typeRefAfter tree' lead body')

theorem isDigit_digitChar {index : Nat} (small : index < 10) :
    (Numeral.digitChar index).isDigit = true := by
  have every : ∀ index < 10, (Numeral.digitChar index).isDigit = true := by decide +kernel
  exact every index small

theorem diverge_of_finds {table : Table TypeTree} {tree tree' : TypeTree} (apart : tree ≠ tree')
    {index index' : Nat} (found : table.find? tree = some index)
    (found' : table.find? tree' = some index') (small : index < 10) (small' : index' < 10) :
    Diverge (Token.write [.typeRef index]) (Token.write [.typeRef index']) := by
  refine .of_head (fun same => apart ?_) [] []
  obtain rfl := Numeral.digitChar_injective (small.trans (by decide)) (small'.trans (by decide)) same
  have entry := Table.getElem?_of_find? found
  exact Option.some.inj (entry.symm.trans (Table.getElem?_of_find? found'))

theorem Opens.diverge {lead : List Token} (opens : Opens lead) {index : Nat} (small : index < 10)
    (rest : List Token) : Diverge (Token.write [.typeRef index]) (Token.write (lead ++ rest)) := by
  obtain ⟨first, others, written, letter⟩ := opens
  rw [Token.write_append, written]
  refine .of_head (fun same => ?_) [] (others ++ Token.write rest)
  rw [← same, isDigit_digitChar small] at letter
  cases letter

namespace Recalled

variable {tree tree' : TypeTree} {script script' : Script} {record last last' : Record}
variable {tokens tokens' : List Token}

/-- What is told shows wherever the two types have come to be recorded. -/
theorem diverge (recalled : Recalled true tree tree' script script') (apart : tree ≠ tree')
    (ran : script.run record = .ok (tokens, last))
    (ran' : script'.run record = .ok (tokens', last'))
    (few : ∀ index, .typeRef index ∈ tokens → index < 10)
    (few' : ∀ index, .typeRef index ∈ tokens' → index < 10) :
    Diverge (Token.write tokens) (Token.write tokens') := by
  cases recalled with
  | refuse refusal refusal' => cases ran
  | @ahead lead body body' opens marked =>
      have whole : Marked true (.append (.write lead) body) (.append (.write lead) body') :=
        .after lead marked
      rcases Script.run_orTypeRef ran with ⟨index, found, rfl, -⟩ | ⟨-, inner⟩ <;>
        rcases Script.run_orTypeRef ran' with ⟨index', found', rfl, -⟩ | ⟨-, inner'⟩
      · exact diverge_of_finds apart found found' (few _ (by simp)) (few' _ (by simp))
      · obtain ⟨_, _, rest, begun, -, rfl⟩ := Script.run_append inner'
        cases begun
        exact opens.diverge (few _ (by simp)) rest
      · obtain ⟨_, _, rest, begun, -, rfl⟩ := Script.run_append inner
        cases begun
        exact (opens.diverge (few' _ (by simp)) rest).symm
      · exact whole.diverge inner inner'
  | @after lead body body' opens marked =>
      obtain ⟨inner, middle, begun, ends⟩ := Script.run_typeRefAfter ran
      obtain ⟨inner', middle', begun', ends'⟩ := Script.run_typeRefAfter ran'
      obtain ⟨_, again, differ⟩ := marked.run begun
      cases begun'.symm.trans again
      rcases ends with ⟨index, found, rfl, -⟩ | ⟨-, rfl, -⟩ <;>
        rcases ends' with ⟨index', found', rfl, -⟩ | ⟨-, rfl, -⟩
      · exact diverge_of_finds apart found found' (few _ (by simp)) (few' _ (by simp))
      · exact opens.diverge (few _ (by simp)) _
      · exact (opens.diverge (few' _ (by simp)) _).symm
      · rw [Token.write_append, Token.write_append]
        exact Diverge.after _ differ

theorem asked {told : Bool} (recalled : Recalled told tree tree' script script')
    (ran : script.run record = .ok (tokens, last)) : tree ∈ script.consulted := by
  cases recalled with
  | refuse refusal refusal' => cases ran
  | ahead opens marked | after opens marked => exact List.mem_cons_self

/-- Where nothing is told and neither type is recorded, both are written alike, and one is recorded
in place of the other. -/
theorem run_swap (recalled : Recalled false tree tree' script script') (apart : tree ≠ tree')
    (once : script.consulted.count tree = 1) (never : tree' ∉ script.consulted)
    (fixed : record.swap tree tree' = record) (ran : script.run record = .ok (tokens, last)) :
    script'.run record = .ok (tokens, last.swap tree tree') := by
  cases recalled with
  | refuse refusal refusal' => cases ran
  | @ahead lead body body' opens marked =>
      have whole : Marked false (.append (.write lead) body) (.append (.write lead) body') :=
        .after lead marked
      simp only [Script.consulted, List.count_cons_self, Nat.add_eq_right] at once
      have avoids : Avoids tree tree' (.append (.write lead) body) :=
        avoids_of_count once fun listed => never (List.mem_cons_of_mem _ listed)
      rcases Script.run_orTypeRef ran with ⟨index, found, -, -⟩ | ⟨-, inner⟩
      · rw [(Record.find?_eq_none apart fixed).1] at found
        cases found
      · have swapped := avoids.run_swap inner
        rw [Record.swap_push fixed] at swapped
        obtain ⟨_, inner', rfl⟩ := whole.run swapped
        exact (Script.run_orTypeRef_fresh (Record.find?_eq_none apart fixed).2).trans inner'
  | @after lead body body' opens marked =>
      simp only [Script.consulted, List.count_cons_self, Nat.add_eq_right] at once
      have avoids : Avoids tree tree' body :=
        avoids_of_count once fun listed => never (List.mem_cons_of_mem _ listed)
      obtain ⟨inner, middle, begun, ends⟩ := Script.run_typeRefAfter ran
      have swapped := avoids.run_swap begun
      rw [fixed] at swapped
      have kept : middle.swap tree tree' = middle :=
        (Prod.mk.inj (Except.ok.inj (swapped.symm.trans begun))).2
      obtain ⟨fresh, fresh'⟩ := Record.find?_eq_none apart kept
      obtain ⟨_, begun', rfl⟩ := marked.run begun
      rcases ends with ⟨index, found, -, -⟩ | ⟨-, rfl, rfl⟩
      · rw [fresh] at found
        cases found
      · rw [Record.swap_push kept]
        exact Script.run_typeRefAfter_fresh begun' fresh'

end Recalled

/-! ## Scripts around parameters -/

/-- The scripts of two declarations that differ in one part, or are refused both. -/
inductive Around (part part' : Script) : Script → Script → Prop
  | refuse (refusal refusal' : Refusal) : Around part part' (.refuse refusal) (.refuse refusal')
  | part : Around part part' part part'
  | before {script script' : Script} (around : Around part part' script script') (rest : Script) :
      Around part part' (.append script rest) (.append script' rest)
  | after (first : Script) {script script' : Script} (around : Around part part' script script') :
      Around part part' (.append first script) (.append first script')

namespace Around

variable {tree tree' : TypeTree} {part part' script script' : Script}
variable {record last last' : Record} {tokens tokens' : List Token}

theorem diverge (around : Around part part' script script')
    (recalled : Recalled true tree tree' part part') (apart : tree ≠ tree')
    (ran : script.run record = .ok (tokens, last))
    (ran' : script'.run record = .ok (tokens', last'))
    (few : ∀ index, .typeRef index ∈ tokens → index < 10)
    (few' : ∀ index, .typeRef index ∈ tokens' → index < 10) :
    Diverge (Token.write tokens) (Token.write tokens') := by
  induction around generalizing record last last' tokens tokens' with
  | refuse refusal refusal' => cases ran
  | part => exact recalled.diverge apart ran ran' few few'
  | before around rest ih =>
      obtain ⟨first, middle, second, begun, -, rfl⟩ := Script.run_append ran
      obtain ⟨first', middle', second', begun', -, rfl⟩ := Script.run_append ran'
      rw [Token.write_append, Token.write_append]
      exact (ih begun begun' (fun index listed => few index (List.mem_append_left _ listed))
        fun index listed => few' index (List.mem_append_left _ listed)).append _ _
  | after first around ih =>
      obtain ⟨lead, middle, second, begun, ended, rfl⟩ := Script.run_append ran
      obtain ⟨lead', middle', second', begun', ended', rfl⟩ := Script.run_append ran'
      cases begun.symm.trans begun'
      rw [Token.write_append, Token.write_append]
      exact (ih ended ended' (fun index listed => few index (List.mem_append_right _ listed))
        fun index listed => few' index (List.mem_append_right _ listed)).after _

/-- What runs asks for the type of its part. -/
theorem count_pos {told : Bool} (around : Around part part' script script')
    (recalled : Recalled told tree tree' part part') (ran : script.run record = .ok (tokens, last)) :
    0 < script.consulted.count tree := by
  induction around generalizing record last tokens with
  | refuse refusal refusal' => cases ran
  | part => exact List.count_pos_iff.mpr (recalled.asked ran)
  | before around rest ih =>
      obtain ⟨_, _, _, begun, -, -⟩ := Script.run_append ran
      rw [Script.consulted, List.count_append]
      exact Nat.add_pos_left (ih begun) _
  | after first around ih =>
      obtain ⟨_, _, _, -, ended, -⟩ := Script.run_append ran
      rw [Script.consulted, List.count_append]
      exact Nat.add_pos_right _ (ih ended)

/-- A part that is written alike makes no difference if nothing else asks for its type. -/
theorem run_swap (around : Around part part' script script')
    (recalled : Recalled false tree tree' part part') (apart : tree ≠ tree')
    (once : script.consulted.count tree = 1) (never : tree' ∉ script.consulted)
    (fixed : record.swap tree tree' = record) (ran : script.run record = .ok (tokens, last)) :
    script'.run record = .ok (tokens, last.swap tree tree') := by
  induction around generalizing record last tokens with
  | refuse refusal refusal' => cases ran
  | part => exact recalled.run_swap apart once never fixed ran
  | before around rest ih =>
      obtain ⟨lead, middle, later, begun, ended, rfl⟩ := Script.run_append ran
      have some := around.count_pos recalled begun
      simp only [Script.consulted, List.count_append, List.mem_append, not_or] at once never
      have avoids : Avoids tree tree' rest := avoids_of_count (by omega) never.2
      have begun' := ih (by omega) never.1 fixed begun
      exact Script.run_append_of begun' (avoids.run_swap ended)
  | after first around ih =>
      obtain ⟨lead, middle, later, begun, ended, rfl⟩ := Script.run_append ran
      have some := around.count_pos recalled ended
      simp only [Script.consulted, List.count_append, List.mem_append, not_or] at once never
      have avoids : Avoids tree tree' first := avoids_of_count (by omega) never.1
      have swapped := avoids.run_swap begun
      rw [fixed] at swapped
      have kept : middle.swap tree tree' = middle :=
        (Prod.mk.inj (Except.ok.inj (swapped.symm.trans begun))).2
      have ended' := ih (by omega) never.2 kept ended
      exact Script.run_append_of begun ended'

end Around

namespace Plan

variable {graph : Graph} {machine : Target} {hole : TypeTree}

theorem opens_indirectionLead {around : Layer} (indirection : around.isIndirection = true)
    (inner : TypeTree) (quals : Qualifiers) :
    Opens (indirectionLead machine around inner quals {}) := by
  cases around with
  | reference => exact ⟨'A', _, rfl, rfl⟩
  | pointer =>
      have bare : modifier machine (.layer .pointer inner quals) {} = [] := by
        simp [modifier, TypeTree.isPointer]
      simp only [indirectionLead, bare, List.nil_append]
      cases quals.isConst || (inner.isStaticArray && !machine.isLegacy) with
      | true => exact ⟨'Q', _, rfl, rfl⟩
      | false => exact ⟨'P', _, rfl, rfl⟩
  | _ => cases indirection

section

variable (constant : hole.isConst = false) (takes : hole.takesConst = true)
variable {layer : Layer × Qualifiers} (indirection : layer.1.isIndirection = true)
variable {rest : List (Layer × Qualifiers)}
variable (spelled : ∀ layer ∈ rest, (layer.1.isIndirection || layer.1.isArray) = true)
include constant takes indirection spelled

theorem within_wrapped (depth : Nat) (place : Place) :
    Wrapped (tellsConst machine (behind place rest) hole)
      (indirectionLead machine layer.1 (hole.wrap rest) layer.2 place) place
      (hole.wrap (layer :: rest)) (hole.constant.wrap (layer :: rest))
      (within graph machine depth (.type (hole.wrap (layer :: rest)) place))
      (within graph machine depth (.type (hole.constant.wrap (layer :: rest)) place)) := by
  cases depth with
  | zero => exact .refuse _ _
  | succ depth =>
      exact wrapped takes indirection
        (fun _ indirect folded => within_marked constant takes depth spelled indirect folded) place

theorem wrap_recalled (depth : Nat) :
    Recalled (tellsConst machine (rest.any (·.1.isArray)) hole) (hole.wrap (layer :: rest))
      (hole.constant.wrap (layer :: rest))
      (within graph machine depth (.type (hole.wrap (layer :: rest)) {}))
      (within graph machine depth (.type (hole.constant.wrap (layer :: rest)) {})) := by
  have shape := @within_wrapped graph machine hole constant takes layer indirection rest spelled depth {}
  generalize within graph machine depth (.type (hole.wrap (layer :: rest)) {}) = script,
    within graph machine depth (.type (hole.constant.wrap (layer :: rest)) {}) = script' at shape
  cases shape with
  | refuse refusal refusal' => exact .refuse _ _
  | recorded marked => exact .ahead (opens_indirectionLead indirection _ _) marked

/-- A type that a function returns, in the type of a parameter that is such a function. -/
theorem thunk_recalled (depth : Nat) :
    Recalled (tellsConst machine (rest.any (·.1.isArray)) hole) (.thunk (hole.wrap (layer :: rest)))
      (.thunk (hole.constant.wrap (layer :: rest)))
      (within graph machine depth (.type (.thunk (hole.wrap (layer :: rest))) {}))
      (within graph machine depth (.type (.thunk (hole.constant.wrap (layer :: rest))) {})) := by
  cases depth with
  | zero => exact .refuse _ _
  | succ depth =>
      have shape := @within_wrapped graph machine hole constant takes layer indirection rest spelled
        depth { returned := true }
      have marked := shape.indirect rfl
      have code : convention? machine .cpp false = some "A" := by
        unfold convention?
        split <;> rfl
      have script (tree : TypeTree) : within graph machine (depth + 1) (.type (.thunk tree) {}) =
          .typeRefAfter (.thunk tree) [.text "P", .text "6"] (.append (.write [.text "A"])
            (.append (.append (.write (resultMark tree))
              (within graph machine depth (.type tree { returned := true })))
              (parameters graph (within graph machine depth) [] false))) := by
        change Script.typeRefAfter _ _ (functionType _ _ _ _ _ _) = _
        simp only [functionType, Bool.false_and, code]
        rfl
      rw [script, script]
      exact .after ⟨'P', _, rfl, rfl⟩ (.after _ (.before (.after _ marked) _))

end

theorem parameter_recalled (constant : hole.isConst = false) (takes : hole.takesConst = true)
    (context : Context) (passing : Passing) (depth : Nat) :
    Recalled (tellsConst machine context.behindArray hole)
      (TypeTree.passed (passing, context.plug hole))
      (TypeTree.passed (passing, context.plug hole.constant))
      ((within graph machine depth).parameter graph (passing, context.plug hole))
      ((within graph machine depth).parameter graph (passing, context.plug hole.constant)) := by
  obtain ⟨outer, inner, indirect, spelled⟩ := context
  have data := Layer.isArray_of_isIndirection indirect
  have single (hole : TypeTree) : (hole.wrap (outer :: inner)).isStaticArray = false :=
    (isStaticArray_cons outer inner).trans data
  have whole : ∀ layer ∈ outer :: inner, (layer.1.isIndirection || layer.1.isArray) = true :=
    List.forall_mem_cons.mpr ⟨by rw [indirect, Bool.true_or], spelled⟩
  cases passing with
  | value =>
      simp only [parameter, TypeTree.passed, Context.plug, single, Bool.false_eq_true, if_false]
      exact wrap_recalled constant takes indirect spelled depth
  | lazy => exact thunk_recalled constant takes indirect spelled depth
  | ref | out =>
      have reference := @wrap_recalled graph machine hole constant takes (.reference, {}) rfl
        (outer :: inner) whole depth
      rw [List.any_cons, data, Bool.false_or] at reference
      exact reference

/-- What a function writes ahead of its parameters and after them does not depend on them. -/
theorem parameters_around (graph : Graph) (plan : Plan) (before after : List (Passing × TypeTree))
    (param param' : Passing × TypeTree) (isVariadic : Bool) :
    Around (plan.parameter graph param) (plan.parameter graph param')
      (plan.parameters graph (before ++ param :: after) isVariadic)
      (plan.parameters graph (before ++ param' :: after) isVariadic) := by
  have isEmpty (param : Passing × TypeTree) : (before ++ param :: after).isEmpty = false := by
    simp
  have listed : Around (plan.parameter graph param) (plan.parameter graph param')
      (.concat ((before ++ param :: after).map (plan.parameter graph)))
      (.concat ((before ++ param' :: after).map (plan.parameter graph))) := by
    induction before with
    | nil => exact .before .part _
    | cons first rest ih => exact .after _ (ih fun _ => by simp)
  simp only [parameters, isEmpty]
  exact .before listed _

theorem functionType_around (graph : Graph) (machine : Target) (plan : Plan) (result : TypeTree)
    (before after : List (Passing × TypeTree)) (param param' : Passing × TypeTree)
    (convention : Convention) (quals quals' : Qualifiers) (needsThis isStructor : Bool) :
    Around (plan.parameter graph param) (plan.parameter graph param')
      (plan.functionType graph machine
        (.function result (before ++ param :: after) convention quals) needsThis isStructor)
      (plan.functionType graph machine
        (.function result (before ++ param' :: after) convention quals') needsThis isStructor) := by
  unfold functionType
  dsimp only
  cases convention? machine convention.linkage (needsThis && !convention.variadic) with
  | none => exact .refuse _ _
  | some code => exact .after _ (.after _ (parameters_around graph plan before after param param' _))

/-- Functions of one scope, identifier and role have one name, apart from their types. -/
theorem qualifiedName_congr {plan : Plan} {id id' : SymbolId} {symbol : Symbol}
    {info : FunctionInfo} {type : TypeId}
    (stored : graph.symbol id = .ok { symbol with sort := .function info })
    (stored' : graph.symbol id' = .ok { symbol with sort := .function { info with type } }) :
    plan.qualifiedName graph machine id = plan.qualifiedName graph machine id' := by
  have own : plan.levelName graph machine false id = plan.levelName graph machine false id' := by
    obtain ⟨ident, parent, access, sort⟩ := symbol
    rcases info with ⟨type, role, needsThis, isVirtual, isConst⟩
    simp only [levelName, stored, stored', Script.ofExcept]
    cases role <;> rfl
  unfold qualifiedName levelNames
  rcases Graph.levels_siblings stored stored' rfl rfl rfl with same | ⟨outer, same, same'⟩
  · rw [same]
  · rw [same, same']
    cases outer with
    | error fault => rfl
    | ok names => simp only [Functor.map, Except.map, Script.ofExcept, List.map_cons, own]

end Plan

end Microsoft

/-- Functions that differ in the type of one parameter only, which is `type` for the first and
`type'` for the second. -/
def Graph.DifferInParam (graph : Graph) (id id' : SymbolId) (passing : Passing)
    (type type' : TypeId) : Prop :=
  ∃ (symbol : Symbol) (info : FunctionInfo) (other : TypeId) (signature : Signature)
    (before after : List Param) (quals quals' : Qualifiers),
    graph.symbol id = .ok { symbol with sort := .function info } ∧
    graph.symbol id' = .ok { symbol with sort := .function { info with type := other } } ∧
    graph.type info.type =
      .ok { form := .function { signature with params := before ++ { type, passing } :: after },
            quals } ∧
    graph.type other =
      .ok { form := .function { signature with params := before ++ { type := type', passing } :: after },
            quals := quals' }

theorem Graph.DifferInParam.symm {graph : Graph} {id id' : SymbolId} {passing : Passing}
    {type type' : TypeId} (differ : graph.DifferInParam id id' passing type type') :
    graph.DifferInParam id' id passing type' type := by
  obtain ⟨symbol, info, other, signature, before, after, quals, quals', stored, stored', typed,
    typed'⟩ := differ
  exact ⟨symbol, { info with type := other }, info.type, signature, before, after, quals', quals,
    stored', stored, typed', typed⟩

namespace Microsoft

variable {graph : Graph} {target : Target} {id id' : SymbolId} {text text' : String}

theorem nameFor_eq_run (formed : graph.WellFormed) (held : graph.Holds (.symbol id)) :
    nameFor graph target id = (fun reached => String.ofList (Token.write reached.1)) <$>
      (nameScript graph target id).run (Record.bounded 10) := by
  unfold nameFor name
  rw [outcome_encode formed _ held 10, nameScript]
  simp only [StateT.run]
  cases Script.run _ (Record.bounded 10) <;> rfl

/-- The scripts of functions that differ in the type of one parameter differ in that parameter. -/
theorem around_of_differ (formed : graph.WellFormed) {passing : Passing} {type type' : TypeId}
    (differ : graph.DifferInParam id id' passing type type') (machine : Target) (plan : Plan) :
    Around (plan.parameter graph (passing, graph.tree type))
      (plan.parameter graph (passing, graph.tree type'))
      (plan.declaration graph machine id) (plan.declaration graph machine id') := by
  obtain ⟨symbol, info, other, signature, before, after, quals, quals', stored, stored', typed,
    typed'⟩ := differ
  simp only [Plan.declaration, stored, stored', Script.ofExcept, Plan.functionName,
    Plan.qualifiedName_congr stored stored', formed.tree_eq typed, formed.tree_eq typed',
    TypeNode.tree, Signature.convention, List.map_append, List.map_cons]
  exact .after _ (.after _ (.after _ (Plan.functionType_around graph machine plan _ _ _ _ _ _ _ _ _ _)))

theorem holds_of_differ {passing : Passing} {type type' : TypeId}
    (differ : graph.DifferInParam id id' passing type type') :
    graph.Holds (.symbol id) ∧ graph.Holds (.symbol id') := by
  obtain ⟨symbol, info, other, -, -, -, -, -, stored, stored', -⟩ := differ
  exact ⟨Graph.holds_symbol_iff.mpr ⟨_, stored⟩, Graph.holds_symbol_iff.mpr ⟨_, stored'⟩⟩

theorem typeRefs_of_nameFor (formed : graph.WellFormed) (named : nameFor graph target id = .ok text) :
    ∃ tokens record, (nameScript graph target id).run (Record.bounded 10) = .ok (tokens, record) ∧
      text = String.ofList (Token.write tokens) ∧ ∀ index, .typeRef index ∈ tokens → index < 10 := by
  obtain ⟨tokens, session, encoded, same⟩ := run_of_nameFor named
  obtain ⟨record, ran, -⟩ := run_of_encode formed encoded
  have bounds := withinBounds formed target (holds_of_encode encoded)
  exact ⟨tokens, record, ran, same, fun index listed =>
    bounds.references tokens session encoded index (.inr listed)⟩

/-- Functions that differ in one parameter, having a context of pointers, references and arrays
around a type in one and around the `const` type in the other, have different names wherever the
`const` has a letter of its own behind the context. Elsewhere they have one name, unless the type of
the parameter is asked for elsewhere in it. -/
theorem nameFor_tells_const (built : graph.Built) (context : Context) {hole : TypeTree}
    (takes : hole.takesConst = true) (constant : hole.isConst = false) {passing : Passing}
    {type type' : TypeId} (differ : graph.DifferInParam id id' passing type type')
    (typed : graph.tree type = context.plug hole)
    (typed' : graph.tree type' = context.plug hole.constant)
    (named : nameFor graph target id = .ok text) :
    (tellsConst target context.behindArray hole = true →
      nameFor graph target id' ≠ .ok text) ∧
    (tellsConst target context.behindArray hole = false →
      let tree := TypeTree.passed (passing, context.plug hole)
      let tree' := TypeTree.passed (passing, context.plug hole.constant)
      (nameScript graph target id).consulted.count tree = 1 →
        tree' ∉ (nameScript graph target id).consulted → nameFor graph target id' = .ok text) := by
  have formed := built.wellFormed
  have around := around_of_differ formed differ target
    (Plan.within graph target (Encoder.depthBound graph))
  rw [typed, typed'] at around
  have recalled := @Plan.parameter_recalled graph target hole constant takes context
    passing (Encoder.depthBound graph)
  obtain ⟨tokens, record, ran, rfl, few⟩ := typeRefs_of_nameFor formed named
  have apart : TypeTree.passed (passing, context.plug hole) ≠
      TypeTree.passed (passing, context.plug hole.constant) := fun same =>
    context.plug_constant_ne constant (TypeTree.passed_injective passing same)
  constructor
  · intro told named'
    obtain ⟨tokens', record', ran', same, few'⟩ := typeRefs_of_nameFor formed named'
    rw [told] at recalled
    exact (around.diverge recalled apart ran ran' few few').ne (String.ofList_injective same)
  · intro untold tree tree' once never
    rw [untold] at recalled
    have ran' := around.run_swap recalled apart once never rfl ran
    rw [nameFor_eq_run formed (holds_of_differ differ).2]
    unfold nameScript
    rw [ran']
    rfl

/-- `void scan(T *)` for `float`, for a vector and for an array of `float`, each also with the `const`
of what is pointed to. -/
def scans : Graph where
  symbols :=
    [{ ident := "app", sort := .moduleScope },
      { ident := "scan", parent := some ⟨0⟩, sort := .function { type := ⟨13⟩ } },
      { ident := "scan", parent := some ⟨0⟩, sort := .function { type := ⟨14⟩ } },
      { ident := "scan", parent := some ⟨0⟩, sort := .function { type := ⟨15⟩ } },
      { ident := "scan", parent := some ⟨0⟩, sort := .function { type := ⟨16⟩ } },
      { ident := "scan", parent := some ⟨0⟩, sort := .function { type := ⟨17⟩ } },
      { ident := "scan", parent := some ⟨0⟩, sort := .function { type := ⟨18⟩ } }]
  types :=
    [{ form := .basic .void }, { form := .basic .float32 },
      { form := .basic .float32, quals := { isConst := true } }, { form := .vector ⟨1⟩ },
      { form := .vector ⟨1⟩, quals := { isConst := true } }, { form := .staticArray 3 ⟨1⟩ },
      { form := .staticArray 3 ⟨2⟩ }, { form := .pointer ⟨1⟩ }, { form := .pointer ⟨2⟩ },
      { form := .pointer ⟨3⟩ }, { form := .pointer ⟨4⟩ }, { form := .pointer ⟨5⟩ },
      { form := .pointer ⟨6⟩ },
      { form := .function { result := ⟨0⟩, params := [{ type := ⟨7⟩ }] } },
      { form := .function { result := ⟨0⟩, params := [{ type := ⟨8⟩ }] } },
      { form := .function { result := ⟨0⟩, params := [{ type := ⟨9⟩ }] } },
      { form := .function { result := ⟨0⟩, params := [{ type := ⟨10⟩ }] } },
      { form := .function { result := ⟨0⟩, params := [{ type := ⟨11⟩ }] } },
      { form := .function { result := ⟨0⟩, params := [{ type := ⟨12⟩ }] } }]

theorem scans_built : scans.Built :=
  Graph.built_of_takeAll?
    [.symbol { ident := "app", sort := .moduleScope }, .type { form := .basic .void },
      .type { form := .basic .float32 },
      .type { form := .basic .float32, quals := { isConst := true } },
      .type { form := .vector ⟨1⟩ }, .type { form := .vector ⟨1⟩, quals := { isConst := true } },
      .type { form := .staticArray 3 ⟨1⟩ }, .type { form := .staticArray 3 ⟨2⟩ },
      .type { form := .pointer ⟨1⟩ }, .type { form := .pointer ⟨2⟩ }, .type { form := .pointer ⟨3⟩ },
      .type { form := .pointer ⟨4⟩ }, .type { form := .pointer ⟨5⟩ }, .type { form := .pointer ⟨6⟩ },
      .type { form := .function { result := ⟨0⟩, params := [{ type := ⟨7⟩ }] } },
      .type { form := .function { result := ⟨0⟩, params := [{ type := ⟨8⟩ }] } },
      .type { form := .function { result := ⟨0⟩, params := [{ type := ⟨9⟩ }] } },
      .type { form := .function { result := ⟨0⟩, params := [{ type := ⟨10⟩ }] } },
      .type { form := .function { result := ⟨0⟩, params := [{ type := ⟨11⟩ }] } },
      .type { form := .function { result := ⟨0⟩, params := [{ type := ⟨12⟩ }] } },
      .symbol { ident := "scan", parent := some ⟨0⟩, sort := .function { type := ⟨13⟩ } },
      .symbol { ident := "scan", parent := some ⟨0⟩, sort := .function { type := ⟨14⟩ } },
      .symbol { ident := "scan", parent := some ⟨0⟩, sort := .function { type := ⟨15⟩ } },
      .symbol { ident := "scan", parent := some ⟨0⟩, sort := .function { type := ⟨16⟩ } },
      .symbol { ident := "scan", parent := some ⟨0⟩, sort := .function { type := ⟨17⟩ } },
      .symbol { ident := "scan", parent := some ⟨0⟩, sort := .function { type := ⟨18⟩ } }] rfl

/-- Any two of the functions differ in their only parameter. -/
theorem scans_differ {id id' : SymbolId} {function function' type type' : TypeId}
    (stored : scans.symbols[id.index]? =
      some { ident := "scan", parent := some ⟨0⟩, sort := .function { type := function } })
    (stored' : scans.symbols[id'.index]? =
      some { ident := "scan", parent := some ⟨0⟩, sort := .function { type := function' } })
    (typed : scans.types[function.index]? =
      some { form := .function { result := ⟨0⟩, params := [{ type }] } })
    (typed' : scans.types[function'.index]? =
      some { form := .function { result := ⟨0⟩, params := [{ type := type' }] } }) :
    scans.DifferInParam id id' .value type type' :=
  ⟨{ ident := "scan", parent := some ⟨0⟩, sort := .function { type := function } },
    { type := function }, function', { result := ⟨0⟩ }, [], [], {}, {},
    Graph.symbol_eq_ok_iff.mpr stored, Graph.symbol_eq_ok_iff.mpr stored',
    Graph.type_eq_ok_iff.mpr typed, Graph.type_eq_ok_iff.mpr typed'⟩

/-- A pointer to a type. -/
def pointerContext : Context where
  outer := (.pointer, {})
  inner := []
  indirect := rfl
  spelled := by simp

/-- A pointer to an array of a type. -/
def arrayContext (dim : Nat) : Context where
  outer := (.pointer, {})
  inner := [(.staticArray dim, {})]
  indirect := rfl
  spelled := by simp [Layer.isArray]

theorem scans_vector : scans.DifferInParam ⟨3⟩ ⟨4⟩ .value ⟨9⟩ ⟨10⟩ ∧
    scans.tree ⟨9⟩ = pointerContext.plug (.layer .vector (.basic .float32 {}) {}) ∧
    scans.tree ⟨10⟩ =
      pointerContext.plug (TypeTree.layer .vector (.basic .float32 {}) {}).constant :=
  ⟨scans_differ rfl rfl rfl rfl, rfl, rfl⟩

theorem scans_element : scans.DifferInParam ⟨5⟩ ⟨6⟩ .value ⟨11⟩ ⟨12⟩ ∧
    scans.tree ⟨11⟩ = (arrayContext 3).plug (.basic .float32 {}) ∧
    scans.tree ⟨12⟩ = (arrayContext 3).plug (TypeTree.basic .float32 {}).constant :=
  ⟨scans_differ rfl rfl rfl rfl, rfl, rfl⟩

/-- The `const` of a `float` that is pointed to is told; that of a vector is not. -/
theorem nameFor_tells_const_scans :
    nameFor scans .microsoft64 ⟨1⟩ = .ok "?scan@@YAXPEAM@Z" ∧
      nameFor scans .microsoft64 ⟨2⟩ ≠ .ok "?scan@@YAXPEAM@Z" ∧
      nameFor scans .microsoft64 ⟨4⟩ = .ok "?scan@@YAXPET__m128@@@Z" := by
  have named : nameFor scans .microsoft64 ⟨1⟩ = .ok "?scan@@YAXPEAM@Z" := by decide +kernel
  have named' : nameFor scans .microsoft64 ⟨3⟩ = .ok "?scan@@YAXPET__m128@@@Z" := by decide +kernel
  have differ : scans.DifferInParam ⟨1⟩ ⟨2⟩ .value ⟨7⟩ ⟨8⟩ := scans_differ rfl rfl rfl rfl
  have typed : scans.tree ⟨7⟩ = pointerContext.plug (.basic .float32 {}) := rfl
  have typed' : scans.tree ⟨8⟩ = pointerContext.plug (TypeTree.basic .float32 {}).constant := rfl
  obtain ⟨vectors, vector, vector'⟩ := scans_vector
  have told := (nameFor_tells_const scans_built pointerContext rfl rfl differ typed typed' named).1 rfl
  have untold :=
    (nameFor_tells_const scans_built pointerContext rfl rfl vectors vector vector' named').2 rfl
  exact ⟨named, told, untold (by decide +kernel) (by decide +kernel)⟩

/-- Functions that differ in the `const` of a vector below a pointer, and functions that differ in the
`const` of the elements of an array below one, have one name each. -/
theorem nameFor_scans_collide :
    (scans.DifferInParam ⟨3⟩ ⟨4⟩ .value ⟨9⟩ ⟨10⟩ ∧
      scans.tree ⟨9⟩ = pointerContext.plug (.layer .vector (.basic .float32 {}) {}) ∧
      scans.tree ⟨10⟩ =
        pointerContext.plug (TypeTree.layer .vector (.basic .float32 {}) {}).constant ∧
      nameFor scans .microsoft64 ⟨3⟩ = .ok "?scan@@YAXPET__m128@@@Z" ∧
      nameFor scans .microsoft64 ⟨4⟩ = .ok "?scan@@YAXPET__m128@@@Z") ∧
    (scans.DifferInParam ⟨5⟩ ⟨6⟩ .value ⟨11⟩ ⟨12⟩ ∧
      scans.tree ⟨11⟩ = (arrayContext 3).plug (.basic .float32 {}) ∧
      scans.tree ⟨12⟩ = (arrayContext 3).plug (TypeTree.basic .float32 {}).constant ∧
      nameFor scans .microsoft64 ⟨5⟩ = .ok "?scan@@YAXQEAY02M@Z" ∧
      nameFor scans .microsoft64 ⟨6⟩ = .ok "?scan@@YAXQEAY02M@Z") := by
  obtain ⟨vectors, vector, vector'⟩ := scans_vector
  obtain ⟨elements, element, element'⟩ := scans_element
  constructor
  · exact ⟨vectors, vector, vector', by decide +kernel, by decide +kernel⟩
  · exact ⟨elements, element, element', by decide +kernel, by decide +kernel⟩

end Microsoft

end LinkName
