import LinkName.Itanium.Token
import Mathlib.Data.List.Basic

/-!
Names with their back references spelled out. What a reference is short for depends on where it
stands: on its own, at the head of a nested name, or after other parts of one. The brackets of a name
tell these apart, so a name is read with a stack that has one standing for each open bracket.
-/
namespace LinkName.Itanium

/-- Where a part of a name stands. -/
inductive Standing where
  | alone
  | leading
  | following
  deriving DecidableEq, Repr

namespace Standing

/-- The standing of what comes after a part. -/
def next : Standing → Standing
  | .alone => .alone
  | .leading | .following => .following

/-- What a token does to the stack. The `K` of a method is no part of its name. -/
def advance (stack : List Standing) : Token → List Standing
  | .text "N" => .leading :: stack
  | .text "I" | .text "F" | .text "L" | .text "X" => .alone :: stack
  | .text "E" => stack.tail
  | .text "K" => stack
  | _ => stack.modifyHead next

def walk (stack : List Standing) (tokens : List Token) : List Standing := tokens.foldl advance stack

end Standing

open Standing (advance walk)

/-- The tokens with every back reference replaced by what `spell` gives for its standing and slot. -/
def expand (spell : Standing → Nat → List Token) : List Standing → List Token → List Token
  | _, [] => []
  | stack, token :: rest =>
    (match token with
      | .backRef slot => spell (stack.headD .alone) slot
      | _ => [token]) ++ expand spell (advance stack token) rest

/-- Whether a reference to a slot that `enclosed` picks out stands after other parts of a name. -/
def repeatsScope (enclosed : Nat → Bool) : List Standing → List Token → Bool
  | _, [] => false
  | stack, token :: rest =>
    (match token with
      | .backRef slot => stack.headD .alone == .following && enclosed slot
      | _ => false) || repeatsScope enclosed (advance stack token) rest

/-- Tokens without back references. -/
def Plain (tokens : List Token) : Prop := ∀ slot, .backRef slot ∉ tokens

/-- What `read` says about the entry of a slot. -/
def atSlot {κ α : Type} [Inhabited α] (entries : List κ) (read : κ → α) (slot : Nat) : α :=
  (entries[slot]?.map read).getD default

theorem atSlot_of_getElem? {κ α : Type} [Inhabited α] {entries : List κ} {read : κ → α} {slot : Nat}
    {key : κ} (found : entries[slot]? = some key) : atSlot entries read slot = read key := by
  simp [atSlot, found]

section

variable {spell : Standing → Nat → List Token} {enclosed : Nat → Bool} {stack : List Standing}
variable {tokens : List Token}

theorem expand_append (first second : List Token) :
    expand spell stack (first ++ second) =
      expand spell stack first ++ expand spell (walk stack first) second := by
  induction first generalizing stack with
  | nil => rfl
  | cons token rest ih =>
      simp only [List.cons_append, expand, ih, List.append_assoc]
      rfl

theorem repeatsScope_append (first second : List Token) :
    repeatsScope enclosed stack (first ++ second) =
      (repeatsScope enclosed stack first || repeatsScope enclosed (walk stack first) second) := by
  induction first generalizing stack with
  | nil => rfl
  | cons token rest ih =>
      simp only [List.cons_append, repeatsScope, ih, Bool.or_assoc]
      rfl

theorem expand_of_plain (plain : Plain tokens) : expand spell stack tokens = tokens := by
  induction tokens generalizing stack with
  | nil => rfl
  | cons token rest ih =>
      have tail : expand spell (advance stack token) rest = rest :=
        ih fun slot listed => plain slot (List.mem_cons_of_mem _ listed)
      cases token with
      | backRef slot => exact absurd List.mem_cons_self (plain slot)
      | _ => simp only [expand, tail, List.cons_append, List.nil_append]

theorem repeatsScope_of_plain (plain : Plain tokens) : repeatsScope enclosed stack tokens = false := by
  induction tokens generalizing stack with
  | nil => rfl
  | cons token rest ih =>
      have tail : repeatsScope enclosed (advance stack token) rest = false :=
        ih fun slot listed => plain slot (List.mem_cons_of_mem _ listed)
      cases token with
      | backRef slot => exact absurd List.mem_cons_self (plain slot)
      | _ => simpa only [repeatsScope, Bool.false_or] using tail

end

/-! ## Two ways to spell slots out -/

section

variable {spell spell' : Standing → Nat → List Token} {enclosed : Nat → Bool}
variable (agree : ∀ standing slot, (standing == .following && enclosed slot) = false →
  spell standing slot = spell' standing slot)
include agree

theorem expand_congr {stack : List Standing} {tokens : List Token}
    (clear : repeatsScope enclosed stack tokens = false) :
    expand spell stack tokens = expand spell' stack tokens := by
  induction tokens generalizing stack with
  | nil => rfl
  | cons token rest ih =>
      simp only [repeatsScope, Bool.or_eq_false_iff] at clear
      simp only [expand, ih clear.2]
      cases token with
      | backRef slot => exact congrArg (· ++ _) (agree _ slot clear.1)
      | _ => rfl

variable (longer : ∀ slot, enclosed slot = true →
  (Token.write (spell' .following slot)).length < (Token.write (spell .following slot)).length)
include longer

theorem length_expand_le (stack : List Standing) (tokens : List Token) :
    (Token.write (expand spell' stack tokens)).length ≤
      (Token.write (expand spell stack tokens)).length := by
  induction tokens generalizing stack with
  | nil => exact Nat.le_refl _
  | cons token rest ih =>
      have tail := ih (advance stack token)
      simp only [expand, Token.write_append, List.length_append]
      refine Nat.add_le_add ?_ tail
      cases token with
      | backRef slot =>
          cases repeated : stack.headD .alone == .following && enclosed slot with
          | false =>
              exact Nat.le_of_eq (congrArg (fun tokens => (Token.write tokens).length)
                (agree _ slot repeated).symm)
          | true =>
              obtain ⟨follows, marked⟩ := Bool.and_eq_true_iff.mp repeated
              rw [eq_of_beq follows]
              exact Nat.le_of_lt (longer slot marked)
      | _ => exact Nat.le_refl _

theorem length_expand_lt {stack : List Standing} {tokens : List Token}
    (repeated : repeatsScope enclosed stack tokens = true) :
    (Token.write (expand spell' stack tokens)).length <
      (Token.write (expand spell stack tokens)).length := by
  induction tokens generalizing stack with
  | nil => cases repeated
  | cons token rest ih =>
      have tail := length_expand_le agree longer (advance stack token) rest
      simp only [repeatsScope, Bool.or_eq_true_iff] at repeated
      simp only [expand, Token.write_append, List.length_append]
      rcases repeated with here | later
      · cases token with
        | backRef slot =>
            obtain ⟨follows, marked⟩ := Bool.and_eq_true_iff.mp here
            rw [eq_of_beq follows]
            exact Nat.add_lt_add_of_lt_of_le (longer slot marked) tail
        | _ => cases here
      · have further := ih later
        have head := length_expand_le agree longer stack [token]
        simp only [expand, List.append_nil] at head
        exact Nat.add_lt_add_of_le_of_lt head further

/-- Spelled either way, tokens come to the same characters exactly where no scope is repeated. -/
theorem write_expand_eq_iff (stack : List Standing) (tokens : List Token) :
    Token.write (expand spell stack tokens) = Token.write (expand spell' stack tokens) ↔
      repeatsScope enclosed stack tokens = false := by
  constructor
  · intro same
    by_contra repeated
    have shorter := length_expand_lt agree longer (Bool.not_eq_false _ ▸ repeated)
    rw [same] at shorter
    exact Nat.lt_irrefl _ shorter
  · exact fun clear => congrArg Token.write (expand_congr agree clear)

end

end LinkName.Itanium
