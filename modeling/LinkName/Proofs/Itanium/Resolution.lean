import LinkName.Proofs.Itanium.Keys
import LinkName.Proofs.Text
import LinkName.Proofs.Type.Resolution

/-!
Names without classes. A class is written as a pointer to its record, but a const class has one slot
of its own wherever it stands, while the pointer that it is resolved to is const where it is nested
and mutable where it is a parameter. Until a name comes to both, it is the same with classes as
without; from then on the two have nothing more in common.
-/
namespace LinkName

namespace TypeTree

open Itanium (Place)

def constClass (symbol : SymbolId) : TypeTree := .named .classRef symbol { isConst := true }

def constRecord (symbol : SymbolId) : TypeTree := .named .record symbol { isConst := true }

/-- What a const class is resolved to: as a parameter, the pointer itself is not const. -/
def constPointer (place : Place) (symbol : SymbolId) : TypeTree :=
  pointerTo symbol { isConst := true } { isConst := place = .nested }

/-- What stands for the type in a place. -/
def resolvedAt (place : Place) : TypeTree → TypeTree
  | .named .classRef symbol quals =>
    pointerTo symbol quals { quals with isConst := quals.isConst && place = .nested }
  | tree => tree.resolved

theorem resolvedAt_nested (tree : TypeTree) : tree.resolvedAt .nested = tree.resolved := by
  cases tree with
  | named naming symbol quals => cases naming <;> simp [resolvedAt, resolved_named]
  | _ => rfl

/-- A parameter drops the `const` of the pointer that it is resolved to. -/
theorem withoutConst_resolved (tree : TypeTree) :
    tree.resolved.withoutConst = tree.withoutConst.resolvedAt .outermost := by
  cases tree with
  | basic builtin quals =>
      rcases quals with ⟨isConst, isShared, isImmutable⟩
      cases isConst <;> rfl
  | layer around inner quals =>
      rcases quals with ⟨isConst, isShared, isImmutable⟩
      cases around <;> cases isConst <;> rfl
  | named naming symbol quals =>
      rcases quals with ⟨isConst, isShared, isImmutable⟩
      cases naming <;> cases isConst <;> rfl
  | assocArray => rfl
  | function => simp [withoutConst, dropsConst, resolvedAt]

theorem symbols_resolvedAt (place : Place) (tree : TypeTree) :
    (tree.resolvedAt place).symbols = tree.symbols := by
  cases tree with
  | named naming symbol quals => cases naming <;> rfl
  | _ => exact symbols_resolved _

theorem isForeign_resolvedAt (place : Place) (tree : TypeTree) :
    (tree.resolvedAt place).isForeign = tree.isForeign := by
  cases tree with
  | named naming symbol quals => cases naming <;> rfl
  | _ => exact isForeign_resolved _

theorem constPointer_inj {place place' : Place} {symbol symbol' : SymbolId} :
    constPointer place symbol = constPointer place' symbol' ↔
      place = place' ∧ symbol = symbol' := by
  cases place <;> cases place' <;> simp [constPointer, pointerTo]

end TypeTree

namespace Itanium

open TypeTree (constClass constRecord constPointer)

theorem Place.eq_or_eq {place other : Place} (differ : place ≠ other) (third : Place) :
    third = place ∨ third = other := by
  cases place <;> cases other <;> cases third <;> simp_all

variable {classes : SymbolId → Qualifiers → Prop}

/-! ## Keys and tables -/

/-- A key and what it is resolved to wherever it stands. -/
inductive Key.Resolves (classes : SymbolId → Qualifiers → Prop) : Key → Key → Prop where
  | symbol (id : SymbolId) : Resolves classes (.symbol id) (.symbol id)
  | type {tree : TypeTree} (apart : tree.Apart classes)
      (plain : ∀ symbol, tree ≠ constClass symbol) :
      Resolves classes (.type tree) (.type tree.resolved)

/-- What corresponding slots hold. -/
inductive Key.Matches (classes : SymbolId → Qualifiers → Prop) : Key → Key → Prop where
  | same {key key' : Key} (resolves : key.Resolves classes key') : Matches classes key key'
  | target {symbol : SymbolId} (named : classes symbol { isConst := true }) :
      Matches classes .unnamed (.type (constRecord symbol))
  | pointer {symbol : SymbolId} (place : Place) (named : classes symbol { isConst := true }) :
      Matches classes (.type (constClass symbol)) (.type (constPointer place symbol))

namespace Key

variable {key key' other other' : Key} {symbol : SymbolId} {place : Place}

theorem Resolves.eq_iff (resolves : key.Resolves classes key')
    (resolves' : other.Resolves classes other') : key = other ↔ key' = other' := by
  cases resolves <;> cases resolves' <;> simp
  case type.type apart _ _ apart' _ => exact (TypeTree.resolved_inj apart apart').symm

theorem Resolves.ne_record (resolves : key.Resolves classes key') {known : Qualifiers}
    (named : classes symbol known) (quals : Qualifiers) :
    key' ≠ .type (.named .record symbol quals) := by
  cases resolves with
  | symbol id => simp
  | type apart plain => simpa using TypeTree.resolved_ne_record apart named quals

theorem Resolves.ne_constPointer (resolves : key.Resolves classes key')
    (named : classes symbol { isConst := true }) : key' ≠ .type (constPointer place symbol) := by
  cases resolves with
  | symbol id => simp
  | type apart plain =>
      intro same
      obtain ⟨rfl, quals⟩ := TypeTree.resolved_eq_pointerTo apart named (type.inj same)
      exact plain symbol (by rw [← quals]; rfl)

theorem Resolves.ne_constClass (resolves : key.Resolves classes key') (symbol : SymbolId) :
    key ≠ .type (constClass symbol) := by
  cases resolves with
  | symbol id => simp
  | type apart plain => simpa using plain symbol

theorem Resolves.ne_unnamed (resolves : key.Resolves classes key') : key ≠ .unnamed := by
  cases resolves <;> simp

/-- A slot is found for a key exactly where it is found for what the key is resolved to. -/
theorem Matches.eq_iff (fits : key.Matches classes key')
    (resolves : other.Resolves classes other') : key = other ↔ key' = other' := by
  cases fits with
  | same resolves' => exact resolves'.eq_iff resolves
  | target named =>
      exact iff_of_false resolves.ne_unnamed.symm (resolves.ne_record named _).symm
  | @pointer symbol place named =>
      exact iff_of_false (resolves.ne_constClass symbol).symm (resolves.ne_constPointer named).symm

theorem Matches.eq_constClass (fits : key.Matches classes (.type (constPointer place symbol)))
    (named : classes symbol { isConst := true }) : key = .type (constClass symbol) := by
  generalize same : Key.type (constPointer place symbol) = slot at fits
  cases fits with
  | same resolves => exact absurd same.symm (resolves.ne_constPointer named)
  | target named => simp [constPointer, TypeTree.pointerTo, constRecord] at same
  | pointer place named =>
      obtain ⟨-, rfl⟩ := TypeTree.constPointer_inj.mp (type.inj same)
      rfl

/-- The slot of a const class holds its pointer, const or not. -/
theorem Matches.eq_constPointer (fits : Matches classes (.type (constClass symbol)) key) :
    ∃ place, key = .type (constPointer place symbol) := by
  generalize same : Key.type (constClass symbol) = slot at fits
  cases fits with
  | same resolves =>
      cases resolves with
      | symbol id => cases same
      | type apart plain => exact absurd (type.inj same).symm (plain symbol)
  | target named => cases same
  | pointer place named =>
      cases same
      exact ⟨place, rfl⟩

theorem Matches.ne_record (fits : key.Matches classes key') (named : classes symbol {}) :
    key' ≠ .type (.named .record symbol {}) := by
  cases fits with
  | same resolves => exact resolves.ne_record named _
  | target named => simp [constRecord]
  | pointer place named => simp [constPointer, TypeTree.pointerTo]

end Key

/-- Both pointers that a const class is resolved to have a slot. -/
def Twice (classes : SymbolId → Qualifiers → Prop) (table : Table Key) : Prop :=
  ∃ symbol, classes symbol { isConst := true } ∧
    ∀ place, .type (constPointer place symbol) ∈ table.entries

/-- The same is known to both tables, whatever the slots are. -/
structure Comparable (classes : SymbolId → Qualifiers → Prop) (table table' : Table Key) :
    Prop where
  unlimited : table.limit = none
  unlimited' : table'.limit = none
  known : ∀ key key', Key.Resolves classes key key' →
    (key ∈ table.entries ↔ key' ∈ table'.entries)
  records : ∀ symbol, classes symbol { isConst := true } →
    (.type (constClass symbol) ∈ table.entries ↔ .type (constRecord symbol) ∈ table'.entries)
  pointers : ∀ symbol place, classes symbol { isConst := true } →
    .type (constPointer place symbol) ∈ table'.entries → .type (constRecord symbol) ∈ table'.entries
  mutable : ∀ symbol, classes symbol {} → .type (.named .record symbol {}) ∉ table'.entries

/-- Slot by slot, the second table holds what the first is resolved to, and no const class is
resolved in two ways. -/
structure Aligned (classes : SymbolId → Qualifiers → Prop) (table table' : Table Key) : Prop where
  unlimited : table.limit = none
  unlimited' : table'.limit = none
  slots : List.Forall₂ (Key.Matches classes) table.entries table'.entries
  records : ∀ symbol, classes symbol { isConst := true } →
    .type (constRecord symbol) ∈ table'.entries → .type (constClass symbol) ∈ table.entries
  once : ¬ Twice classes table'

variable {table table' : Table Key} {key key' : Key} {symbol : SymbolId} {place : Place}

theorem Twice.mono (twice : Twice classes table)
    (grown : table.entries <+: table'.entries) : Twice classes table' := by
  obtain ⟨symbol, named, both⟩ := twice
  exact ⟨symbol, named, fun place => grown.subset (both place)⟩

namespace Comparable

theorem start : Comparable classes Table.unbounded Table.unbounded where
  unlimited := rfl
  unlimited' := rfl
  known _ _ _ := by simp [Table.unbounded]
  records _ _ := by simp [Table.unbounded]
  pointers _ _ _ := by simp [Table.unbounded]
  mutable _ _ := by simp [Table.unbounded]

variable (comparable : Comparable classes table table')
include comparable

theorem push (resolves : key.Resolves classes key') :
    Comparable classes (table.push key).2 (table'.push key').2 where
  unlimited := (Table.limit_push _ _).trans comparable.unlimited
  unlimited' := (Table.limit_push _ _).trans comparable.unlimited'
  known other other' alike := by
    rw [Table.entries_push_of_unlimited comparable.unlimited,
      Table.entries_push_of_unlimited comparable.unlimited', List.mem_append, List.mem_append,
      comparable.known other other' alike, List.mem_singleton, List.mem_singleton,
      alike.eq_iff resolves]
  records symbol named := by
    rw [Table.entries_push_of_unlimited comparable.unlimited,
      Table.entries_push_of_unlimited comparable.unlimited', List.mem_append, List.mem_append,
      comparable.records symbol named, List.mem_singleton, List.mem_singleton]
    exact or_congr_right
      (iff_of_false (resolves.ne_constClass symbol).symm (resolves.ne_record named _).symm)
  pointers symbol place named listed := by
    rw [Table.entries_push_of_unlimited comparable.unlimited', List.mem_append] at listed ⊢
    refine .inl (comparable.pointers symbol place named (listed.resolve_right fun new => ?_))
    exact resolves.ne_constPointer named (List.mem_singleton.mp new).symm
  mutable symbol named listed := by
    rw [Table.entries_push_of_unlimited comparable.unlimited', List.mem_append] at listed
    refine listed.elim (comparable.mutable symbol named) fun new => ?_
    exact resolves.ne_record named _ (List.mem_singleton.mp new).symm

/-- A const class takes two slots, and the first of them goes with the record. -/
theorem pushRecord (named : classes symbol { isConst := true }) :
    Comparable classes ((table.push .unnamed).2.push (.type (constClass symbol))).2
      (table'.push (.type (constRecord symbol))).2 := by
  have unlimited : (table.push .unnamed).2.limit = none :=
    (Table.limit_push _ _).trans comparable.unlimited
  have entries : ((table.push .unnamed).2.push (.type (constClass symbol))).2.entries =
      table.entries ++ [.unnamed, .type (constClass symbol)] := by
    rw [Table.entries_push_of_unlimited unlimited,
      Table.entries_push_of_unlimited comparable.unlimited, List.append_assoc]
    rfl
  have entries' :=
    Table.entries_push_of_unlimited comparable.unlimited' (.type (constRecord symbol))
  refine ⟨(Table.limit_push _ _).trans unlimited,
    (Table.limit_push _ _).trans comparable.unlimited', fun key key' resolves => ?_,
    fun other known => ?_, fun other place known listed => ?_, fun other known listed => ?_⟩
  · have others : key ≠ .unnamed ∧ key ≠ .type (constClass symbol) :=
      ⟨resolves.ne_unnamed, resolves.ne_constClass symbol⟩
    have other' := resolves.ne_record named { isConst := true }
    rw [entries, entries', List.mem_append, List.mem_append, comparable.known key key' resolves]
    exact or_congr_right
      (iff_of_false (by simpa using others) fun new => other' (List.mem_singleton.mp new))
  · have same : Key.type (constClass other) ∈ [.unnamed, .type (constClass symbol)] ↔
        Key.type (constRecord other) ∈ [.type (constRecord symbol)] := by
      simp [constClass, constRecord]
    rw [entries, entries', List.mem_append, List.mem_append, comparable.records other known, same]
  · rw [entries', List.mem_append] at listed ⊢
    refine .inl (comparable.pointers other place known (listed.resolve_right fun new => ?_))
    simp [constPointer, TypeTree.pointerTo, constRecord] at new
  · rw [entries', List.mem_append] at listed
    refine listed.elim (comparable.mutable other known) fun new => ?_
    simp [constRecord] at new

/-- Where the record has its slot, the pointer can be added. -/
theorem pushPointer (named : classes symbol { isConst := true }) (place : Place)
    (stored : .type (constRecord symbol) ∈ table'.entries) :
    Comparable classes table (table'.push (.type (constPointer place symbol))).2 := by
  have entries' :=
    Table.entries_push_of_unlimited comparable.unlimited' (.type (constPointer place symbol))
  refine ⟨comparable.unlimited, (Table.limit_push _ _).trans comparable.unlimited',
    fun key key' resolves => ?_, fun other known => ?_, fun other place' known listed => ?_,
    fun other known listed => ?_⟩
  · have other' : key' ≠ .type (constPointer place symbol) := resolves.ne_constPointer named
    rw [entries', List.mem_append, comparable.known key key' resolves]
    exact (or_iff_left (by simpa using other')).symm
  · rw [entries', List.mem_append, comparable.records other known]
    exact (or_iff_left (by simp [constPointer, TypeTree.pointerTo, constRecord])).symm
  · rw [entries', List.mem_append] at listed ⊢
    rcases listed with sooner | new
    · exact .inl (comparable.pointers other place' known sooner)
    · obtain ⟨-, rfl⟩ :=
        TypeTree.constPointer_inj.mp (Key.type.inj (List.mem_singleton.mp new))
      exact .inl stored
  · rw [entries', List.mem_append] at listed
    refine listed.elim (comparable.mutable other known) fun new => ?_
    simp [constPointer, TypeTree.pointerTo] at new

theorem pushClass (named : classes symbol { isConst := true }) (place : Place) :
    Comparable classes ((table.push .unnamed).2.push (.type (constClass symbol))).2
      ((table'.push (.type (constRecord symbol))).2.push (.type (constPointer place symbol))).2 := by
  refine (comparable.pushRecord named).pushPointer named place ?_
  rw [Table.entries_push_of_unlimited comparable.unlimited']
  exact List.mem_append_right _ List.mem_cons_self

end Comparable

namespace Aligned

theorem start : Aligned classes Table.unbounded Table.unbounded where
  unlimited := rfl
  unlimited' := rfl
  slots := .nil
  records _ _ := by simp [Table.unbounded]
  once := by
    rintro ⟨symbol, -, both⟩
    simpa [Table.unbounded] using both .nested

variable (aligned : Aligned classes table table')
include aligned

theorem find?_eq (resolves : key.Resolves classes key') : table.find? key = table'.find? key' :=
  Table.idxOf?_congr aligned.slots fun _ _ _ fits => fits.eq_iff resolves

theorem mutable (named : classes symbol {}) :
    .type (.named .record symbol {}) ∉ table'.entries := by
  intro listed
  obtain ⟨key, -, fits⟩ := Table.exists_of_forall₂ aligned.slots listed
  exact fits.ne_record named rfl

theorem mem_iff (resolves : key.Resolves classes key') :
    key ∈ table.entries ↔ key' ∈ table'.entries := by
  rw [← not_iff_not, ← Table.find?_eq_none_iff, ← Table.find?_eq_none_iff,
    aligned.find?_eq resolves]

theorem constClass_mem (named : classes symbol { isConst := true })
    (listed : .type (constPointer place symbol) ∈ table'.entries) :
    .type (constClass symbol) ∈ table.entries := by
  obtain ⟨key, known, fits⟩ := Table.exists_of_forall₂ aligned.slots listed
  exact fits.eq_constClass named ▸ known

theorem exists_constPointer (known : .type (constClass symbol) ∈ table.entries) :
    ∃ place, .type (constPointer place symbol) ∈ table'.entries := by
  obtain ⟨key', listed, fits⟩ := Table.exists_of_forall₂ aligned.slots.flip known
  obtain ⟨place, rfl⟩ := fits.eq_constPointer
  exact ⟨place, listed⟩

theorem find?_constClass (named : classes symbol { isConst := true })
    (stored : .type (constPointer place symbol) ∈ table'.entries) :
    table.find? (.type (constClass symbol)) = table'.find? (.type (constPointer place symbol)) := by
  refine Table.idxOf?_congr aligned.slots fun key key' listed fits => ?_
  constructor
  · rintro rfl
    obtain ⟨place', rfl⟩ := fits.eq_constPointer
    by_contra differs
    have apart : place' ≠ place := by rintro rfl; exact differs rfl
    refine aligned.once ⟨symbol, named, fun other => ?_⟩
    rcases Place.eq_or_eq apart other with rfl | rfl
    · exact listed
    · exact stored
  · rintro rfl
    exact fits.eq_constClass named

theorem push (resolves : key.Resolves classes key') :
    Aligned classes (table.push key).2 (table'.push key').2 := by
  have entries := Table.entries_push_of_unlimited aligned.unlimited key
  have entries' := Table.entries_push_of_unlimited aligned.unlimited' key'
  refine ⟨(Table.limit_push _ _).trans aligned.unlimited,
    (Table.limit_push _ _).trans aligned.unlimited', ?_, fun symbol named listed => ?_, ?_⟩
  · rw [entries, entries']
    exact List.rel_append aligned.slots (.cons (.same resolves) .nil)
  · rw [entries', List.mem_append] at listed
    rw [entries]
    refine List.mem_append_left _
      (aligned.records symbol named (listed.resolve_right fun new => ?_))
    exact resolves.ne_record named _ (List.mem_singleton.mp new).symm
  · rintro ⟨symbol, named, both⟩
    refine aligned.once ⟨symbol, named, fun place => ?_⟩
    have listed := both place
    rw [entries', List.mem_append] at listed
    refine listed.resolve_right fun new => ?_
    exact resolves.ne_constPointer named (List.mem_singleton.mp new).symm

theorem pushClass (named : classes symbol { isConst := true }) (place : Place)
    (fresh : .type (constClass symbol) ∉ table.entries) :
    Aligned classes ((table.push .unnamed).2.push (.type (constClass symbol))).2
      ((table'.push (.type (constRecord symbol))).2.push (.type (constPointer place symbol))).2 := by
  have unlimited : (table.push .unnamed).2.limit = none :=
    (Table.limit_push _ _).trans aligned.unlimited
  have unlimited' : (table'.push (.type (constRecord symbol))).2.limit = none :=
    (Table.limit_push _ _).trans aligned.unlimited'
  refine ⟨(Table.limit_push _ _).trans unlimited, (Table.limit_push _ _).trans unlimited', ?_,
    fun other known listed => ?_, ?_⟩
  · rw [Table.entries_push_of_unlimited unlimited, Table.entries_push_of_unlimited unlimited',
      Table.entries_push_of_unlimited aligned.unlimited,
      Table.entries_push_of_unlimited aligned.unlimited']
    exact List.rel_append (List.rel_append aligned.slots (.cons (.target named) .nil))
      (.cons (.pointer place named) .nil)
  · rw [Table.entries_push_of_unlimited unlimited, List.mem_append]
    rcases Table.mem_push listed with sooner | pointer
    · rcases Table.mem_push sooner with sooner | record
      · rw [Table.entries_push_of_unlimited aligned.unlimited, List.mem_append]
        exact .inl (.inl (aligned.records other known sooner))
      · exact .inr (by simpa [constRecord, constClass] using record)
    · simp [constRecord, constPointer, TypeTree.pointerTo] at pointer
  · rintro ⟨other, known, both⟩
    have sooner (place' : Place) (differs : (place', other) ≠ (place, symbol)) :
        .type (constPointer place' other) ∈ table'.entries := by
      rcases Table.mem_push (both place') with sooner | pointer
      · refine (Table.mem_push sooner).resolve_right fun record => ?_
        simp [constRecord, constPointer, TypeTree.pointerTo] at record
      · obtain ⟨rfl, rfl⟩ := TypeTree.constPointer_inj.mp (Key.type.inj pointer)
        exact absurd rfl differs
    by_cases same : other = symbol
    · obtain rfl := same
      obtain ⟨place', differs⟩ : ∃ place', place' ≠ place := by
        cases place
        · exact ⟨.nested, by simp⟩
        · exact ⟨.outermost, by simp⟩
      exact fresh (aligned.constClass_mem known (sooner place' (by simpa using differs)))
    · exact aligned.once ⟨other, known, fun place' => sooner place' (by simp [same])⟩

end Aligned

/-! ## Scripts -/

/-- What stands before the name of a class, up to the `const` of the record. -/
def classLead (place : Place) : List Token :=
  (if place = .nested then [.text "K"] else []) ++ [.text "P"]

/-- How a const class is written, given how its name is. -/
def Script.ofClass (place : Place) (symbol : SymbolId) (name : Script) : Script :=
  .compound (.type (constClass symbol))
    (.thenStore .unnamed (.append (.write (classLead place ++ [.text "K"])) name))

/-- How the pointer is written that a const class is resolved to. -/
def Script.ofPointer (place : Place) (symbol : SymbolId) (name : Script) : Script :=
  .compound (.type (constPointer place symbol))
    (.append (.write (classLead place)) (.orRef (.type (constRecord symbol))
      (.thenStore (.type (constRecord symbol)) (.append (.write [.text "K"]) name))))

/-- A script and what it comes to without classes, or two that are refused. -/
inductive Script.Resolves (classes : SymbolId → Qualifiers → Prop) : Script → Script → Prop where
  | write (tokens : List Token) : Resolves classes (.write tokens) (.write tokens)
  | refuse (refusal refusal' : Refusal) : Resolves classes (.refuse refusal) (.refuse refusal')
  | append {first first' second second' : Script} (before : Resolves classes first first')
      (after : Resolves classes second second') :
      Resolves classes (.append first second) (.append first' second')
  | orRef {key key' : Key} {body body' : Script} (keys : key.Resolves classes key')
      (inside : Resolves classes body body') :
      Resolves classes (.orRef key body) (.orRef key' body')
  | storeThen {key key' : Key} {body body' : Script} (keys : key.Resolves classes key')
      (inside : Resolves classes body body') :
      Resolves classes (.storeThen key body) (.storeThen key' body')
  | thenStore {key key' : Key} {body body' : Script} (keys : key.Resolves classes key')
      (inside : Resolves classes body body') :
      Resolves classes (.thenStore key body) (.thenStore key' body')
  | unlessKnown {key key' : Key} {body body' : Script} (keys : key.Resolves classes key')
      (inside : Resolves classes body body') :
      Resolves classes (.unlessKnown key body) (.unlessKnown key' body')
  /-- The record of a mutable class is never looked up with success. -/
  | target {symbol : SymbolId} (named : classes symbol {}) {body body' : Script}
      (inside : Resolves classes body body') :
      Resolves classes body
        (.orRef (.type (.named .record symbol {})) (.append (.write []) body'))
  | constant {symbol : SymbolId} (place : Place) (named : classes symbol { isConst := true })
      {body body' : Script} (fresh : .type (constClass symbol) ∉ body.keys)
    (inside : Resolves classes body body') :
      Resolves classes (.ofClass place symbol body) (.ofPointer place symbol body')

namespace Script

section

variable {key : Key} {body : Script} {table : Table Key} {slot : Nat}

theorem run_orRef_of_mem (known : key ∈ table.entries) :
    ∃ slot, ∀ body, (orRef key body).run table = .ok ([.backRef slot], table) := by
  cases found : table.find? key with
  | none => exact absurd known (Table.find?_eq_none_iff.mp found)
  | some slot => exact ⟨slot, fun body => by rw [run_orRef_eq, found]; rfl⟩

theorem run_orRef_of_not_mem (unknown : key ∉ table.entries) :
    (orRef key body).run table = body.run table := by
  rw [run_orRef_eq, Table.find?_eq_none_iff.mpr unknown]
  rfl

end

/-- Both runs are refused, or both end, with tables of which the relation holds. -/
inductive Together (relates : Table Key → Table Key → Prop) :
    Except Refusal (List Token × Table Key) → Except Refusal (List Token × Table Key) → Prop where
  | ok {tokens tokens' : List Token} {last last' : Table Key} (related : relates last last') :
      Together relates (.ok (tokens, last)) (.ok (tokens', last'))
  | error (refusal refusal' : Refusal) : Together relates (.error refusal) (.error refusal')

theorem Together.map {relates relates' : Table Key → Table Key → Prop}
    {reached reached' : Except Refusal (List Token × Table Key)}
    (together : Together relates reached reached')
    (change change' : List Token × Table Key → List Token × Table Key)
    (step : ∀ tokens tokens' last last', relates last last' →
      relates' (change (tokens, last)).2 (change' (tokens', last')).2) :
    Together relates' (change <$> reached) (change' <$> reached') := by
  cases together with
  | ok related => exact .ok (step _ _ _ _ related)
  | error refusal refusal' => exact .error refusal refusal'

namespace Resolves

variable {script script' : Script} {table table' last last' : Table Key}
variable {tokens tokens' : List Token}

/-- A script ends if and only if it does so without classes. -/
theorem together (resolves : script.Resolves classes script')
    (comparable : Comparable classes table table') :
    Together (Comparable classes) (script.run table) (script'.run table') := by
  induction resolves generalizing table table' with
  | write tokens => exact .ok comparable
  | refuse refusal refusal' => exact .error refusal refusal'
  | append before after ihBefore ihAfter =>
      rw [run_append_eq, run_append_eq]
      have begun := ihBefore comparable
      revert begun
      generalize run _ table = reached
      generalize run _ table' = reached'
      intro begun
      cases begun with
      | error refusal refusal' => exact .error refusal refusal'
      | ok related => exact (ihAfter related).map _ _ fun _ _ _ _ related => related
  | @orRef key key' body body' keys inside ih =>
      by_cases known : key ∈ table.entries
      · obtain ⟨slot, hit⟩ := run_orRef_of_mem known
        obtain ⟨slot', hit'⟩ := run_orRef_of_mem ((comparable.known key key' keys).mp known)
        rw [hit, hit']
        exact .ok comparable
      · have unknown' := fun known' => known ((comparable.known key key' keys).mpr known')
        rw [run_orRef_of_not_mem known, run_orRef_of_not_mem unknown']
        exact ih comparable
  | storeThen keys inside ih => exact ih (comparable.push keys)
  | thenStore keys inside ih =>
      rw [run_thenStore_eq, run_thenStore_eq]
      exact (ih comparable).map _ _ fun _ _ _ _ related => related.push keys
  | @unlessKnown key key' body body' keys inside ih =>
      rw [run_unlessKnown_eq, run_unlessKnown_eq]
      simp only [comparable.known key key' keys]
      split
      · exact .ok comparable
      · exact ih comparable
  | target named inside ih =>
      rw [run_orRef_of_not_mem (comparable.mutable _ named), run_write_append_eq,
        ← id_map (run _ table)]
      exact (ih comparable).map _ _ fun _ _ _ _ related => related
  | @constant symbol place named body body' fresh inside ih =>
      have records := comparable.records symbol named
      by_cases known : .type (constClass symbol) ∈ table.entries
      · obtain ⟨slot, hit⟩ := run_orRef_of_mem known
        rw [ofClass, compound, hit]
        by_cases stored : .type (constPointer place symbol) ∈ table'.entries
        · obtain ⟨slot', hit'⟩ := run_orRef_of_mem stored
          rw [ofPointer, compound, hit']
          exact .ok comparable
        · obtain ⟨slot', hit'⟩ := run_orRef_of_mem (records.mp known)
          rw [ofPointer, compound, run_orRef_of_not_mem stored, run_thenStore_eq,
            run_write_append_eq, hit']
          exact .ok (comparable.pushPointer named place (records.mp known))
      · have unknown := fun record => known (records.mpr record)
        have unstored := fun pointer => unknown (comparable.pointers symbol place named pointer)
        rw [ofClass, compound, run_orRef_of_not_mem known, ofPointer, compound,
          run_orRef_of_not_mem unstored]
        simp only [run_thenStore_eq, run_write_append_eq, run_orRef_of_not_mem unknown,
          Functor.map_map]
        exact (ih comparable).map _ _ fun _ _ _ _ related => related.pushClass named place

section

variable {symbol : SymbolId} {place : Place} {name name' : Script}
variable (aligned : Aligned classes table table') (named : classes symbol { isConst := true })
include aligned named

/-- A reference to the class is met by one to the pointer, or by the pointer itself if the slot is
that of the other one. -/
theorem run_ofClass_known (known : .type (constClass symbol) ∈ table.entries)
    (ran : (ofClass place symbol name).run table = .ok (tokens, last))
    (ran' : (ofPointer place symbol name').run table' = .ok (tokens', last')) :
    tokens = tokens' ∧ Aligned classes last last' ∨
      Diverge (Token.write tokens) (Token.write tokens') ∧ Twice classes last' := by
  obtain ⟨slot, hit, rfl, rfl⟩ :=
    (run_orRef ran).resolve_right fun missed => Table.find?_eq_none_iff.mp missed.1 known
  rcases run_orRef ran' with ⟨slot', hit', rfl, rfl⟩ | ⟨missing', inner'⟩
  · have stored := List.mem_of_getElem? (Table.getElem?_of_find? hit')
    have found := aligned.find?_constClass named stored
    obtain rfl : slot = slot' := Option.some.inj (hit.symm.trans (found.trans hit'))
    exact .inl ⟨rfl, aligned⟩
  · obtain ⟨middle', body', rfl⟩ := run_thenStore inner'
    obtain ⟨rest', -, rfl⟩ := run_write_append body'
    obtain ⟨other, stored⟩ := aligned.exists_constPointer known
    have unstored : .type (constPointer place symbol) ∉ table'.entries :=
      Table.find?_eq_none_iff.mp missing'
    refine .inr ⟨?_, symbol, named, fun place' => ?_⟩
    · cases place <;> exact .of_head (by decide) _ _
    · rw [Table.entries_push_of_unlimited ((run_grows _ body').limit.trans aligned.unlimited'),
        List.mem_append]
      have apart : other ≠ place := fun same => unstored (same ▸ stored)
      rcases Place.eq_or_eq apart place' with rfl | rfl
      · exact .inl ((run_grows _ body').entries.subset stored)
      · exact .inr List.mem_cons_self

/-- Where the class is new, so are the record and the pointer. -/
theorem run_ofClass_new (unknown : .type (constClass symbol) ∉ table.entries)
    (fresh : .type (constClass symbol) ∉ name.keys)
    (names : ∀ {middle middle' rest rest'}, name.run table = .ok (rest, middle) →
      name'.run table' = .ok (rest', middle') → rest = rest' ∧ Aligned classes middle middle' ∨
        Diverge (Token.write rest) (Token.write rest') ∧ Twice classes middle')
    (ran : (ofClass place symbol name).run table = .ok (tokens, last))
    (ran' : (ofPointer place symbol name').run table' = .ok (tokens', last')) :
    tokens = tokens' ∧ Aligned classes last last' ∨
      Diverge (Token.write tokens) (Token.write tokens') ∧ Twice classes last' := by
  have unstored : .type (constPointer place symbol) ∉ table'.entries :=
    fun stored => unknown (aligned.constClass_mem named stored)
  have unrecorded : .type (constRecord symbol) ∉ table'.entries :=
    fun stored => unknown (aligned.records symbol named stored)
  rw [ofClass, compound, run_orRef_of_not_mem unknown] at ran
  rw [ofPointer, compound, run_orRef_of_not_mem unstored] at ran'
  obtain ⟨_, stored, rfl⟩ := run_thenStore ran
  obtain ⟨middle, written, rfl⟩ := run_thenStore stored
  obtain ⟨rest, begun, rfl⟩ := run_write_append written
  obtain ⟨_, stored', rfl⟩ := run_thenStore ran'
  obtain ⟨_, target', rfl⟩ := run_write_append stored'
  rw [run_orRef_of_not_mem unrecorded] at target'
  obtain ⟨middle', written', rfl⟩ := run_thenStore target'
  obtain ⟨rest', begun', rfl⟩ := run_write_append written'
  rcases names begun begun' with ⟨rfl, related⟩ | ⟨diverge, twice⟩
  · refine .inl ⟨List.append_assoc _ _ _, related.pushClass named place fun listed => ?_⟩
    exact (mem_of_run name begun listed).elim unknown fresh
  · refine .inr ⟨?_, (twice.mono (Table.entries_prefix_push _ _)).mono
      (Table.entries_prefix_push _ _)⟩
    rw [← List.append_assoc, Token.write_append _ rest, Token.write_append _ rest']
    exact diverge.after _

end

/-- Both write the same, until a const class comes to stand for both pointers. Then a reference to
it is met by the text of the pointer. -/
theorem run (resolves : script.Resolves classes script') (aligned : Aligned classes table table')
    (ran : script.run table = .ok (tokens, last))
    (ran' : script'.run table' = .ok (tokens', last')) :
    tokens = tokens' ∧ Aligned classes last last' ∨
      Diverge (Token.write tokens) (Token.write tokens') ∧ Twice classes last' := by
  induction resolves generalizing table table' last last' tokens tokens' with
  | write written =>
      cases ran
      cases ran'
      exact .inl ⟨rfl, aligned⟩
  | refuse => cases ran
  | @append first first' second second' before after ihBefore ihAfter =>
      obtain ⟨head, middle, tail, begun, ended, rfl⟩ := run_append ran
      obtain ⟨head', middle', tail', begun', ended', rfl⟩ := run_append ran'
      rw [Token.write_append, Token.write_append]
      rcases ihBefore aligned begun begun' with ⟨rfl, related⟩ | ⟨diverge, twice⟩
      · rcases ihAfter related ended ended' with ⟨rfl, related⟩ | ⟨diverge, twice⟩
        · exact .inl ⟨rfl, related⟩
        · exact .inr ⟨diverge.after _, twice⟩
      · exact .inr ⟨diverge.append _ _, twice.mono (run_grows second' ended').entries⟩
  | orRef keys inside ih =>
      have found := aligned.find?_eq keys
      rcases run_orRef ran with ⟨slot, hit, rfl, rfl⟩ | ⟨missing, inner⟩
      · rcases run_orRef ran' with ⟨slot', hit', rfl, rfl⟩ | ⟨missing', -⟩
        · obtain rfl : slot = slot' := Option.some.inj (hit.symm.trans (found.trans hit'))
          exact .inl ⟨rfl, aligned⟩
        · cases hit.symm.trans (found.trans missing')
      · rcases run_orRef ran' with ⟨slot', hit', -, -⟩ | ⟨-, inner'⟩
        · cases missing.symm.trans (found.trans hit')
        · exact ih aligned inner inner'
  | storeThen keys inside ih => exact ih (aligned.push keys) ran ran'
  | thenStore keys inside ih =>
      obtain ⟨middle, inner, rfl⟩ := run_thenStore ran
      obtain ⟨middle', inner', rfl⟩ := run_thenStore ran'
      rcases ih aligned inner inner' with ⟨rfl, related⟩ | ⟨diverge, twice⟩
      · exact .inl ⟨rfl, related.push keys⟩
      · exact .inr ⟨diverge, twice.mono (Table.entries_prefix_push _ _)⟩
  | unlessKnown keys inside ih =>
      rcases run_unlessKnown ran with ⟨known, rfl, rfl⟩ | ⟨unknown, inner⟩
      · rcases run_unlessKnown ran' with ⟨-, rfl, rfl⟩ | ⟨unknown', -⟩
        · exact .inl ⟨rfl, aligned⟩
        · exact absurd ((aligned.mem_iff keys).mp known) unknown'
      · rcases run_unlessKnown ran' with ⟨known', -, -⟩ | ⟨-, inner'⟩
        · exact absurd ((aligned.mem_iff keys).mpr known') unknown
        · exact ih aligned inner inner'
  | target named inside ih =>
      rcases run_orRef ran' with ⟨slot', hit', -, -⟩ | ⟨-, inner'⟩
      · exact absurd (List.mem_of_getElem? (Table.getElem?_of_find? hit')) (aligned.mutable named)
      · obtain ⟨rest', inner', rfl⟩ := run_write_append inner'
        exact ih aligned ran inner'
  | @constant symbol place named body body' fresh inside ih =>
      by_cases known : .type (constClass symbol) ∈ table.entries
      · exact run_ofClass_known aligned named known ran ran'
      · exact run_ofClass_new aligned named known fresh (ih aligned) ran ran'

end Resolves

end Script

end Itanium

end LinkName
