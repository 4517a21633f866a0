import LinkName.Encoder
import LinkName.Microsoft.Token
import LinkName.Table

/-!
A Microsoft name keeps two tables of ten entries, one of name levels, compared by their text, and
one of parameter types, compared by handle. Once a table is full, what comes later is spelled out
every time it occurs.

Scopes, types and template arguments contain one another. An `Encoding` says how these parts are
written; the modules beside this one say, given an encoding of its parts, how each thing is written
itself.
-/
namespace LinkName.Microsoft

structure Tables where
  names : Table (List Char)
  types : Table TypeId
  deriving DecidableEq, Repr

def Tables.bounded (limit : Nat) : Tables where
  names := Table.bounded limit
  types := Table.bounded limit

/-- Where a type stands. -/
structure Place where
  /-- Below a pointer, a reference or an array, where qualifiers are spelled and nothing is
  recorded. -/
  indirect : Bool := false
  /-- In a return type, where nothing is recorded either. -/
  returned : Bool := false
  /-- The element of an array, which has spelled the qualifiers already. -/
  element : Bool := false
  deriving DecidableEq, Repr

def Place.below (place : Place) : Place := { place with indirect := true }

abbrev LimitedEncoder (handles : Option Nat) (graph : Graph) : Type → Type :=
  LinkName.LimitedEncoder handles graph Tables

abbrev Encoder (graph : Graph) : Type → Type := LimitedEncoder none graph

variable {handles : Option Nat} {graph : Graph}

/-- How the parts of a name are written. -/
structure Encoding (graph : Graph) (handles : Option Nat := none) where
  /-- The levels of a scope, spelled out without back-references and without an end mark. -/
  scope : SymbolId → LimitedEncoder handles graph (List Token)
  /-- An argument of a specialization. -/
  argument : SymbolId → TemplateArg → LimitedEncoder handles graph (List Token)
  type : TypeId → Place → LimitedEncoder handles graph (List Token)

def findOrInsertName (key : List Char) : LimitedEncoder handles graph (Option Nat) :=
  modifyGet fun session =>
    let (found, names) := session.tables.names.findOrInsert key
    (found, { session with tables := { session.tables with names } })

def recordName (key : List Char) : LimitedEncoder handles graph Unit :=
  modify fun session =>
    let names := session.tables.names.insertUnique key
    { session with tables := { session.tables with names } }

def findOrInsertType (id : TypeId) : LimitedEncoder handles graph (Option Nat) :=
  modifyGet fun session =>
    let (found, types) := session.tables.types.findOrInsert id
    (found, { session with tables := { session.tables with types } })

/-- Refers back to a recorded type. A new one is recorded, and then written. -/
def orTypeRef (id : TypeId) (place : Place) (write : LimitedEncoder handles graph (List Token)) :
    LimitedEncoder handles graph (List Token) := do
  if place.indirect || place.returned then write
  else
    match ← findOrInsertType id with
    | some index => return [.typeRef index]
    | none => write

/-- One level of a qualified name, recorded as a whole. Where `spelledOut`, it is recorded but not
referred back to. -/
def orNameRef (spelledOut : Bool) (level : List Token) :
    LimitedEncoder handles graph (List Token) := do
  if spelledOut then
    recordName (Token.write level)
    return level ++ [.text "@"]
  else
    match ← findOrInsertName (Token.write level) with
    | some index => return [.nameRef index]
    | none => return level ++ [.text "@"]

end LinkName.Microsoft
