import LinkName.Decl.Graph

/-!
Why a declaration has no C++ name. All but an unknown target mean that the declaration should not
have been given C++ linkage at all, so their messages are those of an internal error.
-/
namespace LinkName

/-- What is wrong with a type. -/
inductive TypeReason where
  | foreignQualifiers
  | noBuiltin
  | noCounterpart
  | bareFunction
  | arrayByValue
  | enumBase
  | noConvention
  | notFunction
  deriving DecidableEq, Repr

namespace TypeReason

def text : TypeReason → String
  | foreignQualifiers => "shared or immutable types can not be mapped to C++"
  | noBuiltin => "no C++ builtin"
  | noCounterpart => "no C++ counterpart"
  | bareFunction => "only pointers to functions can be mapped to C++"
  | arrayByValue =>
    "static arrays can not be passed by value to C++ functions, use a pointer instead"
  | enumBase => "the enum's base type has no C++ enum encoding"
  | noConvention => "extern(D) functions have no C++ calling convention"
  | notFunction => "a function must have a function type"

end TypeReason

/-- What is wrong with a template argument. -/
inductive ArgumentReason where
  | notIntegral
  | aliasTarget
  | aliasTemplate
  | nestedPack
  | packNotLast
  deriving DecidableEq, Repr

namespace ArgumentReason

def text : ArgumentReason → String
  | notIntegral => "only integral value parameters are supported"
  | aliasTarget => "an alias parameter must name a function, a variable or an eponymous template"
  | aliasTemplate => "an alias template must declare a struct, union or class"
  | nestedPack => "parameter packs do not nest"
  | packNotLast => "a parameter pack must be the last template argument"

end ArgumentReason

/-- Symbols, types and arguments appear as diagnostics spell them. -/
inductive Refusal where
  | symbolKind (symbol kind : String)
  | storageClass (symbol : String)
  | type (spelled : String) (reason : TypeReason)
  | argument (symbol arg : String) (reason : ArgumentReason)
  | unknownTarget (triple : String)
  | malformed (fault : Fault)
  deriving DecidableEq, Repr

namespace Refusal

def message : Refusal → String
  | symbolKind symbol kind =>
    "ICE: `" ++ symbol ++ "` is a " ++ kind ++ "; only variables and functions have C++ names"
  | storageClass symbol =>
    "ICE: C++ static non-__gshared non-extern variables not supported (`" ++ symbol ++ "`)"
  | type spelled reason =>
    "ICE: type `" ++ spelled ++ "` can not be mapped to C++: " ++ reason.text
  | argument symbol arg reason =>
    "ICE: unsupported argument `" ++ arg ++ "` for C++ template `" ++ symbol ++ "`: " ++ reason.text
  | unknownTarget triple => "`" ++ triple ++ "` is not a recognised target triple"
  | malformed fault => fault.message

end Refusal

end LinkName
