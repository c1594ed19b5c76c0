import Freshen.Tree.Stmt

/-!
# Callables and programs

- `Callable`: a named function with parameters and a body, the unit of renaming.
- `Program`: the callables of one source text, in order.
-/

namespace Freshen

/-- `fn name(params) body`. -/
structure Callable where
  name : Name
  params : Params
  body : Block
  span : Span
deriving DecidableEq

/-- The callables of one source text, in order. -/
structure Program where
  callables : List Callable
deriving DecidableEq

end Freshen
