import NodeFormula.Constant
import NodeFormula.Catalog
import NodeFormula.Source.Excerpt

/-!
# Type errors

What can be wrong with a formula that is well formed, and the words for it.
-/

namespace NodeFormula

/-- What is wrong with a formula. -/
inductive Problem where
  | libraryStatement
  | nestedDefinition
  | alreadyDefined (name : String)
  | defaultNotConstant (param : String)
  | defaultType (param : String) (found expected : SocketType)
  | neverAssigned (output function : String)
  | unpackType (type : SocketType) (targets : Nat)
  | unpackCount (parts targets : Nat)
  | unpackConstant (value : Constant)
  | outputInZone (output : String)
  | outputType (output function : String) (expected found : SocketType)
  | counterInZone (name : String)
  | bundleInZone (name : String)
  | changesType (name : String) (before after : List SocketType)
  | unsupportedConstant (type : SocketType) (tree : TreeKind)
  | noField (type : SocketType) (field : String)
  | fieldValue (found expected : SocketType)
  | loopLength (count : Int)
  | noZones (tree : TreeKind)
  | countType (found : SocketType)
  | noOutputs
  | operatorTypes (symbol : String) (types : List SocketType)
  | unknownFunction (name : String)
  | overloadTypes (name : String) (types : List SocketType)
  | argumentCount (function : String) (takes given : Nat)
  | missingArgument (param function : String)
  | argumentType (param function : String) (expected found : SocketType)
  | outputRead (output function : String)
  | zoneLocal (name : String)
  | unknownInZone (name : String)
  | unknownVariable (name : String)
  | vectorLength (found : Nat)
  | componentType (found : SocketType)
  | noCombine (type : SocketType)
  | literalLength (type : SocketType) (needed : Nat) (tree : TreeKind)
  | noOutputNamed (name : String) (available : List String)
deriving DecidableEq

/-- The most iterations that a loop may be unrolled to. -/
def maxUnroll : Nat := 1024

/-- The words for a problem. -/
def Problem.message : Problem → String
  | libraryStatement => "libraries may only contain function and node group definitions"
  | nestedDefinition => "definitions are only allowed at the top level"
  | alreadyDefined n => s!"`{n}` is already defined"
  | defaultNotConstant p => s!"default value of `{p}` must be a constant"
  | defaultType p found expected =>
    s!"default value of `{p}` has type {found.name}, expected {expected.name}"
  | neverAssigned o f => s!"output `{o}` of `{f}` is never assigned"
  | unpackType t n => s!"cannot unpack a value of type {t.name} into {n} targets"
  | unpackCount k n => s!"cannot unpack {k} values into {n} targets"
  | unpackConstant v => s!"cannot unpack constant `{v.text}`"
  | outputInZone o => s!"output `{o}` cannot be assigned inside a repeat zone"
  | outputType o f expected found =>
    s!"output `{o}` of `{f}` has type {expected.name}, found {found.name}"
  | counterInZone n => s!"loop counter `{n}` cannot be reassigned inside a repeat zone"
  | bundleInZone n => s!"`{n}` holds several outputs and cannot be carried through a repeat zone"
  | changesType n before after =>
    let old := SocketType.listNames before
    let new := SocketType.listNames after
    s!"`{n}` changes type from {old} to {new} inside a repeat zone"
  | unsupportedConstant t k => s!"constants of type {t.name} are not supported in {k.name} trees"
  | noField t f => s!"type {t.name} has no field `{f}`"
  | fieldValue found expected =>
    s!"cannot assign a value of type {found.name} to a {expected.name} field"
  | loopLength n => s!"loop would unroll to {n} iterations, the limit is {maxUnroll}"
  | noZones k => s!"repeat zones are not available in {k.name} trees"
  | countType t => s!"repeat count must be an int, found {t.name}"
  | noOutputs => "this call has no outputs"
  | operatorTypes op ts =>
    let types := SocketType.listNames ts
    s!"operator `{op}` is not defined for ({types})"
  | unknownFunction f => s!"unknown function `{f}`"
  | overloadTypes f ts =>
    let types := SocketType.listNames ts
    s!"no overload of `{f}` accepts ({types})"
  | argumentCount f takes given => s!"`{f}` takes {takes} arguments but {given} were given"
  | missingArgument p f => s!"missing argument `{p}` of `{f}`"
  | argumentType p f expected found =>
    s!"argument `{p}` of `{f}` expects {expected.name}, found {found.name}"
  | outputRead o f => s!"output `{o}` of `{f}` can only be assigned"
  | zoneLocal n => s!"`{n}` is only defined inside a repeat zone"
  | unknownInZone n =>
    s!"unknown variable `{n}`, inputs must be introduced outside repeat zones"
  | unknownVariable n => s!"unknown variable `{n}`"
  | vectorLength n => s!"vector literals need 3 or 4 components, found {n}"
  | componentType t => s!"vector components must be numbers, found {t.name}"
  | noCombine t => s!"cannot build {t.name} values in this tree"
  | literalLength t n k => s!"non-constant {t.name} literals need {n} components in {k.name} trees"
  | noOutputNamed n available =>
    let names := ", ".intercalate available
    s!"no output named `{n}`, available outputs are {names}"

/-- A problem at a place of the source. -/
structure TypeError where
  problem : Problem
  span : Span
deriving DecidableEq

/-- A type error as an error of the source. -/
def TypeError.toError (e : TypeError) : SourceError := ⟨e.problem.message, e.span⟩

end NodeFormula
