import Formula.Expr.Basic
import Formula.Grammar.Default
import Formula.Number.Literal
import Formula.Reader.Error

/-!
# Building trees

A builder turns an occurrence into a tree. It gives the pieces of text that it splits off back to the
reader, which is the parameter `read`; so one step of reading is described here once, whatever the
reader does about results it has seen before and about depth.
-/

set_option autoImplicit false

namespace Formula

section

variable {m : Type → Type} [Monad m] [MonadExceptOf ReadError m]

/-- A value that has to exist. -/
def orThrow {α : Type} (e : ReadError) : Option α → m α
  | some a => pure a
  | none => throw e

/-- Reads every text of a list in order. -/
def readAll (read : List Char → m Expr) : List (List Char) → m (List Expr)
  | [] => pure []
  | text :: texts => do
    let e ← read text
    let es ← readAll read texts
    pure (e :: es)

/-- Reads a list of expressions separated by commas. Commas in groups do not separate; a blank text
is the empty list. -/
def readList (read : List Char → m Expr) (list : List Char) : m (List Expr) := do
  let h ← orThrow (.unbalanced list) (hide? .brackets list)
  if Text.isAllBlank h.text then pure []
  else readAll read ((splitAtCommas h.text).map h.restore)

/-- The inside of a group that was found. -/
def inside (input : List Char) (token : Token) : m (List Char) :=
  orThrow (.misplaced input) (Text.interior? token.text)

/-- A binary operator between the texts on both sides. -/
def buildBinary (read : List Char → m Expr) (op : BinaryOperator) (input : List Char)
    (token : Token) : m Expr := do
  let front ← orThrow (.misplaced input) (Text.before? token.index input)
  let left ← read front
  let back ← orThrow (.misplaced input) (Text.from? token.stop input)
  let right ← read back
  pure (.binary left op right)

/-- An assignment; what stands on the left has to be a variable. -/
def buildAssignment (read : List Char → m Expr) (input : List Char) (token : Token) : m Expr := do
  let front ← orThrow (.misplaced input) (Text.before? token.index input)
  match ← read front with
  | .variable name =>
    let back ← orThrow (.misplaced input) (Text.from? token.stop input)
    let value ← read back
    pure (.assign name value)
  | _ => throw (.malformed input)

/-- A call of the function that was found, with the group after it. -/
def buildCall (read : List Char → m Expr) (input : List Char) (token : Token) : m Expr := do
  let rest ← orThrow (.misplaced input) (Text.from? token.stop input)
  let group ← orThrow (.malformed input) (enclosedGroup? '(' rest)
  let list ← inside input group
  let args ← readList read list
  pure (.call (String.ofList token.text) args)

/-- What a builder makes of an occurrence, for the builders that need no other rule and no host
program. -/
def buildPlain (read : List Char → m Expr) (builder : Builder) (input : List Char)
    (token : Token) : m Expr :=
  match builder with
  | .binary => do
    let op ← orThrow (.malformed input) (BinaryOperator.ofSymbol? token.text)
    buildBinary read op input token
  | .binaryAs op => buildBinary read op input token
  | .assignment => buildAssignment read input token
  | .before => do
    let op ← orThrow (.malformed input) (UnaryOperator.ofSymbol? .before token.text)
    let operand ← orThrow (.misplaced input) (Text.from? token.stop input)
    return .unary .before op (← read operand)
  | .after => do
    let op ← orThrow (.malformed input) (UnaryOperator.ofSymbol? .after token.text)
    let operand ← orThrow (.misplaced input) (Text.before? token.index input)
    return .unary .after op (← read operand)
  | .constant => do
    let kind ← orThrow (.malformed input) (Constant.ofSymbol? token.text)
    pure (.constant kind)
  | .variable => pure (.variable (String.ofList token.text))
  | .number => do
    let x ← orThrow (.malformed input) (Number.read? token.text)
    pure (.ofFloat x)
  | .call => buildCall read input token
  | .tuple => do
    let list ← inside input token
    return .collection .tuple (← readList read list)
  | .vector => do
    let list ← inside input token
    return .collection .vector (← readList read list)
  | .parentheses => do
    let list ← inside input token
    return .parens (← read list)
  | .aroundGroups | .host _ => throw (.misplaced input)

/-- What the first rule makes that applies to a text once its groups are hidden. The occurrence is
found in the hidden text and mapped back; the rule then builds from the text itself. -/
def buildAroundGroups (g : Grammar) (build : Builder → List Char → Token → m Expr)
    (input : List Char) : m Expr := do
  let h ← orThrow (.unbalanced input) (hide? .brackets input)
  let (builder, token) ←
    orThrow (.malformed input) (g.select? (fun r => r.name ≠ aroundGroupsName) h.text)
  let index ← orThrow (.misplaced input) (h.offset? token.index)
  build builder input ⟨h.restore token.text, index⟩

/-- One step of reading: the first rule that applies builds the tree. `build` is what its builder makes
of an occurrence. -/
def readStepWith (g : Grammar) (build : Builder → List Char → Token → m Expr) (input : List Char) :
    m Expr := do
  let (builder, token) ← orThrow (.malformed input) (g.select? (fun _ => true) input)
  match builder with
  | .aroundGroups => buildAroundGroups g build input
  | builder => build builder input token

/-- One step of reading without a host program. -/
def readStep (g : Grammar) (read : List Char → m Expr) (input : List Char) : m Expr :=
  readStepWith g (buildPlain read) input

end

end Formula
