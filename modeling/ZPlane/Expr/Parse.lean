import ZPlane.Expr.Basic
import ZPlane.Token.Scan

/-!
# Parsing

Tokens become an expression in one pass from left to right. The parser keeps a
stack of what is still open: operations that wait for their right operand, and
groups that wait for their closing parenthesis. Each token either extends the
stack or finishes some of it, so parsing is a fold of `Parser.step` over the
tokens, and an error depends on nothing after the token it is reported at.

How operators bind, from loosest to tightest:

* `=`, which stands outside every group and has a bare name on its left;
* `+` and `-`, where one sign may also come before the first term, and `-x` is
  `0 - x`;
* `*` and `/`;
* juxtaposition, the product of a factor with a number or a name that follows
  it, as in `2 pi z`;
* `^`;
* a call, an argument in parentheses after a name or a group. A number is never
  called, and neither is the result of a call.

All of them group to the left. When the token after an operand is seen, the
operations that bind at least as tightly as that token are finished, innermost
first, and only then is the token itself judged.

The language is meant to be typed by hand, and both the depth of groups and the
number of operations are bounded. An operation is counted when it is finished
and reported where its operator stands. The bounds are an argument of the parser,
since what it does with a text that stays within them does not depend on them.

## Main definitions

* `ParseError`: A failure of parsing with its column.
* `Binding`: How tightly an operator binds.
* `Parser.Limits`: How much one expression may hold.
* `Parser.Frame`: An open operation or an open group.
* `Parser.finish`: Finishes the open operations that bind tightly enough.
* `Parser.step`: What one token does to the state.
* `Parser.run`: What a list of tokens does to the state.
* `Expr.ofTokens`: The expression that a list of tokens denotes.
-/

namespace ZPlane

/-- Why tokens are no expression. -/
inductive ParseError.Cause
  | expectedExpression
  | unexpectedToken (lexeme : String)
  | unterminatedParenthesis
  | invalidAssignmentTarget (target : String)
  | nestingTooDeep
  | expressionTooLarge
  | endOfTokens
deriving DecidableEq

/-- A failure of parsing, at the column of the token to blame. -/
structure ParseError where
  column : Nat
  cause : ParseError.Cause
deriving DecidableEq

namespace ParseError

/-- The wording of a cause. -/
def Cause.message : Cause → String
  | .expectedExpression => "Expected expression"
  | .unexpectedToken lexeme => s!"Unexpected token '{lexeme}'"
  | .unterminatedParenthesis => "Expected closing parenthesis"
  | .invalidAssignmentTarget target => target ++ " is not a variable"
  | .nestingTooDeep => "Parentheses nested too deeply"
  | .expressionTooLarge => "Expression has too many operations"
  | .endOfTokens => "Unexpected end of token stream"

/-- The wording of a failure. -/
def message (e : ParseError) : String :=
  s!"column {e.column}: " ++ e.cause.message

end ParseError

/-- How tightly an operator binds. -/
inductive Binding
  | assignment
  | sum
  | product
  | juxtaposition
  | power
deriving DecidableEq

/-- The bindings in order, loosest first. -/
def Binding.level : Binding → Nat
  | .assignment => 0
  | .sum => 1
  | .product => 2
  | .juxtaposition => 3
  | .power => 4

namespace Parser

/-- How much one expression may hold. -/
structure Limits where
  /-- The number of groups that may be open at once. -/
  nesting : Nat
  /-- The number of operations. -/
  operations : Nat
deriving DecidableEq

/-- The limits of the language. -/
def Limits.standard : Limits :=
  ⟨128, 512⟩

/-- Something that was begun and waits for more tokens. -/
inductive Frame
  /-- An operation that has its left operand. -/
  | operation (left : Expr) (op : Operator) (binding : Binding) (column : Nat)
  /-- A group, which is the argument of a call if it has a callee. -/
  | group (callee : Option Expr) (column : Nat)
deriving DecidableEq

/-- What the parser waits for. -/
inductive Mode
  /-- The first operand of a sum, which may have a sign. -/
  | signed
  /-- An operand without a sign. -/
  | operand
  /-- The operand `e` was read, and `callable` says whether a parenthesis after
      it is a call. -/
  | read (e : Expr) (callable : Bool)
  /-- The text has ended and denotes `e`. -/
  | ended (e : Expr)
deriving DecidableEq

/-- The state of the parser between two tokens. -/
structure State where
  /-- What is open, innermost first. -/
  stack : List Frame
  /-- The number of operations finished so far. -/
  operations : Nat
  mode : Mode
deriving DecidableEq

/-- The state before the first token. -/
def State.initial : State :=
  ⟨[], 0, .signed⟩

/-- The number of open groups. -/
def depth (stack : List Frame) : Nat :=
  stack.countP fun
    | .group .. => true
    | .operation .. => false

section

variable (limits : Limits)

/-- The number of operations after one more is finished, whose operator stands
    at `column`. -/
def countOperation (column operations : Nat) : Except ParseError Nat :=
  if operations < limits.operations then .ok (operations + 1)
  else .error ⟨column, .expressionTooLarge⟩

/-- Finishes the innermost open operations that bind at least as tightly as
    `binding`, given the last operand. Groups stay open. -/
def finish (binding : Binding) :
    List Frame → Nat → Expr → Except ParseError (List Frame × Nat × Expr)
  | .operation left op b column :: rest, operations, e =>
    if binding.level ≤ b.level then do
      let operations ← countOperation limits column operations
      finish binding rest operations (.operation op left e)
    else
      .ok (.operation left op b column :: rest, operations, e)
  | stack, operations, e => .ok (stack, operations, e)

/-- Opens a group at `column`, as the argument of `callee` if there is one. -/
def openGroup (callee : Option Expr) (column : Nat) (stack : List Frame) (operations : Nat) :
    Except ParseError State :=
  if depth stack < limits.nesting then .ok ⟨.group callee column :: stack, operations, .signed⟩
  else .error ⟨column, .nestingTooDeep⟩

/-- Closes a group around `e`. -/
def closeGroup (callee : Option Expr) (column : Nat) (stack : List Frame) (operations : Nat)
    (e : Expr) : Except ParseError State :=
  match callee with
  | none => .ok ⟨stack, operations, .read e true⟩
  | some f => do
    let operations ← countOperation limits column operations
    return ⟨stack, operations, .read (.operation .call f e) false⟩

/-- The arithmetic operator that a token is between two operands. -/
def binary? : Token.Kind → Option (Arith × Binding)
  | .plus => some (.add, .sum)
  | .minus => some (.sub, .sum)
  | .star => some (.mul, .product)
  | .slash => some (.div, .product)
  | .caret => some (.pow, .power)
  | _ => none

/-- The operand that a token is on its own, and whether it can be called. -/
def atom? : Token.Kind → Option (Expr × Bool)
  | .number value => some (.literal (.ofReal value), false)
  | .identifier name => some (.name name, true)
  | _ => none

/-- Opens an operation with left operand `e`, after finishing those that bind at
    least as tightly. -/
def openOperation (s : State) (e : Expr) (op : Operator) (binding : Binding) (column : Nat)
    (next : Mode) : Except ParseError State := do
  let (stack, operations, left) ← finish limits binding s.stack s.operations e
  return ⟨.operation left op binding column :: stack, operations, next⟩

/-- A token where an operand has to start. -/
def startOperand (s : State) (t : Token) : Except ParseError State :=
  match atom? t.kind with
  | some (e, callable) => .ok { s with mode := .read e callable }
  | none =>
    match t.kind with
    | .leftParen => openGroup limits none t.column s.stack s.operations
    | .endOfText => .error ⟨t.column, .expectedExpression⟩
    | _ => .error ⟨t.column, .unexpectedToken t.lexeme⟩

/-- A token where a sum may start with a sign. A plus sign changes nothing, and a
    minus sign subtracts the first term from zero. -/
def startSum (s : State) (t : Token) : Except ParseError State :=
  match t.kind with
  | .plus => .ok { s with mode := .operand }
  | .minus =>
    .ok { s with
      stack := .operation (.literal .zero) (.arith .sub) .sum t.column :: s.stack
      mode := .operand }
  | _ => startOperand limits s t

/-- A token that ends the sum `e` around it: the end of a group, of the left side
    of an assignment, or of the text. -/
def endSum (s : State) (e : Expr) (t : Token) : Except ParseError State := do
  let (stack, operations, e) ← finish limits .assignment s.stack s.operations e
  match stack with
  | .group callee column :: rest =>
    match t.kind with
    | .rightParen => closeGroup limits callee column rest operations e
    | _ => .error ⟨t.column, .unterminatedParenthesis⟩
  | _ =>
    match t.kind with
    | .equal =>
      match e with
      | .name _ =>
        .ok ⟨.operation e .assign .assignment t.column :: stack, operations, .signed⟩
      | _ => .error ⟨t.column, .invalidAssignmentTarget e.text⟩
    | .endOfText => .ok ⟨stack, operations, .ended e⟩
    | _ => .error ⟨t.column, .unexpectedToken t.lexeme⟩

/-- A token after the operand `e`. -/
def afterOperand (s : State) (e : Expr) (callable : Bool) (t : Token) :
    Except ParseError State :=
  match binary? t.kind with
  | some (a, binding) => openOperation limits s e (.arith a) binding t.column .operand
  | none =>
    match atom? t.kind with
    | some (factor, factorCallable) =>
      openOperation limits s e (.arith .mul) .juxtaposition t.column (.read factor factorCallable)
    | none =>
      match t.kind, callable with
      | .leftParen, true => openGroup limits (some e) t.column s.stack s.operations
      | _, _ => endSum limits s e t

/-- What one token does to the state. After the end nothing is read. -/
def step (s : State) (t : Token) : Except ParseError State :=
  match s.mode with
  | .signed => startSum limits s t
  | .operand => startOperand limits s t
  | .read e callable => afterOperand limits s e callable t
  | .ended _ => .ok s

/-- What a list of tokens does to the state. -/
def run (s : State) (tokens : List Token) : Except ParseError State :=
  tokens.foldlM (step limits) s

end

end Parser

namespace Expr

/-- The expression that a list of tokens denotes within limits. The tokens of a
    text end with the end of the text; a list that does not is refused, and since
    it has no token to blame, at column zero. -/
def ofTokensWithin (limits : Parser.Limits) (tokens : List Token) : Except ParseError Expr := do
  let s ← Parser.run limits .initial tokens
  match s.mode with
  | .ended e => return e
  | _ => .error ⟨0, .endOfTokens⟩

/-- The expression that a list of tokens denotes. -/
def ofTokens (tokens : List Token) : Except ParseError Expr :=
  ofTokensWithin .standard tokens

end Expr

end ZPlane
