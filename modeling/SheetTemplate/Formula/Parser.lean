import SheetTemplate.Formula.Error
import SheetTemplate.Formula.Expr
import SheetTemplate.Formula.Level
import SheetTemplate.Formula.Lexer
import SheetTemplate.Formula.Limits

/-!
# From tokens to a tree

The items of a level are taken from left to right. Operands go onto one stack, and operators that
still wait for their right operand onto another; an operator takes its operands from the stack as
soon as one follows that does not bind more tightly. The arguments of a call are read as levels of
their own, with one level of nesting less to spend.
-/

namespace SheetTemplate.Formula

/-- What waits for its right operand, or for its closing parenthesis. -/
inductive Pending
  | binary (op : Operator)
  | negate
  | group
  deriving DecidableEq

/-- Whether a waiting operator takes its operands before `op` takes its own. -/
def Pending.yieldsTo (op : Operator) : Pending → Bool
  | binary earlier => op.precedence ≤ earlier.precedence
  | negate => true
  | group => false

/-- The state of the parser within one level. The tops of both stacks come first. -/
structure Yard where
  output : List Expr
  pending : List Pending
  expectsOperand : Bool

/-- Fail with a fault. -/
def fail {α : Type} (fault : Fault) : Except Error α := .error (.malformed fault)

/-- Let a waiting operator take its operands. -/
def reduce : Pending → List Expr → Except Error (List Expr)
  | .binary op, right :: left :: output => .ok (.binary op left right :: output)
  | .binary op, _ => fail (.missingOperand op)
  | .negate, operand :: output => .ok (.negate operand :: output)
  | .negate, [] => fail (.missingOperand .sub)
  | .group, _ => fail .groupAsOperator

/-- Let the waiting operators that yield to `op` take their operands. -/
def reduceFor (op : Operator) : List Pending → List Expr → Except Error (List Pending × List Expr)
  | [], output => .ok ([], output)
  | p :: pending, output =>
    if p.yieldsTo op then
      match reduce p output with
      | .error e => .error e
      | .ok output => reduceFor op pending output
    else .ok (p :: pending, output)

/-- Let the operators inside the innermost group take their operands, and close the group. -/
def reduceGroup : List Pending → List Expr → Except Error (List Pending × List Expr)
  | [], _ => fail .unmatchedClose
  | .group :: _, [] => fail .emptyGroup
  | .group :: pending, inner :: output => .ok (pending, .group inner :: output)
  | p :: pending, output =>
    match reduce p output with
    | .error e => .error e
    | .ok output => reduceGroup pending output

/-- Let all waiting operators take their operands. -/
def reduceAll : List Pending → List Expr → Except Error (List Expr)
  | [], output => .ok output
  | .group :: _, _ => fail .unclosedGroup
  | p :: pending, output =>
    match reduce p output with
    | .error e => .error e
    | .ok output => reduceAll pending output

namespace Yard

/-- The state before the first item. -/
def start : Yard := ⟨[], [], true⟩

/-- Take an operand. -/
def operand (y : Yard) (e : Expr) : Yard := ⟨e :: y.output, y.pending, false⟩

/-- Take an operator where an operand is expected: a sign. -/
def sign (y : Yard) : Operator → Except Error Yard
  | .sub => .ok { y with pending := .negate :: y.pending }
  | .add => .ok y
  | op => fail (.missingLeftOperand op)

/-- Take an operator after an operand. -/
def operator (y : Yard) (op : Operator) : Except Error Yard :=
  match reduceFor op y.pending y.output with
  | .error e => .error e
  | .ok (pending, output) => .ok ⟨output, .binary op :: pending, true⟩

/-- Take a closing parenthesis after an operand. -/
def close (y : Yard) : Except Error Yard :=
  match reduceGroup y.pending y.output with
  | .error e => .error e
  | .ok (pending, output) => .ok ⟨output, pending, false⟩

/-- Take a token, where `opens` tells whether an opening parenthesis follows it. -/
def token (y : Yard) (opens : Bool) (t : Token) : Except Error Yard :=
  match t with
  | .number x =>
    if y.expectsOperand then .ok (y.operand (.number x)) else fail (.missingOperatorBefore t)
  | .identifier name =>
    if y.expectsOperand then
      if opens then fail (.unclosedCall name) else .ok (y.operand (.identifier name))
    else fail (.missingOperatorBefore t)
  | .operator op => if y.expectsOperand then y.sign op else y.operator op
  | .openParen =>
    if y.expectsOperand then .ok { y with pending := .group :: y.pending }
    else fail (.missingOperatorBefore t)
  | .closeParen => if y.expectsOperand then fail .missingOperandBeforeClose else y.close
  | .comma => fail .commaOutsideCall

/-- Take an item, where `opens` tells whether an opening parenthesis follows it. -/
def step (call : String → List Token → Except Error Expr) (y : Yard) (opens : Bool) :
    Item → Except Error Yard
  | .call name inner =>
    if y.expectsOperand then
      match call name inner with
      | .error e => .error e
      | .ok e => .ok (y.operand e)
    else fail (.missingOperatorBefore (.identifier name))
  | .token t => y.token opens t

/-- The tree after the last item. -/
def finish (y : Yard) : Except Error Expr :=
  if y.expectsOperand then fail .incomplete
  else
    match reduceAll y.pending y.output with
    | .error e => .error e
    | .ok [] => fail .emptyOutput
    | .ok [e] => .ok e
    | .ok _ => fail .missingOperator

/-- Whether the next item is an opening parenthesis. -/
def opensNext : List Item → Bool
  | .token .openParen :: _ => true
  | _ => false

/-- Take all items of a level, reading calls by `call`. -/
def run (call : String → List Token → Except Error Expr) : Yard → List Item → Except Error Expr
  | y, [] => y.finish
  | y, item :: rest =>
    match y.step call (opensNext rest) item with
    | .error e => .error e
    | .ok y => run call y rest

end Yard

/-- Read one argument. Only too deep a nesting is an error; an argument that is no expression is
kept as its tokens. -/
def parseArgument (parse : List Token → Except Error Expr) (ts : List Token) : Except Error Expr :=
  match parse ts with
  | .ok e => .ok e
  | .error (.tooDeep max) => .error (.tooDeep max)
  | .error _ => .ok (.invalid ts)

/-- Read arguments up to the first error. -/
def parseArguments (parse : List Token → Except Error Expr) :
    List (List Token) → Except Error (List Expr)
  | [] => .ok []
  | ts :: rest =>
    match parseArgument parse ts with
    | .error e => .error e
    | .ok arg =>
      match parseArguments parse rest with
      | .error e => .error e
      | .ok args => .ok (arg :: args)

/-- Read a call from its name and the tokens between its parentheses. -/
def parseCall (parse : List Token → Except Error Expr) (name : String) (inner : List Token) :
    Except Error Expr :=
  match parseArguments parse (if inner = [] then [] else splitAtCommas 0 inner) with
  | .error e => .error e
  | .ok args => .ok (.call name args)

/-- Read the tokens of a level, in which calls may be nested `nesting` deep. -/
def parseLevel (l : Limits) : (nesting : Nat) → List Token → Except Error Expr
  | 0, ts => Yard.start.run (fun _ _ => .error (.tooDeep l.maxDepth)) (items l.maxTokens ts)
  | nesting + 1, ts => Yard.start.run (parseCall (parseLevel l nesting)) (items l.maxTokens ts)

/-- Read the tokens of a level inside `depth` calls. -/
def parseTokens (l : Limits) (depth : Nat) (ts : List Token) : Except Error Expr :=
  parseLevel l (l.maxDepth - depth) ts

/-- Read the text of a formula, which starts with `=`. -/
def parseChars (l : Limits) : List Char → Except Error Expr
  | '=' :: body =>
    if l.maxLength < body.length + 1 then .error (.tooLong (body.length + 1) l.maxLength)
    else
      match tokenize l.maxLength body with
      | [] => .error .empty
      | ts => parseTokens l 0 ts
  | _ => .error .missingEquals

/-- Read a formula. -/
def parse (l : Limits) (formula : String) : Except Error Expr := parseChars l formula.toList

end SheetTemplate.Formula
