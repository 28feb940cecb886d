import QueryExpr.Expr.Pending
import QueryExpr.Text
import QueryExpr.Token.Sequence

/-!
# Parsing

A text is parsed by one pass over its tokens. `ParseState.step` takes the next token into account,
and `ParseState.finish` is what the end of the text means. Neither looks ahead, so everything that
is decided about a token is decided from the tokens before it.

Sums bind more tightly than comparisons and products more tightly than sums. Operators of equal
precedence group to the left. Arguments of a call are operands: an operator in an argument has to
stand in parentheses.

A minus sign is part of a number only where an operand is expected and only if the digits touch it.
The words `null` and, after a point, `count` are recognised in any mixture of case.
-/

namespace QueryExpr

/-- What the next token is expected to be. -/
inductive Expecting where
  /-- The beginning of an operand. -/
  | operand
  /-- The first argument of a call, or the end of a call without arguments. -/
  | argument
  /-- The digits that belong to this minus sign. -/
  | digits (minus : Token)
  /-- Whatever shows what this name names. -/
  | afterName (name : String)
  /-- The word after the point that follows this relationship. -/
  | column (relationship : String)
  /-- What follows this complete operand. -/
  | continuation (left : Expr)

/-- How far parsing has come. -/
structure ParseState where
  /-- What comes next. -/
  expecting : Expecting
  /-- What is open, innermost first. -/
  frames : List Frame
  /-- The level of nesting. -/
  level : Nat

namespace ParseState

/-- Nothing has been read. -/
def initial : ParseState where
  expecting := .operand
  frames := []
  level := 0

/-- The error for a token in the wrong place. -/
def outOfPlace (t : Token) : ParseError :=
  .unexpectedToken t.text t.start

/-- Takes a token where an operand begins. -/
def beginOperand (limit : Nat) (frames : List Frame) (level : Nat) (t : Token) :
    Except ParseError ParseState :=
  match t.lexeme with
  | .parenLeft => do
    let inner ← Frame.deepen limit level
    return { expecting := .operand, frames := .paren level :: frames, level := inner }
  | .operator .sub => return { expecting := .digits t, frames, level }
  | .number text => return { expecting := .continuation (.number text), frames, level }
  | .string raw => return { expecting := .continuation (.string raw), frames, level }
  | .name text =>
    if Text.sameIgnoringCase text "null" then
      return { expecting := .continuation .null, frames, level }
    else
      return { expecting := .afterName text, frames, level }
  | _ => throw (outOfPlace t)

/-- Takes a token after a complete operand. -/
def continueFrom (limit : Nat) (left : Expr) (frames : List Frame) (level : Nat) (t : Token) :
    Except ParseError ParseState :=
  match t.lexeme with
  | .operator op =>
    match Frame.close op.precedence left level frames with
    | (_, _, .call .. :: _) => throw (outOfPlace t)
    | (left, level, frames) => do
      let inner ← Frame.deepen limit level
      return { expecting := .operand, frames := .operator left op inner :: frames, level := inner }
  | .comma =>
    match Frame.close 0 left level frames with
    | (last, level, .call name arguments outer :: frames) =>
      let frames := .call name (arguments ++ [last]) outer :: frames
      return { expecting := .operand, frames, level }
    | (_, _, frames) => throw (Frame.misfit t frames)
  | .parenRight =>
    match Frame.close 0 left level frames with
    | (inner, _, .paren outer :: frames) =>
      return { expecting := .continuation (.paren inner), frames, level := outer }
    | (last, _, .call name arguments outer :: frames) =>
      let whole := .call name (arguments ++ [last])
      return { expecting := .continuation whole, frames, level := outer }
    | (_, _, frames) => throw (Frame.misfit t frames)
  | _ => throw (Frame.misfit t (Frame.close 0 left level frames).2.2)

/-- Takes a token after a name. A parenthesis makes it a function, a point makes it a relationship,
and anything else means that the name was an attribute. -/
def continueName (limit : Nat) (name : String) (frames : List Frame) (level : Nat) (t : Token) :
    Except ParseError ParseState :=
  match t.lexeme with
  | .parenLeft => do
    let inner ← Frame.deepen limit level
    return { expecting := .argument, frames := .call name [] level :: frames, level := inner }
  | .dot => return { expecting := .column name, frames, level }
  | _ => continueFrom limit (.attr name) frames level t

/-- Takes the next token. At most `limit` levels may be open. -/
def step (limit : Nat) (s : ParseState) (t : Token) : Except ParseError ParseState :=
  match s.expecting with
  | .operand => beginOperand limit s.frames s.level t
  | .argument =>
    match t.lexeme, s.frames with
    | .parenRight, .call name arguments outer :: frames =>
      return { expecting := .continuation (.call name arguments), frames, level := outer }
    | _, frames => beginOperand limit frames s.level t
  | .digits minus =>
    match t.lexeme with
    | .number text =>
      if t.start = minus.stop then
        return { s with expecting := .continuation (.number (minus.text ++ text)) }
      else
        throw (outOfPlace minus)
    | _ => throw (outOfPlace minus)
  | .afterName name => continueName limit name s.frames s.level t
  | .column relationship =>
    match t.lexeme with
    | .name text =>
      if Text.sameIgnoringCase text "count" then
        return { s with expecting := .continuation (.count relationship) }
      else
        return { s with expecting := .continuation (.related relationship text) }
    | _ => throw (outOfPlace t)
  | .continuation left => continueFrom limit left s.frames s.level t

/-- The whole tree, if nothing is open after `e`. -/
def complete (e : Expr) (frames : List Frame) (level position : Nat) : Except ParseError Expr :=
  match Frame.close 0 e level frames with
  | (root, _, []) => .ok root
  | (_, _, frames) => .error (Frame.unfinished position frames)

/-- The tree that has been read when the text ends at `position`. -/
def finish (s : ParseState) (position : Nat) : Except ParseError Expr :=
  match s.expecting with
  | .operand | .argument | .column _ => .error .unexpectedEnd
  | .digits minus => .error (outOfPlace minus)
  | .afterName name => complete (.attr name) s.frames s.level position
  | .continuation e => complete e s.frames s.level position

/-- Takes all the tokens of a list. -/
def run (limit : Nat) (s : ParseState) (tokens : List Token) : Except ParseError ParseState :=
  tokens.foldlM (step limit) s

@[simp] theorem run_nil (limit : Nat) (s : ParseState) : run limit s [] = .ok s := rfl

@[simp] theorem run_cons (limit : Nat) (s : ParseState) (t : Token) (tokens : List Token) :
    run limit s (t :: tokens) = step limit s t >>= fun s => run limit s tokens := rfl

theorem run_append (limit : Nat) (s : ParseState) (tokens more : List Token) :
    run limit s (tokens ++ more) = run limit s tokens >>= fun s => run limit s more := by
  simp [run]

end ParseState

namespace Expr

/-- The number of levels allowed unless a caller chooses otherwise. -/
def defaultLimit : Nat := 256

/-- Parses a text that has been split in tokens. A lexical error counts only if the tokens before it
are the beginning of some expression. -/
def ofLexed (limit : Nat) (l : Lexed) : Except ParseError Expr :=
  match l.tokens, l.error with
  | [], none => .error .noExpression
  | tokens, error => do
    let s ← ParseState.initial.run limit tokens
    match error with
    | none => s.finish l.position
    | some error => throw (.lexical error)

/-- Parses a whole text in which at most `limit` levels are nested. -/
def parseWithin (limit : Nat) (text : String) : Except ParseError Expr :=
  ofLexed limit (Lexed.ofText text)

/-- Parses a whole text under the default limit. -/
def parse (text : String) : Except ParseError Expr :=
  parseWithin defaultLimit text

end Expr

end QueryExpr
