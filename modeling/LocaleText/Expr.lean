import LocaleText.Keyed
import LocaleText.Text.Bytes

/-!
# Values and expressions

The inner part of a resource's tree: values are what entities and attributes hold, expressions are
what stands in arrays, objects, indices, brackets and macro bodies. The two contain each other.
Every node keeps the byte span it was read from.

* `Ident` is a name together with its span
* `Value` is a string, an array or an object with at most one default member
* `Expr` is an expression; `UnaryOp` and `BinaryOp` are its operators
* `BinaryOp.levels` lists the infix operators by how tightly they bind
-/

namespace LocaleText

/-- A name. Quotes around it are not part of the name, but lie within the span. -/
structure Ident where
  name : String
  span : Span
  deriving DecidableEq, Repr, Inhabited

/-- The three operators that stand before their operand. -/
inductive UnaryOp
  | not
  | plus
  | minus
  deriving DecidableEq, Repr, Inhabited

namespace UnaryOp

def token : UnaryOp → Char
  | not => '!'
  | plus => '+'
  | minus => '-'

/-- The operator that a character writes. -/
def ofChar? : Char → Option UnaryOp
  | '!' => some not
  | '+' => some plus
  | '-' => some minus
  | _ => none

theorem ofChar?_token (op : UnaryOp) : ofChar? op.token = some op := by cases op <;> rfl

end UnaryOp

/-- The operators that stand between their operands: logical, comparing and arithmetical. -/
inductive BinaryOp
  | or
  | and
  | eq
  | notEq
  | lt
  | gt
  | ltEq
  | gtEq
  | add
  | sub
  | mul
  | div
  | rem
  deriving DecidableEq, Repr, Inhabited

namespace BinaryOp

def token : BinaryOp → List Char
  | or => ['|', '|']
  | and => ['&', '&']
  | eq => ['=', '=']
  | notEq => ['!', '=']
  | lt => ['<']
  | gt => ['>']
  | ltEq => ['<', '=']
  | gtEq => ['>', '=']
  | add => ['+']
  | sub => ['-']
  | mul => ['*']
  | div => ['/']
  | rem => ['%']

/-- Whether the operator joins truth values. -/
def isLogical : BinaryOp → Bool
  | or => true
  | and => true
  | _ => false

/-- The operators by level, from the loosest to the tightest. Those of one level group to the left.
Within a level a token comes before the tokens that it starts with. -/
def levels : List (List BinaryOp) :=
  [[or], [and], [eq, notEq], [ltEq, gtEq, lt, gt], [add, sub], [mul, div, rem]]

end BinaryOp

/-- Where a reference looks its name up. -/
inductive Scope
  | variable
  | global
  deriving DecidableEq, Repr, Inhabited

/-- The sign before a referenced name. -/
def Scope.sigil : Scope → Char
  | .variable => '$'
  | .global => '@'

/-- What a bracket behind a name selects: `base[.key]` an attribute, `base[index]` a member. -/
inductive Selection
  | attribute
  | member
  deriving DecidableEq, Repr, Inhabited

mutual

/-- What an entity or an attribute holds. -/
inductive Value
  /-- Quoted text, its escapes kept as written. -/
  | string (content : String) (quote : Char) (span : Span)
  | array (items : List Expr) (span : Span)
  /-- Members in the order of their keys; `default` is the key marked with `*`. -/
  | object (members : List (String × Expr)) (default : Option String) (span : Span)

/-- An expression. -/
inductive Expr
  | integer (value : Nat) (span : Span)
  | ident (id : Ident)
  /-- `$name` or `@name`. -/
  | reference (scope : Scope) (id : Ident) (span : Span)
  /-- `~` -/
  | this (span : Span)
  | value (value : Value)
  | parenthesis (inner : Expr) (span : Span)
  | call (callee : Ident) (args : List Expr) (span : Span)
  | select (selection : Selection) (base : Ident) (key : Expr) (span : Span)
  | unary (op : UnaryOp) (arg : Expr) (span : Span)
  | binary (op : BinaryOp) (left right : Expr) (span : Span)
  | conditional (test consequent alternate : Expr) (span : Span)

end

instance : Inhabited Value := ⟨.string "" '"' default⟩
instance : Inhabited Expr := ⟨.this default⟩

namespace Value

def span : Value → Span
  | string _ _ s => s
  | array _ s => s
  | object _ _ s => s

/-- The content of a string. -/
def asString? : Value → Option String
  | string content _ _ => some content
  | _ => none

def items? : Value → Option (List Expr)
  | array items _ => some items
  | _ => none

def members? : Value → Option (Keyed Expr)
  | object members _ _ => some members
  | _ => none

/-- The member of an object that is chosen when no key matches. -/
def defaultMember? : Value → Option (String × Expr)
  | object members (some key) _ => members.find? fun member => member.1 = key
  | _ => none

end Value

namespace Expr

def span : Expr → Span
  | integer _ s => s
  | ident id => id.span
  | reference _ _ s => s
  | this s => s
  | value v => v.span
  | parenthesis _ s => s
  | call _ _ s => s
  | select _ _ _ s => s
  | unary _ _ s => s
  | binary _ _ _ s => s
  | conditional _ _ _ s => s

/-- The value of an integer literal. -/
def asInteger? : Expr → Option Nat
  | integer n _ => some n
  | _ => none

/-- Two operands joined by an infix operator. -/
def join (op : BinaryOp) (left right : Expr) : Expr :=
  binary op left right (left.span.cover right.span)

/-- A choice between two expressions. -/
def choice (test consequent alternate : Expr) : Expr :=
  conditional test consequent alternate (test.span.cover alternate.span)

end Expr

end LocaleText
