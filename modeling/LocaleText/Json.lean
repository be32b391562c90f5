/-!
# JSON documents

The part of JSON that machines are told about resources in: there are no fractions, no negative
numbers and no truth values. Objects keep the order of their fields.

* `Json` is a document
* `Json.quote` writes a string with its escapes
* `Json.pretty` writes a document over several lines, indented by two spaces a level
-/

namespace LocaleText

inductive Json
  | null
  | number (n : Nat)
  | string (text : String)
  | array (items : List Json)
  | object (fields : List (String × Json))
  deriving Inhabited

namespace Json

def hexDigit (n : Nat) : Char := Nat.digitChar (n % 16)

/-- A character inside a JSON string. Quotes, backslashes and control characters are escaped, all
else stands for itself. -/
def escape (c : Char) : List Char :=
  if c = '"' then ['\\', '"']
  else if c = '\\' then ['\\', '\\']
  else if c = '\x08' then ['\\', 'b']
  else if c = '\t' then ['\\', 't']
  else if c = '\n' then ['\\', 'n']
  else if c = '\x0c' then ['\\', 'f']
  else if c = '\r' then ['\\', 'r']
  else if c.toNat < 0x20 then
    ['\\', 'u', '0', '0', hexDigit (c.toNat / 16), hexDigit c.toNat]
  else [c]

def quote (text : String) : List Char := '"' :: (text.toList.flatMap escape ++ ['"'])

/-- A new line, indented to a level. -/
def newline (depth : Nat) : List Char := '\n' :: List.replicate (2 * depth) ' '

mutual

/-- A document over several lines, of which all but the first are indented at least to `depth`. -/
def prettyChars (depth : Nat) : Json → List Char
  | null => ['n', 'u', 'l', 'l']
  | number n => Nat.toDigits 10 n
  | string text => quote text
  | array [] => ['[', ']']
  | array (item :: items) =>
    '[' :: (newline (depth + 1) ++ (item.prettyChars (depth + 1) ++
      (prettyItems (depth + 1) items ++ (newline depth ++ [']']))))
  | object [] => ['\x7b', '\x7d']
  | object ((key, value) :: fields) =>
    '\x7b' :: (newline (depth + 1) ++ (quote key ++ ([':', ' '] ++ (value.prettyChars (depth + 1) ++
      (prettyFields (depth + 1) fields ++ (newline depth ++ ['\x7d']))))))

/-- The items behind the first. -/
def prettyItems (depth : Nat) : List Json → List Char
  | [] => []
  | item :: items =>
    ',' :: (newline depth ++ (item.prettyChars depth ++ prettyItems depth items))

/-- The fields behind the first. -/
def prettyFields (depth : Nat) : List (String × Json) → List Char
  | [] => []
  | (key, value) :: fields =>
    ',' :: (newline depth ++ (quote key ++ ([':', ' '] ++
      (value.prettyChars depth ++ prettyFields depth fields))))

end

def pretty (document : Json) : String := String.ofList (document.prettyChars 0)

end Json

end LocaleText
