import HappyView.Foundation.Lexer
import Mathlib.Data.List.Infix

/-!
# What three lexers read as names

The raw SQL guard tokenizes a text by a generic dialect; the database that executes the text
reads it by rules of its own. The lexers here give the names in a text, bare or quoted, and pass
over everything else: strings, comments, numbers, parameters, operators.

They differ in what they take for a string or a comment. The generic dialect has dollar-quoted
strings, strings with a prefix letter, nested comments, names between backticks, and operators
that take in the first character of a comment; SQLite has none of these but the backticks and
takes names between brackets; Postgres reads a backtick as an operator, and ends a line comment
at a carriage return.
-/

namespace HappyView.Sql

open HappyView.Foundation

abbrev Name := List Char

/-! ## Parts that the lexers share -/

def quoted (q : Char) : List Char → Option (List Char × List Char)
  | [] => none
  | c :: rest =>
    if c = q then
      match rest with
      | d :: rest' =>
        if d = q then (quoted q rest').map fun (value, after) => (q :: value, after)
        else some ([], d :: rest')
      | [] => some ([], [])
    else (quoted q rest).map fun (value, after) => (c :: value, after)

def quotedEscaped (q : Char) : List Char → Option (List Char × List Char)
  | [] => none
  | c :: rest =>
    if c = '\\' then
      match rest with
      | d :: rest' => (quotedEscaped q rest').map fun (value, after) => (d :: value, after)
      | [] => none
    else if c = q then
      match rest with
      | d :: rest' =>
        if d = q then (quotedEscaped q rest').map fun (value, after) => (q :: value, after)
        else some ([], d :: rest')
      | [] => some ([], [])
    else (quotedEscaped q rest).map fun (value, after) => (c :: value, after)

/-- The rest after the close of `depth` comments, each of which may hold others. -/
def nestedComment : Nat → List Char → Option (List Char)
  | 0, rest => some rest
  | _ + 1, [] => none
  | depth + 1, '*' :: '/' :: rest => nestedComment depth rest
  | depth + 1, '/' :: '*' :: rest => nestedComment (depth + 2) rest
  | depth + 1, _ :: rest => nestedComment (depth + 1) rest

def flatComment : List Char → List Char
  | [] => []
  | '*' :: '/' :: rest => rest
  | _ :: rest => flatComment rest

def after (delimiter : List Char) : List Char → Option (List Char)
  | [] => none
  | c :: rest =>
    if delimiter.isPrefixOf (c :: rest) then some ((c :: rest).drop delimiter.length)
    else after delimiter rest

def name (read : Option (List Char × List Char)) : Except String (List Name × List Char) :=
  match read with
  | some (value, rest) => .ok ([value], rest)
  | none => .error "unterminated identifier"

def skip (read : Option (List Char)) : Except String (List Name × List Char) :=
  match read with
  | some rest => .ok ([], rest)
  | none => .error "unterminated literal or comment"

def digits (rest : List Char) : List Char :=
  match rest.dropWhile Char.isDigit with
  | '.' :: fraction => fraction.dropWhile Char.isDigit
  | rest => rest

/-! ## The guard's dialect -/

section Generic

-- The Unicode letters, and whether plain strings take backslash escapes.
variable (alphabetic : Char → Bool) (backslash : Bool)

def genericStart (c : Char) : Bool := alphabetic c || c ∈ ['_', '#', '@']

def genericPart (c : Char) : Bool := alphabetic c || c.isDigit || c ∈ ['_', '#', '@', '$']

/-- `$tag$ … $tag$`, or a placeholder. -/
def genericDollar (rest : List Char) : Except String (List Name × List Char) :=
  let isTag := fun c => alphabetic c || c.isDigit || c = '_'
  match rest.dropWhile isTag with
  | '$' :: body => skip (after ('$' :: rest.takeWhile isTag ++ ['$']) body)
  | rest => .ok ([], rest)

def genericNumber (rest : List Char) : List Char :=
  let exponent := match digits rest with
    | e :: sign :: rest =>
      if e ∈ ['e', 'E'] ∧ sign.isDigit then rest.dropWhile Char.isDigit
      else if e ∈ ['e', 'E'] ∧ sign ∈ ['+', '-'] ∧ rest.head?.any Char.isDigit then
        rest.dropWhile Char.isDigit
      else e :: sign :: rest
    | rest => rest
  match exponent with
  | 'L' :: rest => rest
  | rest => rest

def genericNext (c : Char) (rest : List Char) : Except String (List Name × List Char) :=
  let quote := rest.head?
  if c ∈ [' ', '\t', '\n', '\r'] then .ok ([], rest)
  else if c ∈ ['b', 'B', 'r', 'R'] ∧ (quote = some '\'' ∨ quote = some '"') then
    skip ((quoted (quote.getD '\'') rest.tail).map (·.2))
  else if c ∈ ['n', 'N', 'x', 'X'] ∧ quote = some '\'' then skip ((quoted '\'' rest.tail).map (·.2))
  else if c ∈ ['e', 'E'] ∧ quote = some '\'' then skip ((quotedEscaped '\'' rest.tail).map (·.2))
  else if c = '\'' then
    skip ((if backslash then quotedEscaped '\'' rest else quoted '\'' rest).map (·.2))
  else if c = '"' ∨ c = '\x60' then name (quoted c rest)
  else if c.isDigit then .ok ([], genericNumber rest)
  else if c = '-' ∧ quote = some '-' then .ok ([], rest.dropWhile (· ≠ '\n'))
  else if c = '/' ∧ quote = some '*' then skip (nestedComment 1 rest.tail)
  -- `//`, and the roots `|/` and `||/`.
  else if c ∈ ['/', '|'] ∧ quote = some '/' then .ok ([], rest.tail)
  else if c = '$' then genericDollar alphabetic rest
  else if genericStart alphabetic c then
    .ok ([c :: rest.takeWhile (genericPart alphabetic)], rest.dropWhile (genericPart alphabetic))
  else .ok ([], rest)

def generic : Lexer Name := ⟨genericNext alphabetic backslash⟩

end Generic

/-! ## The databases -/

/-- Both databases read every character beyond ASCII as a letter. -/
def identStart (c : Char) : Bool := c.isAlpha || c = '_' || 128 ≤ c.toNat

def identPart (c : Char) : Bool := identStart c || c.isDigit || c = '$'

def ident (c : Char) (rest : List Char) : Except String (List Name × List Char) :=
  .ok ([c :: rest.takeWhile identPart], rest.dropWhile identPart)

def sqliteVariable (rest : List Char) : List Char :=
  match rest.dropWhile identPart with
  | '(' :: array =>
    if (rest.takeWhile identPart).isEmpty then '(' :: array
    else (array.dropWhile fun c => c ≠ ')' ∧ c ∉ [' ', '\t', '\n', '\x0c', '\r']).tail
  | rest => rest

def sqliteNext (c : Char) (rest : List Char) : Except String (List Name × List Char) :=
  let quote := rest.head?
  if c ∈ [' ', '\t', '\n', '\x0c', '\r'] then .ok ([], rest)
  else if c = '-' ∧ quote = some '-' then .ok ([], rest.dropWhile (· ≠ '\n'))
  else if c = '/' ∧ quote = some '*' then .ok ([], flatComment rest.tail)
  else if c = '\'' then skip ((quoted '\'' rest).map (·.2))
  else if c = '"' ∨ c = '\x60' then name (quoted c rest)
  else if c = '[' then
    match rest.dropWhile (· ≠ ']') with
    | [] => .error "unterminated identifier"
    | _ :: after => .ok ([rest.takeWhile (· ≠ ']')], after)
  else if c.isDigit then .ok ([], (digits rest).dropWhile identPart)
  else if c ∈ ['$', '@', '#', ':'] then .ok ([], sqliteVariable rest)
  else if c ∈ ['x', 'X'] ∧ quote = some '\'' then skip ((quoted '\'' rest.tail).map (·.2))
  else if identStart c then ident c rest
  else .ok ([], rest)

def sqlite : Lexer Name := ⟨sqliteNext⟩

def postgresDollar (rest : List Char) : Except String (List Name × List Char) :=
  let isTag := fun c => identStart c || c.isDigit
  if rest.head?.any Char.isDigit then .ok ([], rest.dropWhile Char.isDigit)
  else match rest.dropWhile isTag with
    | '$' :: body => skip (after ('$' :: rest.takeWhile isTag ++ ['$']) body)
    | _ => .ok ([], rest)

def postgresNext (c : Char) (rest : List Char) : Except String (List Name × List Char) :=
  let quote := rest.head?
  if c ∈ [' ', '\t', '\n', '\x0b', '\x0c', '\r'] then .ok ([], rest)
  else if c = '-' ∧ quote = some '-' then .ok ([], rest.dropWhile (· ∉ ['\n', '\r']))
  else if c = '/' ∧ quote = some '*' then skip (nestedComment 1 rest.tail)
  else if c ∈ ['e', 'E'] ∧ quote = some '\'' then skip ((quotedEscaped '\'' rest.tail).map (·.2))
  else if c ∈ ['b', 'B', 'x', 'X', 'n', 'N'] ∧ quote = some '\'' then
    skip ((quoted '\'' rest.tail).map (·.2))
  else if c = '\'' then skip ((quoted '\'' rest).map (·.2))
  else if c = '"' then name (quoted '"' rest)
  else if c = '$' then postgresDollar rest
  else if c.isDigit then .ok ([], (digits rest).dropWhile identPart)
  else if identStart c then ident c rest
  else .ok ([], rest)

def postgres : Lexer Name := ⟨postgresNext⟩

/-! ## Plain texts -/

/-- Characters that stand for themselves wherever they are not quoted. -/
def neutral : List Char :=
  [' ', '\t', '\n', '\r', '(', ')', '+', '-', '*', '/', '<', '>', '=', '!', '%', '&', '|', '^', '~',
    '?', ';', ',', '.', '{', '}', ']']

def plainPart (c : Char) : Bool := c.isAlpha || c.isDigit || c = '_' || c = '$'

def apart (rest : List Char) : Bool := rest.head?.all (· ∈ neutral)

/-- An operator of some dialect, or the sign of an escaped name, that takes in the first character
of what others read as a comment or a quote. -/
def glued (c : Char) (rest : List Char) : Bool :=
  (c ∈ ['/', '|'] && rest.head? = some '/') || (c ∈ ['<', '?'] && rest.head? = some '-') ||
    (c = '&' && rest.head?.any (· ∈ ['\'', '"']))

def plainNext (c : Char) (rest : List Char) : Except String (List Name × List Char) :=
  if c = '\'' ∨ c = '"' then
    match quoted c rest with
    | some (value, rest') =>
      if '\\' ∈ value then .error "a backslash in quotes"
      else .ok (if c = '"' then [value] else [], rest')
    | none => .error "an open quote"
  else if c.isDigit then
    if apart (digits rest) then .ok ([], digits rest) else .error "a number that runs on"
  else if c = '$' then
    let rest' := rest.dropWhile Char.isDigit
    if rest.head?.any Char.isDigit ∧ apart rest' ∧ rest'.head? ≠ some '(' then .ok ([], rest')
    else .error "a dollar sign"
  else if c.isAlpha ∨ c = '_' then
    if apart (rest.dropWhile plainPart) then
      .ok ([c :: rest.takeWhile plainPart], rest.dropWhile plainPart)
    else .error "a name that runs on"
  else if c = '-' ∧ rest.head? = some '-' then
    if '\r' ∈ rest.takeWhile (· ≠ '\n') then .error "a carriage return in a comment"
    else .ok ([], rest.dropWhile (· ≠ '\n'))
  else if c = '/' ∧ rest.head? = some '*' then
    if nestedComment 1 rest.tail = some (flatComment rest.tail) then
      .ok ([], flatComment rest.tail)
    else .error "a comment in a comment"
  else if glued c rest then .error "an operator that runs on"
  else if c ∈ neutral then .ok ([], rest)
  else .error "another character"

/-- Names, numbers and `$n` parameters that do not run on, quotes without a backslash, line comments
without a carriage return, block comments that hold no other, and neutral characters that are not
glued to what follows. -/
def plain : Lexer Name := ⟨plainNext⟩

def Plain (text : List Char) : Prop := (plain.lex text).2 = none

instance (text : List Char) : Decidable (Plain text) := inferInstanceAs (Decidable (_ = _))

end HappyView.Sql
