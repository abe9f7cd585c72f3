import HappyView.Foundation.Text

/-!
# Scope strings

`resource[:positional][?params]`. A parameter is repeated by repeating its key, and the
positional part is decoded as a URI component while keys and values are form-encoded.

Percent-decoding is the `urlencoding` crate's; it is the parameter `urldecode`, which
fails on bytes that are not UTF-8.
-/

namespace HappyView.Scopes

open HappyView.Foundation

inductive SingleParam where
  | absent
  | one (value : String)
  | repeated

/-- `none` when the key repeated, otherwise the possibly absent value. -/
def SingleParam.ok : SingleParam → Option (Option String)
  | .absent => some none
  | .one value => some (some value)
  | .repeated => none

structure ScopeSyntax where
  scopePrefix : String
  positional : Option String
  params : List (String × String)

theorem mem_foldl_distinct {α : Type} (value : α → String) (items : List α) (out : List String)
    (v : String) :
    v ∈ items.foldl
        (fun out a => if out.contains (value a) then out else out ++ [value a]) out ↔
      v ∈ out ∨ ∃ a ∈ items, value a = v := by
  induction items generalizing out with
  | nil => simp
  | cons a items ih =>
    rw [List.foldl_cons, ih]
    split <;> simp_all <;> grind

namespace ScopeSyntax

section

variable (urldecode : String → Option String)

def decodeForm (value : String) : String :=
  let plusDecoded := String.ofList (value.toList.map fun c => if c = '+' then ' ' else c)
  (urldecode plusDecoded).getD plusDecoded

def decodeUriComponent (value : String) : String := (urldecode value).getD value

def parseQuery (query : String) : List (String × String) :=
  ((Text.split '&' query).filter (!·.isEmpty)).map fun pair =>
    match Text.splitOnce (· == '=') pair with
    | some (k, v) => (decodeForm urldecode k, decodeForm urldecode v)
    | none => (decodeForm urldecode pair, "")

def minIdx : Option Nat → Option Nat → Option Nat
  | some a, some b => some (min a b)
  | some a, none => some a
  | none, some b => some b
  | none, none => none

def parse (scope : String) : ScopeSyntax :=
  let chars := scope.toList
  let paramIdx := chars.findIdx? (· == '?')
  let colonIdx := chars.findIdx? (· == ':')
  match minIdx paramIdx colonIdx with
  | none => ⟨scope, none, []⟩
  | some prefixEnd =>
    { scopePrefix := String.ofList (chars.take prefixEnd)
      positional := match colonIdx, paramIdx with
        | some c, none => some (decodeUriComponent urldecode (String.ofList (chars.drop (c + 1))))
        | some c, some p =>
          -- A `?` before the `:` means the colon is inside the query string.
          if c < p then
            some (decodeUriComponent urldecode (String.ofList ((chars.take p).drop (c + 1))))
          else none
        | none, _ => none
      params := match paramIdx with
        | some p =>
          if p < chars.length - 1 then parseQuery urldecode (String.ofList (chars.drop (p + 1)))
          else []
        | none => [] }

end

def keys (s : ScopeSyntax) : List String :=
  s.params.foldl (fun out pair => if out.contains pair.1 then out else out ++ [pair.1]) []

def getSingle (s : ScopeSyntax) (key : String) : SingleParam :=
  match s.params.filter (·.1 == key) with
  | [] => .absent
  | [pair] => .one pair.2
  | _ :: _ :: _ => .repeated

def getMulti (s : ScopeSyntax) (key : String) : Option (List String) :=
  match (s.params.filter (·.1 == key)).map (·.2) with
  | [] => none
  | values => some values

end ScopeSyntax

end HappyView.Scopes
