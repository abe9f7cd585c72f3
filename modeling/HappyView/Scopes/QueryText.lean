import HappyView.Scopes.Syntax

/-!
# The text of a scope

A scope string with a query is a text with no `?`, the `?`, and the pairs of the query
joined by `&`. What stands before the `?` gives the resource and the positional part, and
the pairs give the parameters, one by one.
-/

namespace HappyView.Scopes

open HappyView.Foundation

namespace ScopeSyntax

variable (urldecode : String → Option String)

def parsePair (pair : String) : String × String :=
  match Text.splitOnce (· == '=') pair with
  | some (k, v) => (decodeForm urldecode k, decodeForm urldecode v)
  | none => (decodeForm urldecode pair, "")

theorem parseQuery_eq (query : String) : parseQuery urldecode query =
    ((Text.split '&' query).filter (!·.isEmpty)).map (parsePair urldecode) := rfl

theorem parseQuery_intercalate {pairs : List String} (plain : ∀ pair ∈ pairs, '&' ∉ pair.toList) :
    parseQuery urldecode (String.intercalate "&" pairs) =
      (pairs.filter (!·.isEmpty)).map (parsePair urldecode) := by
  rw [parseQuery_eq]
  cases pairs with
  | nil =>
    have none : (Text.split '&' (String.intercalate "&" [])).filter (!·.isEmpty) = [] := by decide
    rw [none]
    rfl
  | cons pair pairs =>
    have apart : Text.split '&' (String.intercalate "&" (pair :: pairs)) = pair :: pairs := by
      have lists : ∀ l ∈ (pair :: pairs).map String.toList, '&' ∉ l := by
        intro l mem
        obtain ⟨p, listed, rfl⟩ := List.mem_map.mp mem
        exact plain p listed
      rw [Text.split, String.toList_intercalate]
      have back := List.splitOn_intercalate '&' lists (by simp)
      change (List.splitOn '&' (['&'].intercalate _)).map String.ofList = _
      rw [back]
      simp
    rw [apart]

theorem parse_query {base : String} (absent : '?' ∉ base.toList) (query : String) :
    parse urldecode (base ++ "?" ++ query) =
      { parse urldecode base with params := parseQuery urldecode query } := by
  have noMark : base.toList.findIdx? (· == '?') = none := by
    rw [List.findIdx?_eq_none_iff]
    intro c mem
    simp only [beq_eq_false_iff_ne]
    rintro rfl
    exact absent mem
  have mark : (base.toList ++ '?' :: query.toList).findIdx? (· == '?') =
      some base.toList.length := by
    simp [List.findIdx?_append, noMark, List.findIdx?_cons]
  have whole : (base ++ "?" ++ query).toList = base.toList ++ '?' :: query.toList := by simp
  have params : (if base.toList.length < (base.toList ++ '?' :: query.toList).length - 1 then
      parseQuery urldecode (String.ofList
        ((base.toList ++ '?' :: query.toList).drop (base.toList.length + 1))) else []) =
      parseQuery urldecode query := by
    have rest : (base.toList ++ '?' :: query.toList).drop (base.toList.length + 1) =
        query.toList := by simp
    rw [rest, String.ofList_toList]
    split
    · rfl
    · rename_i short
      have empty : query = "" := by
        rw [← String.toList_inj]
        apply List.eq_nil_of_length_eq_zero
        simp only [List.length_append, List.length_cons] at short
        omega
      rw [empty]
      rfl
  cases colon : base.toList.findIdx? (· == ':') with
  | some c =>
    have small : c < base.toList.length := by
      obtain ⟨bound, -⟩ := List.findIdx?_eq_some_iff_getElem.mp colon
      exact bound
    have first : (base.toList ++ '?' :: query.toList).findIdx? (· == ':') = some c := by
      simp [List.findIdx?_append, colon]
    have least : min base.toList.length c = c := by omega
    simp only [parse, whole, mark, first, colon, noMark, minIdx, least, if_pos small, params]
    simp [List.take_append_of_le_length small.le]
  | none =>
    -- A colon, if there is one, is in the query.
    have later : (base.toList ++ '?' :: query.toList).findIdx? (· == ':') =
        (query.toList.findIdx? (· == ':')).map (· + 1 + base.toList.length) := by
      simp [List.findIdx?_append, colon, List.findIdx?_cons, Function.comp_def]
    cases inQuery : query.toList.findIdx? (· == ':') with
    | none =>
      simp only [parse, whole, mark, later, inQuery, colon, noMark, minIdx, Option.map_none, params]
      simp
    | some k =>
      have least : min base.toList.length (k + 1 + base.toList.length) = base.toList.length := by
        omega
      have past : ¬ k + 1 + base.toList.length < base.toList.length := by omega
      simp only [parse, whole, mark, later, inQuery, colon, noMark, minIdx, Option.map_some, least,
        if_neg past, params]
      simp

end ScopeSyntax

end HappyView.Scopes
