import Mathlib.Algebra.GroupWithZero.Nat
import Mathlib.Algebra.Order.BigOperators.Group.List
import Mathlib.Algebra.Order.Group.Nat
import Mathlib.Data.List.Basic
import Mathlib.Data.List.TakeWhile

/-!
# Texts

Splitting and stripping of strings by characters, as the parsers of this
development use them. Everything goes through the list of characters, where the
lemmas about lists apply and closed texts evaluate.
-/

namespace HappyView.Foundation.Text

/-- What follows `head` in `s`, when `s` starts with it. -/
def strip (head s : String) : Option String :=
  (s.toList.dropPrefix? head.toList).map String.ofList

/-- The parts of `s` between occurrences of `sep`; always at least one. -/
def split (sep : Char) (s : String) : List String :=
  (s.toList.splitOn sep).map String.ofList

/-- What precedes `tail` in `s`, when `s` ends with it. -/
def stripEnd (tail s : String) : Option String :=
  (s.toList.dropSuffix? tail.toList).map String.ofList

def startsWith (head s : String) : Bool := head.toList.isPrefixOf s.toList

def splitOnce (sep : Char → Bool) (s : String) : Option (String × String) :=
  match s.toList.dropWhile (!sep ·) with
  | [] => none
  | _ :: back => some (String.ofList (s.toList.takeWhile (!sep ·)), String.ofList back)

def rsplitOnce (sep : Char → Bool) (s : String) : Option (String × String) :=
  (splitOnce sep (String.ofList s.toList.reverse)).map fun parts =>
    (String.ofList parts.2.toList.reverse, String.ofList parts.1.toList.reverse)

@[simp] theorem strip_append (head s : String) : strip head (head ++ s) = some s := by
  simp [strip, List.dropPrefix?_append_of_beq]

theorem strip_eq_some {head s tail : String} : strip head s = some tail ↔ s = head ++ tail := by
  constructor
  · intro h
    obtain ⟨cs, drop, rfl⟩ := Option.map_eq_some_iff.mp h
    obtain ⟨front, all, same⟩ := List.dropPrefix?_eq_some_iff.mp drop
    rw [← String.toList_inj]
    simp [all, eq_of_beq same]
  · rintro rfl
    exact strip_append head tail

theorem stripEnd_eq_some {tail s head : String} (h : stripEnd tail s = some head) :
    s = head ++ tail := by
  obtain ⟨cs, drop, rfl⟩ := Option.map_eq_some_iff.mp h
  obtain ⟨back, all, same⟩ := List.dropSuffix?_eq_some_iff.mp drop
  rw [← String.toList_inj]
  simp [all, eq_of_beq same]

theorem startsWith_iff {head s : String} : startsWith head s = true ↔ head.toList <+: s.toList := by
  simp [startsWith]

theorem splitOnce_append {sep : Char → Bool} {front back : List Char} {c : Char}
    (absent : ∀ a ∈ front, sep a = false) (found : sep c = true) :
    splitOnce sep (String.ofList (front ++ c :: back)) =
      some (String.ofList front, String.ofList back) := by
  have skip : ∀ a ∈ front, (!sep a) = true := by simpa using absent
  simp [splitOnce, List.dropWhile_append_of_pos skip, List.takeWhile_append_of_pos skip, found]

theorem splitOnce_eq_none {sep : Char → Bool} {s : String}
    (absent : ∀ a ∈ s.toList, sep a = false) :
    splitOnce sep s = none := by
  have skip : s.toList.dropWhile (!sep ·) = [] :=
    List.dropWhile_eq_nil_iff.mpr (by simpa using absent)
  rw [splitOnce, skip]

theorem split_join (sep : Char) (a b : String) :
    split sep (a ++ String.singleton sep ++ b) = split sep a ++ split sep b := by
  simp [split, List.splitOn_append_cons_self]

theorem split_eq_singleton {sep : Char} {s : String} (absent : sep ∉ s.toList) :
    split sep s = [s] := by
  simp [split, List.splitOn_eq_singleton absent]

theorem split_ne_nil (sep : Char) (s : String) : split sep s ≠ [] := by
  simp [split]

theorem not_mem_of_mem_split {sep : Char} {s part : String} (h : part ∈ split sep s) :
    sep ∉ part.toList := by
  suffices parts : ∀ cs : List Char, ∀ part ∈ cs.splitOn sep, sep ∉ part by
    obtain ⟨cs, mem, rfl⟩ := List.mem_map.mp h
    simpa using parts s.toList cs mem
  intro cs
  induction cs with
  | nil => simp
  | cons c cs ih =>
    intro part mem
    rw [List.splitOn, List.splitOnP_cons_eq_if_modifyHead] at mem
    split at mem
    · rcases List.mem_cons.mp mem with rfl | mem
      · simp
      · exact ih part mem
    · rename_i other
      obtain ⟨front, rest, cut⟩ := List.exists_cons_of_ne_nil (List.splitOn_ne_nil sep cs)
      rw [List.splitOn] at cut
      rw [cut, List.modifyHead_cons] at mem
      rw [List.splitOn, cut] at ih
      rcases List.mem_cons.mp mem with rfl | mem
      · have away : c ≠ sep := by simpa using other
        simpa [away.symm] using ih front (by simp)
      · exact ih part (by simp [mem])

theorem of_split_eq_singleton {sep : Char} {s part : String} (h : split sep s = [part]) :
    s = part ∧ sep ∉ part.toList := by
  have one : s.toList.splitOn sep = [part.toList] := by
    obtain ⟨cs, hcs, rfl⟩ := List.map_eq_singleton_iff.mp h
    simp [hcs]
  have same : s = part := by
    have joined : [sep].intercalate (s.toList.splitOn sep) = s.toList :=
      List.intercalate_splitOn sep
    rw [one] at joined
    simpa [String.toList_inj] using joined.symm
  refine ⟨same, fun mem => ?_⟩
  subst same
  obtain ⟨front, back, cut⟩ := List.append_of_mem mem
  rw [cut, List.splitOn_append_cons_self] at one
  have short := congrArg List.length one
  have hf := List.length_pos_of_ne_nil (List.splitOn_ne_nil sep front)
  have hb := List.length_pos_of_ne_nil (List.splitOn_ne_nil sep back)
  simp only [List.length_append, List.length_singleton] at short
  omega

theorem join_inj {sep : Char} {a b a' b' : String} (ha : sep ∉ a.toList) (ha' : sep ∉ a'.toList)
    (h : a ++ String.singleton sep ++ b = a' ++ String.singleton sep ++ b') : a = a' ∧ b = b' := by
  have parts := congrArg (Text.split sep) h
  rw [split_join, split_join, split_eq_singleton ha, split_eq_singleton ha'] at parts
  obtain rfl : a = a' := by simpa using (List.cons.inj parts).1
  rw [← String.toList_inj] at h
  refine ⟨rfl, String.toList_inj.mp ?_⟩
  simpa using h

theorem eq_singletons_of_append {α : Type} {as bs cs : List α} {a b c : α} (ha : as ≠ [])
    (hb : bs ≠ []) (hc : cs ≠ []) (h : as ++ (bs ++ cs) = [a, b, c]) :
    as = [a] ∧ bs = [b] ∧ cs = [c] := by
  obtain ⟨x, as, rfl⟩ := List.exists_cons_of_ne_nil ha
  obtain ⟨y, bs, rfl⟩ := List.exists_cons_of_ne_nil hb
  obtain ⟨z, cs, rfl⟩ := List.exists_cons_of_ne_nil hc
  have total := congrArg List.length h
  simp only [List.length_append, List.length_cons, List.length_nil] at total
  obtain rfl : as = [] := List.length_eq_zero_iff.mp (by omega)
  obtain rfl : bs = [] := List.length_eq_zero_iff.mp (by omega)
  simpa using h

theorem sum_length_splitOnP {α : Type} (sep : α → Bool) (xs : List α) :
    ((xs.splitOnP sep).map fun part => part.length + 1).sum = xs.length + 1 := by
  induction xs with
  | nil => simp
  | cons x xs ih =>
    rw [List.splitOnP_cons_eq_if_modifyHead]
    split
    · simp [ih]
      omega
    · cases parts : xs.splitOnP sep with
      | nil => exact absurd parts (List.splitOnP_ne_nil _ _)
      | cons part rest =>
        rw [parts] at ih
        simp only [List.modifyHead_cons, List.map_cons, List.sum_cons, List.length_cons] at ih ⊢
        omega

theorem exists_fresh (head tail : String) (names : List String) :
    ∃ n, head ++ String.ofList (List.replicate (n + 1) 'a') ++ tail ∉ names := by
  refine ⟨(names.map String.length).sum, fun mem => ?_⟩
  have bound := List.le_sum_of_mem (List.mem_map_of_mem (f := String.length) mem)
  simp only [String.length_append, String.length_ofList, List.length_replicate] at bound
  omega

end HappyView.Foundation.Text
