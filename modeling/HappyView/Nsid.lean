import Mathlib.Data.List.Basic

/-!
# NSIDs

`validate_nsid` bounds the length of a name and matches it against the regular
expression of the AT Protocol. The expression is data here (`nsidPattern`), read by a
matcher that returns every text a match of a pattern can leave over.
-/

namespace HappyView.Nsid

inductive Pattern where
  | set (chars : Char → Bool)
  | seq (p q : Pattern)
  | optional (p : Pattern)
  /-- At most `n` times. -/
  | upTo (n : Nat) (p : Pattern)
  | plus (p : Pattern)

def iterate (f : List Char → List (List Char)) : Nat → List Char → List (List Char)
  | 0, w => [w]
  | n + 1, w => w :: (f w).flatMap (iterate f n)

/-- What is left of `w` after each match of the pattern at its start. -/
def Pattern.run : Pattern → List Char → List (List Char)
  | .set chars, w =>
    match w with
    | c :: rest => if chars c then [rest] else []
    | [] => []
  | .seq p q, w => (p.run w).flatMap q.run
  | .optional p, w => w :: p.run w
  | .upTo n p, w => iterate p.run n w
  -- Every round that matters takes a character, so the length bounds their number.
  | .plus p, w => (p.run w).flatMap fun rest => iterate p.run rest.length rest

def Pattern.isMatch (p : Pattern) (s : String) : Bool := (p.run s.toList).contains []

def letter : Pattern := .set Char.isAlpha

def alphanumeric : Pattern := .set Char.isAlphanum

/-- `([a-zA-Z0-9-]{0,61}[a-zA-Z0-9])?`. -/
def labelTail : Pattern :=
  .optional (.seq (.upTo 61 (.set fun c => c.isAlphanum || c == '-')) alphanumeric)

def dot : Pattern := .set (· == '.')

def nsidPattern : Pattern :=
  .seq (.seq letter labelTail)
    (.seq (.plus (.seq dot (.seq alphanumeric labelTail)))
      (.seq dot (.seq letter (.upTo 62 alphanumeric))))

def maxNsidLen : Nat := 317

inductive NsidError where
  | tooLong (nsid : String)
  | malformed (nsid : String)
  | pattern (pattern reason : String)
  deriving DecidableEq

def validateNsid (nsid : String) : Except NsidError Unit :=
  if nsid.utf8ByteSize > maxNsidLen then .error (.tooLong nsid)
  else if !nsidPattern.isMatch nsid then .error (.malformed nsid)
  else .ok ()

/-! ## Matches -/

theorem mem_run_seq {p q : Pattern} {w mid rest : List Char} (first : mid ∈ p.run w)
    (second : rest ∈ q.run mid) : rest ∈ (Pattern.seq p q).run w :=
  List.mem_flatMap.mpr ⟨mid, first, second⟩

theorem mem_run_set {chars : Char → Bool} {c : Char} {rest : List Char} (h : chars c = true) :
    rest ∈ (Pattern.set chars).run (c :: rest) := by
  simp [Pattern.run, h]

theorem nil_mem_iterate {chars : Char → Bool} {n : Nat} {w : List Char} (short : w.length ≤ n)
    (all : ∀ c ∈ w, chars c = true) : [] ∈ iterate (Pattern.set chars).run n w := by
  induction n generalizing w with
  | zero =>
    obtain rfl : w = [] := List.eq_nil_of_length_eq_zero (by omega)
    simp [iterate]
  | succ n ih =>
    cases w with
    | nil => simp [iterate]
    | cons c w =>
      refine List.mem_cons_of_mem _ (List.mem_flatMap.mpr ⟨w, mem_run_set (all c (by simp)), ?_⟩)
      exact ih (by simpa using short) fun d mem => all d (by simp [mem])

/-- `rest` is left of `w` after characters of the set. -/
def Uses (chars : Char → Bool) (w rest : List Char) : Prop :=
  ∃ used, w = used ++ rest ∧ ∀ c ∈ used, chars c = true

theorem Uses.refl (chars : Char → Bool) (w : List Char) : Uses chars w w := ⟨[], rfl, by simp⟩

theorem Uses.trans {chars : Char → Bool} {w mid rest : List Char} (h : Uses chars w mid)
    (h' : Uses chars mid rest) : Uses chars w rest := by
  obtain ⟨used, rfl, all⟩ := h
  obtain ⟨used', rfl, all'⟩ := h'
  refine ⟨used ++ used', by simp, fun c mem => ?_⟩
  exact (List.mem_append.mp mem).elim (all c) (all' c)

/-- Every set of the pattern is part of `chars`. -/
def Pattern.Within (chars : Char → Bool) : Pattern → Prop
  | .set own => ∀ c, own c = true → chars c = true
  | .seq p q => p.Within chars ∧ q.Within chars
  | .optional p | .upTo _ p | .plus p => p.Within chars

theorem uses_of_mem_iterate {chars : Char → Bool} {f : List Char → List (List Char)}
    (one : ∀ w, ∀ rest ∈ f w, Uses chars w rest) {n : Nat} {w rest : List Char}
    (h : rest ∈ iterate f n w) : Uses chars w rest := by
  induction n generalizing w with
  | zero =>
    obtain rfl : rest = w := by simpa [iterate] using h
    exact .refl _ _
  | succ n ih =>
    rcases List.mem_cons.mp h with rfl | later
    · exact .refl _ _
    · obtain ⟨mid, round, more⟩ := List.mem_flatMap.mp later
      exact (one w mid round).trans (ih more)

theorem Pattern.uses_of_mem_run {chars : Char → Bool} {p : Pattern} (within : p.Within chars)
    {w rest : List Char} (h : rest ∈ p.run w) : Uses chars w rest := by
  induction p generalizing w rest with
  | set own =>
    cases w with
    | nil => simp [run] at h
    | cons c w =>
      obtain ⟨own, rfl⟩ : own c = true ∧ rest = w := by simpa [run] using h
      exact ⟨[c], rfl, by simpa using within c own⟩
  | seq p q ihp ihq =>
    obtain ⟨mid, first, second⟩ := List.mem_flatMap.mp h
    exact (ihp within.1 first).trans (ihq within.2 second)
  | optional p ih =>
    rcases List.mem_cons.mp h with rfl | some
    · exact .refl _ _
    · exact ih within some
  | upTo n p ih => exact uses_of_mem_iterate (fun _ _ => ih within) h
  | plus p ih =>
    obtain ⟨mid, first, more⟩ := List.mem_flatMap.mp h
    exact (ih within first).trans (uses_of_mem_iterate (fun _ _ => ih within) more)

theorem chars_of_validateNsid {nsid : String} (valid : (validateNsid nsid).isOk = true) :
    ∀ c ∈ nsid.toList, (c.isAlphanum || c == '-' || c == '.') = true := by
  have within : nsidPattern.Within fun c => c.isAlphanum || c == '-' || c == '.' := by
    have alpha (c : Char) (h : c.isAlpha = true) :
        (c.isAlphanum || c == '-' || c == '.') = true := by
      have wider : c.isAlphanum = (c.isAlpha || c.isDigit) := rfl
      simp [wider, h]
    simp [nsidPattern, Pattern.Within, letter, labelTail, alphanumeric, dot]
    grind
  have found : [] ∈ nsidPattern.run nsid.toList := by
    unfold validateNsid at valid
    split_ifs at valid with long malformed
    · cases valid
    · cases valid
    · simpa [Pattern.isMatch] using malformed
  obtain ⟨used, whole, all⟩ := nsidPattern.uses_of_mem_run within found
  rw [List.append_nil] at whole
  rwa [whole]

end HappyView.Nsid
