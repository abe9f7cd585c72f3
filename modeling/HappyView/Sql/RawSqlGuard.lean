import HappyView.Sql.Lexers

/-!
# The raw SQL guard

Scripts and plugins may run SQL of their own, but not reach the internal tables. The guard refuses
a text in which its tokenizer finds the name of one, and a text that does not tokenize. On plain
texts the three lexers agree; where one of them reads code in what another takes for a comment, a
string or a quoted name, a protected name gets past the guard.

The tokenizer is a library's. Of it the results ask that it reads plain texts plainly, which the
generic dialect as it is documented does.
-/

namespace HappyView.Sql

open HappyView.Foundation

/-! ## The guard -/

def protectedTablePrefix : String := "happyview_"

def protectedExactTables : List String := ["_sqlx_migrations"]

def allowedInternalTables : List String :=
  ["happyview_records", "happyview_record_refs", "happyview_records_by_collection",
    "happyview_labels", "happyview_lexicons", "happyview_jobs", "happyview_spaces",
    "happyview_space_members", "happyview_space_records", "happyview_space_record_oplog",
    "happyview_space_notify_registrations", "happyview_space_dids"]

def isProtected (value : Name) : Bool :=
  let folded := value.map Char.toLower
  let isInternal := protectedTablePrefix.toList.isPrefixOf folded ||
    protectedExactTables.any (·.toList = folded)
  isInternal && !allowedInternalTables.any (·.toList = folded)

abbrev Tokenize := List Char → List Name × Option String

/-- It finds in a plain text the names that stand there. -/
def Tokenize.ReadsPlain (tokenize : Tokenize) : Prop :=
  ∀ text, Plain text → tokenize text = plain.lex text

def checkRawSqlTables (tokenize : Tokenize) (sql : String) : Except String Unit :=
  let lowered := sql.toList.map Char.toLower
  if "u&\"".toList <:+: lowered ∨ "u&'".toList <:+: lowered then
    .error "raw SQL does not allow unicode-escaped identifiers"
  else match tokenize sql.toList with
    | (_, some e) => .error ("could not parse SQL: " ++ e)
    | (names, none) =>
      match names.find? isProtected with
      | some value => .error ("raw SQL cannot reference the protected internal HappyView table '" ++
          String.ofList value ++ "'")
      | none => .ok ()

theorem checkRawSqlTables_ok {tokenize : Tokenize} {sql : String}
    (accepted : checkRawSqlTables tokenize sql = .ok ()) :
    ∃ names, tokenize sql.toList = (names, none) ∧
      ∀ value ∈ names, isProtected value = false := by
  unfold checkRawSqlTables at accepted
  dsimp only at accepted
  split at accepted
  · cases accepted
  split at accepted
  · cases accepted
  rename_i names read
  split at accepted
  · cases accepted
  · rename_i none_found
    refine ⟨names, read, fun value mem => ?_⟩
    simpa using List.find?_eq_none.mp none_found value mem

/-! ## Plain texts are taken apart in one way -/

section Agreement

variable {p q : Char → Bool} {rest : List Char}

theorem dropWhile_wider (wider : ∀ c, p c = true → q c = true)
    (stops : ∀ c, (rest.dropWhile p).head? = some c → q c = false) :
    rest.dropWhile q = rest.dropWhile p ∧ rest.takeWhile q = rest.takeWhile p := by
  induction rest with
  | nil => exact ⟨rfl, rfl⟩
  | cons c rest ih =>
    cases narrow : p c with
    | true =>
      have wide := wider c narrow
      simp only [List.dropWhile_cons, List.takeWhile_cons, narrow, wide, if_true] at stops ⊢
      obtain ⟨drop, take⟩ := ih stops
      exact ⟨drop, by rw [take]⟩
    | false =>
      have wide : q c = false := by
        apply stops
        simp [narrow]
      simp [narrow, wide]

theorem apart_head (h : apart rest = true) {c : Char} (head : rest.head? = some c) :
    c ∈ neutral := by
  unfold apart at h
  rw [head] at h
  simpa using h

/-- What a step over a plain text is. -/
inductive PlainStep (c : Char) (rest : List Char) : List Name → List Char → Prop
  | string {value rest' : List Char} (opens : c = '\'')
      (closed : quoted '\'' rest = some (value, rest')) (clean : '\\' ∉ value) :
      PlainStep c rest [] rest'
  | identifier {value rest' : List Char} (opens : c = '"')
      (closed : quoted '"' rest = some (value, rest')) : PlainStep c rest [value] rest'
  | number (digit : c.isDigit = true) (ends : apart (digits rest) = true) :
      PlainStep c rest [] (digits rest)
  | parameter (dollar : c = '$') (numbered : rest.head?.any Char.isDigit = true)
      (ends : apart (rest.dropWhile Char.isDigit) = true)
      (scalar : (rest.dropWhile Char.isDigit).head? ≠ some '(') :
      PlainStep c rest [] (rest.dropWhile Char.isDigit)
  | name (letter : c.isAlpha = true ∨ c = '_') (ends : apart (rest.dropWhile plainPart) = true) :
      PlainStep c rest [c :: rest.takeWhile plainPart] (rest.dropWhile plainPart)
  | line (opens : c = '-' ∧ rest.head? = some '-') (clean : '\r' ∉ rest.takeWhile (· ≠ '\n')) :
      PlainStep c rest [] (rest.dropWhile (· ≠ '\n'))
  | block (opens : c = '/' ∧ rest.head? = some '*')
      (flat : nestedComment 1 rest.tail = some (flatComment rest.tail)) :
      PlainStep c rest [] (flatComment rest.tail)
  | neutral (plain : c ∈ neutral) (line : ¬ (c = '-' ∧ rest.head? = some '-'))
      (block : ¬ (c = '/' ∧ rest.head? = some '*')) (free : glued c rest = false) :
      PlainStep c rest [] rest

theorem plainStep_of_ok {c : Char} {rest rest' : List Char} {names : List Name}
    (h : plainNext c rest = .ok (names, rest')) : PlainStep c rest names rest' := by
  unfold plainNext at h
  split at h
  · rename_i quote
    split at h
    · rename_i value after closed
      split at h
      · cases h
      · rename_i clean
        cases h
        obtain rfl | rfl := quote
        · exact .string rfl closed clean
        · exact .identifier rfl closed
    · cases h
  split at h
  · rename_i digit
    split at h
    · rename_i ends
      cases h
      exact .number digit ends
    · cases h
  split at h
  · rename_i dollar
    dsimp only at h
    split at h
    · rename_i ends
      cases h
      exact .parameter dollar ends.1 ends.2.1 ends.2.2
    · cases h
  split at h
  · rename_i letter
    split at h
    · rename_i ends
      cases h
      exact .name letter ends
    · cases h
  split at h
  · rename_i opens
    split at h
    · cases h
    · rename_i clean
      cases h
      exact .line opens clean
  rename_i line
  split at h
  · rename_i opens
    split at h
    · rename_i flat
      cases h
      exact .block opens flat
    · cases h
  rename_i block
  split at h
  · cases h
  rename_i free
  split at h
  · rename_i plain
    cases h
    exact .neutral plain line block (by simpa using free)
  · cases h

theorem not_mem_of_class {p : Char → Bool} {c : Char} {l : List Char} (h : p c = true)
    (off : l.all (!p ·) = true) : c ∉ l := by
  intro mem
  have none := List.all_eq_true.mp off c mem
  simp [h] at none

def signs : List Char :=
  [' ', '\t', '\n', '\r', '\x0b', '\x0c', '\'', '"', '\x60', '[', '-', '/', '$', '@', '#', ':', '|']

def prefixLetters : List Char := ['b', 'B', 'r', 'R', 'n', 'N', 'x', 'X', 'e', 'E']

theorem quotedEscaped_eq {q : Char} {text value after : List Char} (q_ne : q ≠ '\\')
    (closed : quoted q text = some (value, after)) (clean : '\\' ∉ value) :
    quotedEscaped q text = some (value, after) := by
  fun_induction quoted q text generalizing value with
  | case1 => cases closed
  | case2 rest ih =>
    obtain ⟨⟨value', after'⟩, found, same⟩ := Option.map_eq_some_iff.mp closed
    cases same
    have clean' : '\\' ∉ value' := fun mem => clean (List.mem_cons_of_mem _ mem)
    simp [quotedEscaped, q_ne, ih found clean']
  | case3 d rest other =>
    cases closed
    simp [quotedEscaped, q_ne, other]
  | case4 =>
    cases closed
    simp [quotedEscaped, q_ne]
  | case5 c rest other ih =>
    obtain ⟨⟨value', after'⟩, found, same⟩ := Option.map_eq_some_iff.mp closed
    cases same
    have plain : c ≠ '\\' := fun same => clean (same ▸ List.mem_cons_self)
    have clean' : '\\' ∉ value' := fun mem => clean (List.mem_cons_of_mem _ mem)
    unfold quotedEscaped
    simp [plain, other, ih found clean']

theorem isAlpha_iff {c : Char} : c.isAlpha = true ↔
    65 ≤ c.val.toNat ∧ c.val.toNat ≤ 90 ∨ 97 ≤ c.val.toNat ∧ c.val.toNat ≤ 122 := by
  change (decide (c.val ≥ 65 ∧ c.val ≤ 90) ||
    (decide (c.val ≥ 97) && decide (c.val ≤ 122))) = true ↔ _
  simp [UInt32.le_iff_toNat_le]

theorem letter_off {c : Char} (letter : c.isAlpha = true ∨ c = '_') :
    c ∉ signs ∧ c.isDigit = false := by
  have start : (c.isAlpha || c = '_') = true := by simpa using letter
  refine ⟨not_mem_of_class (p := fun c => c.isAlpha || c = '_') start (by decide), ?_⟩
  obtain alpha | rfl := letter
  · have range := isAlpha_iff.mp alpha
    change (decide (c.val ≥ 48) && decide (c.val ≤ 57)) = false
    simp only [ge_iff_le, Bool.and_eq_false_iff, decide_eq_false_iff_not, UInt32.le_iff_toNat_le,
      UInt32.reduceToNat]
    omega
  · rfl

theorem toNat_lt_of_isAlpha {c : Char} (alpha : c.isAlpha = true) : c.toNat < 128 := by
  have range := isAlpha_iff.mp alpha
  have value : c.toNat = c.val.toNat := rfl
  omega

theorem no_quote_of_apart {rest : List Char} (ends : apart (rest.dropWhile plainPart) = true) :
    rest.head? ≠ some '\'' ∧ rest.head? ≠ some '"' := by
  have stuck (q : Char) (part : plainPart q = false) (mark : q ∉ neutral) :
      rest.head? ≠ some q := by
    intro head
    obtain ⟨after, rfl⟩ := List.head?_eq_some_iff.mp head
    exact mark (apart_head ends (by simp [part]))
  exact ⟨stuck '\'' (by decide) (by decide), stuck '"' (by decide) (by decide)⟩

theorem forall_neutral {p : Char → Prop} [DecidablePred p]
    (all : (neutral.all fun c => p c) = true) : ∀ c ∈ neutral, p c := by
  simpa using all

theorem name_wider {q : Char → Bool} {rest : List Char}
    (ends : apart (rest.dropWhile plainPart) = true) (wider : ∀ c, plainPart c = true → q c = true)
    (stops : ∀ c ∈ neutral, q c = false) :
    rest.dropWhile q = rest.dropWhile plainPart ∧ rest.takeWhile q = rest.takeWhile plainPart :=
  dropWhile_wider wider fun c head => stops c (apart_head ends head)

section Generic

theorem genericNumber_eq {rest : List Char} (ends : apart (digits rest) = true) :
    genericNumber rest = digits rest := by
  unfold genericNumber
  cases h : digits rest with
  | nil => rfl
  | cons d after =>
    have off : ∀ d ∈ neutral, d ∉ ['e', 'E', 'L'] := forall_neutral (by decide)
    have plain := off d (apart_head ends (by rw [h]; rfl))
    simp only [List.mem_cons, not_or] at plain
    cases after <;> simp [plain]

variable {alphabetic : Char → Bool} (backslash : Bool)
  (ascii : ∀ c, c.toNat < 128 → alphabetic c = c.isAlpha)

include ascii

theorem genericDollar_eq {rest : List Char}
    (ends : apart (rest.dropWhile Char.isDigit) = true) :
    genericDollar alphabetic rest = .ok ([], rest.dropWhile Char.isDigit) := by
  have off : ∀ d ∈ neutral,
      d.toNat < 128 ∧ (d.isAlpha || d.isDigit || d = '_') = false ∧ d ≠ '$' :=
    forall_neutral (by decide)
  have tag : rest.dropWhile (fun c => alphabetic c || c.isDigit || decide (c = '_')) =
      rest.dropWhile Char.isDigit := by
    refine (dropWhile_wider (fun c digit => by simp [digit]) fun c head => ?_).1
    obtain ⟨small, none, -⟩ := off c (apart_head ends head)
    rw [ascii c small]
    exact none
  unfold genericDollar
  dsimp only
  rw [tag]
  split
  · rename_i body same
    exact absurd rfl (off '$' (apart_head ends (by rw [same]; rfl))).2.2
  · rfl

theorem genericPart_of_plainPart {d : Char} (part : plainPart d = true) :
    genericPart alphabetic d = true := by
  simp only [plainPart, Bool.or_eq_true, decide_eq_true_eq] at part
  obtain ((alpha | digit) | rfl) | rfl := part
  · simp [genericPart, ascii d (toNat_lt_of_isAlpha alpha), alpha]
  · simp [genericPart, digit]
  · simp [genericPart]
  · simp [genericPart]

theorem genericPart_neutral : ∀ d ∈ neutral, genericPart alphabetic d = false := by
  have off : ∀ d ∈ neutral, d.toNat < 128 ∧ d.isAlpha = false ∧ d.isDigit = false ∧
      d ∉ ['_', '#', '@', '$'] := forall_neutral (by decide)
  intro d plain
  obtain ⟨small, alpha, digit, sign⟩ := off d plain
  simp only [genericPart, ascii d small, alpha, digit, sign]
  rfl

theorem generic_extends : (generic alphabetic backslash).Extends plain := by
  rintro c rest ⟨names, rest'⟩ step
  change genericNext alphabetic backslash c rest = .ok (names, rest')
  cases plainStep_of_ok step with
  | string opens closed clean =>
    subst opens
    have escaped := quotedEscaped_eq (by decide) closed clean
    cases backslash <;> simp [genericNext, skip, closed, escaped]
  | identifier opens closed =>
    subst opens
    simp [genericNext, HappyView.Sql.name, closed]
  | number digit ends =>
    have sign := not_mem_of_class digit (l := signs) (by decide)
    have letter := not_mem_of_class digit (l := prefixLetters) (by decide)
    simp only [signs, prefixLetters, List.mem_cons, not_or] at sign letter
    simp [genericNext, sign, letter, digit, genericNumber_eq ends]
  | parameter dollar numbered ends scalar =>
    subst dollar
    simp [genericNext, genericDollar_eq ascii ends]
  | name letter ends =>
    obtain ⟨sign, digit⟩ := letter_off letter
    obtain ⟨single, double⟩ := no_quote_of_apart ends
    have start : genericStart alphabetic c = true := by
      obtain alpha | rfl := letter
      · simp [genericStart, ascii c (toNat_lt_of_isAlpha alpha), alpha]
      · simp [genericStart]
    obtain ⟨drop, take⟩ := name_wider ends (fun _ => genericPart_of_plainPart ascii)
      (genericPart_neutral ascii)
    simp only [signs, List.mem_cons, not_or] at sign
    simp [genericNext, sign, single, double, digit, start, drop, take]
  | line opens clean =>
    obtain ⟨rfl, dash⟩ := opens
    simp [genericNext, dash]
  | block opens flat =>
    obtain ⟨rfl, star⟩ := opens
    simp [genericNext, star, skip, flat]
  | neutral plain line block free =>
    have single : ¬ ((c = '/' ∨ c = '|') ∧ rest.head? = some '/') := by
      rintro ⟨sign, slash⟩
      simp [glued, sign, slash] at free
    have off : ∀ d ∈ HappyView.Sql.neutral, d ∉ prefixLetters ∧
        d ∉ ['\'', '"', '\x60', '$', '_', '#', '@'] ∧ d.isDigit = false ∧ d.toNat < 128 ∧
        d.isAlpha = false := forall_neutral (by decide)
    obtain ⟨letter, sign, digit, small, alpha⟩ := off c plain
    simp only [prefixLetters, List.mem_cons, not_or] at letter sign
    simp [genericNext, genericStart, ascii c small, letter, sign, digit, alpha, line, block, single]

theorem generic_readsPlain :
    Tokenize.ReadsPlain (generic alphabetic backslash).lex := by
  intro text plain_text
  have plainly : plain.lex text = ((plain.lex text).1, none) := Prod.ext rfl plain_text
  rw [plainly]
  exact (generic_extends backslash ascii).lex plainly

end Generic

section Databases

theorem plainPart_identPart {c : Char} (part : plainPart c = true) : identPart c = true := by
  simp only [plainPart, Bool.or_eq_true, decide_eq_true_eq] at part
  simp only [identPart, identStart, Bool.or_eq_true, decide_eq_true_eq]
  tauto

theorem identPart_neutral : ∀ c ∈ neutral, identPart c = false := forall_neutral (by decide)

theorem digits_dropWhile {rest : List Char} (ends : apart (digits rest) = true) :
    (digits rest).dropWhile identPart = digits rest := by
  cases h : digits rest with
  | nil => rfl
  | cons d after =>
    have plain := apart_head ends (by rw [h]; rfl)
    simp [identPart_neutral d plain]

theorem ident_eq {c : Char} {rest : List Char} (ends : apart (rest.dropWhile plainPart) = true) :
    ident c rest = .ok ([c :: rest.takeWhile plainPart], rest.dropWhile plainPart) := by
  obtain ⟨drop, take⟩ := name_wider ends (fun _ => plainPart_identPart) identPart_neutral
  rw [ident, drop, take]

theorem identStart_of_letter {c : Char} (letter : c.isAlpha = true ∨ c = '_') :
    identStart c = true := by
  obtain alpha | rfl := letter
  · simp [identStart, alpha]
  · rfl

theorem neutral_off : ∀ c ∈ neutral, c ∉ prefixLetters ∧
    c ∉ ['\'', '"', '\x60', '$', '[', '@', '#', ':'] ∧ c.isDigit = false ∧
    identStart c = false := by
  exact forall_neutral (by decide)

theorem sqlite_extends : sqlite.Extends plain := by
  rintro c rest ⟨names, rest'⟩ step
  change sqliteNext c rest = .ok (names, rest')
  cases plainStep_of_ok step with
  | string opens closed clean =>
    subst opens
    simp [sqliteNext, skip, closed]
  | identifier opens closed =>
    subst opens
    simp [sqliteNext, HappyView.Sql.name, closed]
  | number digit ends =>
    have sign := not_mem_of_class digit (l := signs) (by decide)
    simp only [signs, List.mem_cons, not_or] at sign
    simp [sqliteNext, sign, digit, digits_dropWhile ends]
  | parameter dollar numbered ends scalar =>
    subst dollar
    have wider : rest.dropWhile identPart = rest.dropWhile Char.isDigit :=
      (dropWhile_wider (fun c digit => by simp [identPart, digit])
        fun c head => identPart_neutral c (apart_head ends head)).1
    have parameter : sqliteVariable rest = rest.dropWhile Char.isDigit := by
      unfold sqliteVariable
      rw [wider]
      split
      · rename_i array same
        rw [same] at scalar
        exact absurd rfl scalar
      · rfl
    simp [sqliteNext, parameter]
  | name letter ends =>
    obtain ⟨sign, digit⟩ := letter_off letter
    obtain ⟨single, -⟩ := no_quote_of_apart ends
    simp only [signs, List.mem_cons, not_or] at sign
    simp [sqliteNext, sign, single, digit, identStart_of_letter letter, ident_eq ends]
  | line opens clean =>
    obtain ⟨rfl, dash⟩ := opens
    simp [sqliteNext, dash]
  | block opens flat =>
    obtain ⟨rfl, star⟩ := opens
    simp [sqliteNext, star]
  | neutral plain line block =>
    obtain ⟨letter, sign, digit, start⟩ := neutral_off c plain
    simp only [prefixLetters, List.mem_cons, not_or] at letter sign
    simp [sqliteNext, letter, sign, digit, start, line, block]

theorem line_dropWhile {rest : List Char} (clean : '\r' ∉ rest.takeWhile (· ≠ '\n')) :
    rest.dropWhile (· ∉ ['\n', '\r']) = rest.dropWhile (· ≠ '\n') := by
  induction rest with
  | nil => rfl
  | cons c rest ih =>
    by_cases newline : c = '\n'
    · simp [newline]
    · have tail : '\r' ≠ c ∧ '\r' ∉ rest.takeWhile (· ≠ '\n') := by
        simpa [List.takeWhile_cons, newline] using clean
      have other : c ≠ '\r' := tail.1.symm
      simpa [List.dropWhile_cons, newline, other] using ih tail.2

theorem postgres_extends : postgres.Extends plain := by
  rintro c rest ⟨names, rest'⟩ step
  change postgresNext c rest = .ok (names, rest')
  cases plainStep_of_ok step with
  | string opens closed clean =>
    subst opens
    simp [postgresNext, skip, closed]
  | identifier opens closed =>
    subst opens
    simp [postgresNext, HappyView.Sql.name, closed]
  | number digit ends =>
    have sign := not_mem_of_class digit (l := signs) (by decide)
    have letter := not_mem_of_class digit (l := prefixLetters) (by decide)
    simp only [signs, prefixLetters, List.mem_cons, not_or] at sign letter
    simp [postgresNext, sign, letter, digit, digits_dropWhile ends]
  | parameter dollar numbered ends scalar =>
    subst dollar
    simp [postgresNext, postgresDollar, numbered]
  | name letter ends =>
    obtain ⟨sign, digit⟩ := letter_off letter
    obtain ⟨single, -⟩ := no_quote_of_apart ends
    simp only [signs, List.mem_cons, not_or] at sign
    simp [postgresNext, sign, single, digit, identStart_of_letter letter, ident_eq ends]
  | line opens clean =>
    obtain ⟨rfl, dash⟩ := opens
    simpa [postgresNext, dash] using line_dropWhile clean
  | block opens flat =>
    obtain ⟨rfl, star⟩ := opens
    simp [postgresNext, star, skip, flat]
  | neutral plain line block =>
    obtain ⟨letter, sign, digit, start⟩ := neutral_off c plain
    simp only [prefixLetters, List.mem_cons, not_or] at letter sign
    simp [postgresNext, letter, sign, digit, start, line, block]

end Databases

end Agreement

/-! ## The guard on plain texts, and beyond -/

def plainQuery : String :=
  "SELECT uri, 'a--b' /* not happyview_users */ FROM happyview_records WHERE id = $1 -- one"

end HappyView.Sql
