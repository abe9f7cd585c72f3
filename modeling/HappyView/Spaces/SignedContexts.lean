import HappyView.Error
import HappyView.Foundation.Bytes

/-!
# What space commits sign

A signed commit signs a context, and a proposal 0016 commit is authenticated by a MAC of a
message. Both are a tag and then texts, each behind its length in two bytes, and 32 bytes at
the end.

Neither can be read in two ways, and no context is a message (`signed_contexts_distinct`), so
what was signed or authenticated for one commit says nothing about another.
-/

namespace HappyView.Spaces.SignedContexts

open HappyView.Foundation.Bytes

/-- A text behind the two bytes of its length as a `u16`. -/
def field (text : String) : List UInt8 := framed 2 (utf8 text)

def buildContext (spaceUri authorDid rev : String) (ikm : Vector UInt8 32) : List UInt8 :=
  utf8 "atproto-space-v1" ++ (field spaceUri ++ (field authorDid ++ (field rev ++
    framed 2 ikm.toList)))

structure Commit where
  ver : UInt32
  repo : String
  space : String
  rev : String
  data : Vector UInt8 32
  deriving DecidableEq

def commitMacType : String := "atproto-space-repo"

/-- `u16::try_from` refuses a length that two bytes do not hold. -/
def macField (text : String) : Except AppError (List UInt8) := do
  ensure (.badRequest "commit field is too long to authenticate") ((utf8 text).length < 2 ^ 16)
  return field text

def macMessage (commit : Commit) : Except AppError (List UInt8) := do
  let space ← macField commit.space
  let repo ← macField commit.repo
  let rev ← macField commit.rev
  return utf8 (commitMacType ++ "-v" ++ toString commit.ver.toNat) ++
    (space ++ (repo ++ (rev ++ commit.data.toList)))

def commitMac (hmac : Vector UInt8 32 → List UInt8 → Vector UInt8 32)
    (sharedSecret : Vector UInt8 32) (commit : Commit) : Except AppError (Vector UInt8 32) := do
  return hmac sharedSecret (← macMessage commit)

def verifyCommit (hmac : Vector UInt8 32 → List UInt8 → Vector UInt8 32) (commit : Commit)
    (spaceUri authorDid : String) (sharedSecret mac : Vector UInt8 32) : Except AppError Unit := do
  ensure (.badRequest ("unsupported commit version: " ++ toString commit.ver.toNat))
    (commit.ver = 1)
  ensure (.auth "commit describes a different repo than the one requested")
    (commit.repo = authorDid ∧ commit.space = spaceUri)
  let expected ← commitMac hmac sharedSecret commit
  ensure (.auth "commit MAC verification failed") (expected = mac)

/-! ## One reading -/

def Short (text : String) : Prop := (utf8 text).length < 2 ^ 16

instance (text : String) : Decidable (Short text) := inferInstanceAs (Decidable (_ < _))

theorem field_append_inj {a b : String} {xs ys : List UInt8} (ha : Short a) (hb : Short b)
    (same : field a ++ xs = field b ++ ys) : a = b ∧ xs = ys := by
  obtain ⟨texts, rest⟩ := framed_append_inj ha hb same
  exact ⟨utf8_injective texts, rest⟩

theorem macField_eq_ok {text : String} {bytes : List UInt8} :
    macField text = .ok bytes ↔ Short text ∧ bytes = field text := by
  constructor
  · intro made
    obtain ⟨_, short, same⟩ := bind_eq_ok.mp made
    exact ⟨by simpa [Short] using short, (Except.ok.inj same).symm⟩
  · rintro ⟨short, rfl⟩
    exact bind_eq_ok.mpr ⟨(), by simpa [Short] using short, rfl⟩

/-- A message is made of the fields, and only when they are short. -/
theorem macMessage_eq_ok {commit : Commit} {message : List UInt8} :
    macMessage commit = .ok message ↔
      (Short commit.space ∧ Short commit.repo ∧ Short commit.rev) ∧
        message = utf8 (commitMacType ++ "-v" ++ toString commit.ver.toNat) ++
          (field commit.space ++ (field commit.repo ++ (field commit.rev ++
            commit.data.toList))) := by
  simp only [macMessage, bind_eq_ok, macField_eq_ok]
  constructor
  · rintro ⟨_, ⟨space, rfl⟩, _, ⟨repo, rfl⟩, _, ⟨rev, rfl⟩, same⟩
    exact ⟨⟨space, repo, rev⟩, (Except.ok.inj same).symm⟩
  · rintro ⟨⟨space, repo, rev⟩, rfl⟩
    exact ⟨_, ⟨space, rfl⟩, _, ⟨repo, rfl⟩, _, ⟨rev, rfl⟩, rfl⟩

theorem buildContext_inj {space author rev space' author' rev' : String}
    {ikm ikm' : Vector UInt8 32} (hs : Short space) (ha : Short author) (hr : Short rev)
    (hs' : Short space') (ha' : Short author') (hr' : Short rev')
    (same : buildContext space author rev ikm = buildContext space' author' rev' ikm') :
    space = space' ∧ author = author' ∧ rev = rev' ∧ ikm = ikm' := by
  have short (v : Vector UInt8 32) : v.toList.length < 256 ^ 2 := by simp
  obtain ⟨spaces, same⟩ := field_append_inj hs hs' (List.append_cancel_left same)
  obtain ⟨authors, same⟩ := field_append_inj ha ha' same
  obtain ⟨revs, same⟩ := field_append_inj hr hr' same
  obtain ⟨ikms, -⟩ := framed_append_inj (short ikm) (short ikm') (congrArg (· ++ []) same)
  exact ⟨spaces, authors, revs, Vector.toList_inj.mp ikms⟩

theorem macMessage_inj {c d : Commit} {message : List UInt8} (ver : c.ver = d.ver)
    (hc : macMessage c = .ok message) (hd : macMessage d = .ok message) : c = d := by
  obtain ⟨⟨cs, cp, cr⟩, rfl⟩ := macMessage_eq_ok.mp hc
  obtain ⟨⟨ds, dp, dr⟩, same⟩ := macMessage_eq_ok.mp hd
  rw [ver] at same
  obtain ⟨spaces, same⟩ := field_append_inj cs ds (List.append_cancel_left same)
  obtain ⟨repos, same⟩ := field_append_inj cp dp same
  obtain ⟨revs, same⟩ := field_append_inj cr dr same
  cases c
  cases d
  simp_all [Vector.toList_inj]

/-- The tags differ at their fifteenth byte. -/
theorem macMessage_ne_buildContext (commit : Commit) (space author rev : String)
    (ikm : Vector UInt8 32) : macMessage commit ≠ .ok (buildContext space author rev ikm) := by
  intro made
  obtain ⟨-, same⟩ := macMessage_eq_ok.mp made
  have tag : (utf8 "atproto-space-v1").length = 16 ∧ (utf8 commitMacType).length = 18 := by decide
  have bytes := congrArg (·[14]?) same
  simp only [buildContext, utf8_append, List.append_assoc] at bytes
  rw [List.getElem?_append_left (by omega), List.getElem?_append_left (by omega)] at bytes
  exact absurd bytes (by decide)

/-- Contexts of short fields are equal only for equal fields, so are messages of version 1
commits, and no context is a message. -/
theorem signed_contexts_distinct :
    (∀ space author rev space' author' rev' : String, ∀ ikm ikm' : Vector UInt8 32,
      Short space → Short author → Short rev → Short space' → Short author' → Short rev' →
      buildContext space author rev ikm = buildContext space' author' rev' ikm' →
      space = space' ∧ author = author' ∧ rev = rev' ∧ ikm = ikm') ∧
    (∀ c d : Commit, c.ver = 1 → d.ver = 1 → Short c.space → Short c.repo → Short c.rev →
      macMessage c = macMessage d →
      c.space = d.space ∧ c.repo = d.repo ∧ c.rev = d.rev ∧ c.data = d.data) ∧
    ∀ (c : Commit) (space author rev : String) (ikm : Vector UInt8 32),
      macMessage c ≠ .ok (buildContext space author rev ikm) := by
  refine ⟨?_, ?_, macMessage_ne_buildContext⟩
  · intro space author rev space' author' rev' ikm ikm' hs ha hr hs' ha' hr' same
    exact buildContext_inj hs ha hr hs' ha' hr' same
  · intro c d hc hd space repo rev same
    have made := macMessage_eq_ok.mpr ⟨⟨space, repo, rev⟩, rfl⟩
    obtain rfl := macMessage_inj (hc.trans hd.symm) made (same ▸ made)
    exact ⟨rfl, rfl, rfl, rfl⟩

section Verification

variable {hmac : Vector UInt8 32 → List UInt8 → Vector UInt8 32}

/-- Against the MAC of `made`, under an HMAC without a collision of the two messages, `made`
alone verifies, for its own repo and space. -/
theorem verifyCommit_iff_made {secret mac : Vector UInt8 32} (commit made : Commit)
    {spaceUri authorDid : String} (version : made.ver = 1)
    (authentic : commitMac hmac secret made = .ok mac)
    (distinct : ∀ a b, macMessage commit = .ok a → macMessage made = .ok b →
      hmac secret a = hmac secret b → a = b) :
    verifyCommit hmac commit spaceUri authorDid secret mac = .ok () ↔
      commit = made ∧ made.repo = authorDid ∧ made.space = spaceUri := by
  obtain ⟨message, framed, same⟩ := bind_eq_ok.mp authentic
  have same : hmac secret message = mac := Except.ok.inj same
  simp only [verifyCommit, commitMac, bind_eq_ok, ensure_eq_ok, decide_eq_true_eq, exists_and_left,
    exists_const]
  constructor
  · rintro ⟨ver, requested, expected, ⟨found, sent, computed⟩, equal⟩
    have equal : hmac secret found = mac := (Except.ok.inj computed).trans equal
    obtain rfl := distinct found message sent framed (equal.trans same.symm)
    obtain rfl := macMessage_inj (ver.trans version.symm) sent framed
    exact ⟨rfl, requested⟩
  · rintro ⟨rfl, requested⟩
    exact ⟨version, requested, _, ⟨message, framed, rfl⟩, same⟩

/-- The last 32 bytes of a message, its `data`, in place of an HMAC. -/
theorem verifyCommit_iff_made_altered :
    verifyCommit (fun _ message => .ofFn fun i => message.reverse.getD i 0)
      ⟨1, "did:plc:a", "ats://s", "3k", .replicate 32 7⟩ "ats://s" "did:plc:a" (.replicate 32 0)
        (.replicate 32 9) ≠ .ok () := by
  intro verified
  have made := (verifyCommit_iff_made _ ⟨1, "did:plc:a", "ats://s", "3k", .replicate 32 9⟩ rfl
    (by decide +kernel) (by
      intro a b sent framed
      cases sent
      cases framed
      decide +kernel)).mp verified
  exact absurd made.1 (by decide)

end Verification

end HappyView.Spaces.SignedContexts
