import HappyView.Foundation.ReplayCache
import HappyView.Spaces.Delegation

/-!
# Delegation tokens are used once

The table of uses is a replay cache: it answers as one whose times are numbers, as long as a
use is on record until the time that its text stands for (`represents_expiresAt`). For an
expiry up to the year 9999 that is the expiry. Any other expiry is stored as a text that is
before the current time at once, or after the next tick of the clock.
-/

namespace HappyView.Spaces

open HappyView.Foundation Timestamp

/-! ## How long a use is on record -/

/-- The last instant at which the use of a token is on record; none if it is deleted by the
next exchange at any time. -/
def heldUntil (C : Chrono) (exp : UInt64) (usedAt : Instant) : Option Instant :=
  if exp.toNat ≤ 253402300799 then some ⟨exp.toNat, 0, Instant.zero_nanos_lt⟩
  else if (C.fromTimestamp (asI64 exp)).isSome then none
  else some usedAt

/-- The use of a token is still on record. -/
def OnRecord (C : Chrono) (exp : UInt64) (usedAt now : Instant) : Prop :=
  ∃ last ∈ heldUntil C exp usedAt, now.count ≤ last.count

namespace Reading

def time (now : Reading) : Nat := now.val.count.toNat

variable (now : Reading)

theorem fourDigit : FourDigit now.val.secs := ⟨by have := now.property; omega, now.property.2⟩

theorem count_eq : now.val.count = now.time := by
  have := now.property
  unfold time Instant.count
  omega

end Reading

variable {C : Chrono}

def offRecordAt (C : Chrono) (exp : UInt64) (usedAt : Reading) : Nat :=
  (heldUntil C exp usedAt.val).elim 0 fun last => last.count.toNat + 1

theorem onRecord_iff {exp : UInt64} {usedAt now : Reading} :
    OnRecord C exp usedAt.val now.val ↔ now.time < offRecordAt C exp usedAt := by
  have used := usedAt.count_eq
  unfold OnRecord offRecordAt
  rw [now.count_eq]
  cases held : heldUntil C exp usedAt.val with
  | none => simp
  | some last =>
    have count : 0 ≤ last.count := by
      unfold heldUntil at held
      split at held
      · cases held
        simp only [Instant.count]
        omega
      · split at held <;> cases held
        omega
    simp
    omega

theorem asI64_eq (n : UInt64) :
    asI64 n = if n.toNat < 2 ^ 63 then (n.toNat : Int) else n.toNat - 2 ^ 64 := by
  rw [asI64, BitVec.toInt_eq_toNat_cond]
  simp only [UInt64.toNat_toBitVec]
  split <;> split <;> omega

/-- A stored text comes before the texts of the times from `e` on. -/
def Represents (C : Chrono) (text : String) (e : Nat) : Prop :=
  ∀ now : Reading, text < C.rfc3339 now.val ↔ e ≤ now.time

theorem represents_expiresAt (laws : C.Laws) (exp : UInt64) (usedAt : Reading) :
    Represents C (expiresAt C exp usedAt.val) (offRecordAt C exp usedAt) := by
  intro now
  have nowCount := now.count_eq
  have i64 := asI64_eq exp
  unfold expiresAt offRecordAt heldUntil
  split
  · rename_i near
    have exact : asI64 exp = exp.toNat := by
      rw [i64, if_pos (by omega)]
    have four : FourDigit (exp.toNat : Int) := ⟨by omega, by omega⟩
    obtain ⟨t, found⟩ := Option.isSome_iff_exists.mp (laws.represented four)
    obtain rfl := laws.eq_of_fromTimestamp found
    rw [exact, found, Option.map_some, Option.getD_some, laws.rfc3339_lt four now.fourDigit,
      nowCount, Option.elim_some]
    simp only [Instant.count]
    omega
  · rename_i far
    split
    · rename_i found
      have represented := found
      obtain ⟨t, found⟩ := Option.isSome_iff_exists.mp found
      rw [found, Option.map_some, Option.getD_some, Option.elim_none,
        iff_true_right (Nat.zero_le _), laws.eq_of_fromTimestamp found]
      by_cases four : FourDigit (asI64 exp)
      · -- Only an expiry that has become negative has four digits here.
        refine (laws.rfc3339_lt four now.fourDigit).mpr ?_
        have near := four.2
        have past : asI64 exp < 0 := by
          by_cases small : exp.toNat < 2 ^ 63
          · rw [if_pos small] at i64
            omega
          · rw [if_neg small] at i64
            have := exp.toNat_lt
            omega
        rw [nowCount]
        simp only [Instant.count]
        omega
      · exact laws.signed_lt represented four now.fourDigit
    · rename_i missing
      rw [Option.not_isSome_iff_eq_none.mp missing, Option.map_none, Option.getD_none,
        laws.rfc3339_lt usedAt.fourDigit now.fourDigit, usedAt.count_eq, nowCount, Option.elim_some,
        usedAt.count_eq]
      omega

/-! ## The table as a replay cache -/

theorem lookup_pruneUses (now : Instant) (uses : DelegationUses) (key : String × String) :
    (pruneUses C now uses).lookup key = (uses.lookup key).filter (¬ · < C.rfc3339 now) := by
  ext text
  rw [← Option.mem_def, AList.mem_lookup_iff, ← Option.mem_def, Option.mem_filter_iff,
    AList.mem_lookup_iff]
  simp [pruneUses]

/-- The table holds what the cache holds, but for what is off the record at `time`. -/
structure Agrees (C : Chrono) (time : Nat) (uses : DelegationUses)
    (cache : ReplayCache.Cache (String × String)) : Prop where
  live : ∀ key e, cache.lookup key = some e → time < e →
    ∃ text, uses.lookup key = some text ∧ Represents C text e
  held : ∀ key text, uses.lookup key = some text → ∃ e, cache.lookup key = some e ∧
    Represents C text e

section Refine

variable {uses : DelegationUses} {cache : ReplayCache.Cache (String × String)} {time : Nat}

theorem Agrees.prune (agrees : Agrees C time uses cache) {now : Reading} (later : time ≤ now.time) :
    Agrees C now.time (pruneUses C now.val uses) cache where
  live key e found alive := by
    obtain ⟨text, held, represents⟩ := agrees.live key e found (by omega)
    have kept : ¬ text < C.rfc3339 now.val := by
      rw [represents now]
      omega
    refine ⟨text, ?_, represents⟩
    rw [lookup_pruneUses, Option.filter_eq_some_iff]
    exact ⟨held, decide_eq_true kept⟩
  held key text found := by
    rw [lookup_pruneUses] at found
    exact agrees.held key text (Option.filter_eq_some_iff.mp found).1

def useOffer (C : Chrono) (claims : DelegationTokenClaims) (now : Reading) :
    ReplayCache.Offer (String × String) :=
  ⟨(claims.iss, claims.jti), offRecordAt C claims.exp now, now.time⟩

theorem Agrees.consume (agrees : Agrees C time uses cache) (laws : C.Laws)
    (claims : DelegationTokenClaims) {now : Reading} (later : time ≤ now.time) :
    (consumeDelegationToken C uses claims.iss claims.jti claims.exp now.val).1 =
        (ReplayCache.offer 0 cache (useOffer C claims now)).isSome ∧
      Agrees C now.time (consumeDelegationToken C uses claims.iss claims.jti claims.exp now.val).2
        ((ReplayCache.offer 0 cache (useOffer C claims now)).getD cache) := by
  have pruned := agrees.prune later
  unfold consumeDelegationToken
  cases replay : ReplayCache.offer 0 cache (useOffer C claims now) with
  | none =>
    obtain ⟨e, found, alive⟩ := ReplayCache.offer_eq_none.mp replay
    obtain ⟨text, held, -⟩ := pruned.live _ e found alive
    have held : (pruneUses C now.val uses).lookup (claims.iss, claims.jti) = some text := held
    simp only [held]
    exact ⟨rfl, pruned⟩
  | some next =>
    have alive {key : String × String} {text : String} {e : Nat}
        (held : (pruneUses C now.val uses).lookup key = some text)
        (represents : Represents C text e) : now.time < e := by
      rw [lookup_pruneUses] at held
      have := (Option.filter_eq_some_iff.mp held).2
      simp only [represents now, decide_eq_true_eq] at this
      omega
    have absent : (pruneUses C now.val uses).lookup (claims.iss, claims.jti) = none := by
      cases held : (pruneUses C now.val uses).lookup (claims.iss, claims.jti) with
      | none => rfl
      | some text =>
        obtain ⟨e, found, represents⟩ := pruned.held _ text held
        rw [ReplayCache.offer_eq_none.mpr ⟨e, found, alive held represents⟩] at replay
        cases replay
    simp only [absent, Option.getD_some]
    refine ⟨rfl, fun key e found inTime => ?_, fun key text found => ?_⟩
    · by_cases here : key = (claims.iss, claims.jti)
      · subst here
        cases (ReplayCache.lookup_offer replay).symm.trans found
        exact ⟨_, AList.lookup_insert _, represents_expiresAt laws claims.exp now⟩
      · rw [AList.lookup_insert_ne here]
        rcases ReplayCache.lookup_offer_of_ne replay here with kept | ⟨gone, -⟩
        · exact pruned.live key e (kept ▸ found) inTime
        · rw [gone] at found
          cases found
    · by_cases here : key = (claims.iss, claims.jti)
      · subst here
        rw [AList.lookup_insert] at found
        cases found
        exact ⟨_, ReplayCache.lookup_offer replay, represents_expiresAt laws claims.exp now⟩
      · rw [AList.lookup_insert_ne here] at found
        obtain ⟨e, held, represents⟩ := pruned.held key text found
        rcases ReplayCache.lookup_offer_of_ne replay here with kept | ⟨-, e', held', due⟩
        · exact ⟨e, kept ▸ held, represents⟩
        · rw [held] at held'
          cases held'
          exact absurd (alive found represents) (by simpa [useOffer] using due)

end Refine

/-! ## Runs -/

section Runs

variable {Bytes Key : Type} (P : DelegationPrimitives Bytes Key)

def requestOffer (r : CredentialRequest Key) : Option (ReplayCache.Offer (String × String)) :=
  match checkRequest P r with
  | .ok (_, claims, _) => some (useOffer P.chrono claims r.usedAt)
  | .error _ => none

/-- A credential is issued for every token that is used. -/
def Granted (r : CredentialRequest Key) : Prop :=
  ∀ space claims boundKey, ∃ credential, r.issue space claims boundKey = .ok credential

variable {P} {uses : DelegationUses} {cache : ReplayCache.Cache (String × String)} {time : Nat}
  {requests : List (CredentialRequest Key)}

theorem exchanged_accepted (laws : P.chrono.Laws) (agrees : Agrees P.chrono time uses cache)
    (later : ∀ r ∈ requests, time ≤ r.usedAt.time)
    (clock : requests.Pairwise fun p q => p.usedAt.time ≤ q.usedAt.time) :
    (exchanged P uses requests).Sublist
        (ReplayCache.accepted 0 cache (requests.filterMap (requestOffer P))) ∧
      ((∀ r ∈ requests, Granted r) → exchanged P uses requests =
        ReplayCache.accepted 0 cache (requests.filterMap (requestOffer P))) := by
  induction requests generalizing uses cache time with
  | nil => simp [exchanged, ReplayCache.accepted]
  | cons r rest ih =>
    obtain ⟨first, clock⟩ := List.pairwise_cons.mp clock
    have now := later r (by simp)
    cases checked : checkRequest P r with
    | error e =>
      have skip : requestOffer P r = none := by simp [requestOffer, checked]
      have same : exchanged P uses (r :: rest) = exchanged P uses rest := by
        simp [exchanged, getSpaceCredential, checked]
      rw [List.filterMap_cons_none skip, same]
      obtain ⟨sub, eq⟩ := ih agrees (fun q mem => later q (by simp [mem])) clock
      exact ⟨sub, fun granted => eq fun q mem => granted q (by simp [mem])⟩
    | ok passed =>
      obtain ⟨space, claims, boundKey⟩ := passed
      have offered : requestOffer P r = some (useOffer P.chrono claims r.usedAt) := by
        simp [requestOffer, checked]
      obtain ⟨answer, after⟩ := agrees.consume laws claims now
      generalize consumed : consumeDelegationToken P.chrono uses claims.iss claims.jti claims.exp
        r.usedAt.val = result at answer after
      obtain ⟨fresh, left⟩ := result
      rw [List.filterMap_cons_some offered]
      simp only [ReplayCache.accepted]
      cases replay : ReplayCache.offer 0 cache (useOffer P.chrono claims r.usedAt) with
      | none =>
        rw [replay] at answer after
        cases answer
        have same : exchanged P uses (r :: rest) = exchanged P left rest := by
          simp [exchanged, getSpaceCredential, checked, consumed]
        rw [same]
        obtain ⟨sub, eq⟩ := ih after first clock
        exact ⟨sub, fun granted => eq fun q mem => granted q (by simp [mem])⟩
      | some next =>
        rw [replay] at answer after
        cases answer
        obtain ⟨sub, eq⟩ := ih after first clock
        cases issued : r.issue space claims boundKey with
        | error e =>
          have same : exchanged P uses (r :: rest) = exchanged P left rest := by
            simp [exchanged, getSpaceCredential, checked, consumed, issued]
          rw [same]
          refine ⟨sub.cons _, fun granted => ?_⟩
          obtain ⟨credential, ok⟩ := granted r (by simp) space claims boundKey
          rw [issued] at ok
          cases ok
        | ok credential =>
          have one : exchanged P uses (r :: rest) =
              (claims.iss, claims.jti) :: exchanged P left rest := by
            simp [exchanged, getSpaceCredential, checked, consumed, issued]
          rw [one]
          exact ⟨sub.cons_cons _, fun granted =>
            congrArg _ (eq fun q mem => granted q (by simp [mem]))⟩

/-- A token is presented again only while its first use is on record. -/
def PresentedInTime (P : DelegationPrimitives Bytes Key) (requests : List (CredentialRequest Key)) :
    Prop :=
  ∀ front r back, requests = front ++ r :: back →
    ∀ space claims boundKey, checkRequest P r = .ok (space, claims, boundKey) →
    (∀ p ∈ front, ∀ space' claims' boundKey', checkRequest P p = .ok (space', claims', boundKey') →
      (claims'.iss, claims'.jti) ≠ (claims.iss, claims.jti)) →
    ∀ q ∈ back, ∀ space' claims' boundKey', checkRequest P q = .ok (space', claims', boundKey') →
      (claims'.iss, claims'.jti) = (claims.iss, claims.jti) →
      OnRecord P.chrono claims.exp r.usedAt.val q.usedAt.val

theorem requestOffer_eq_some {r : CredentialRequest Key} {o : ReplayCache.Offer (String × String)} :
    requestOffer P r = some o ↔ ∃ space claims boundKey,
      checkRequest P r = .ok (space, claims, boundKey) ∧ useOffer P.chrono claims r.usedAt = o := by
  unfold requestOffer
  split
  · rename_i space claims boundKey checked
    simp [checked]
  · rename_i e checked
    simp [checked]

theorem presentedInTime_iff : PresentedInTime P requests ↔
    ∀ front r back, requests = front ++ r :: back → ∀ o, requestOffer P r = some o →
      (∀ p ∈ front, ∀ e, requestOffer P p = some e → e.key ≠ o.key) →
      ∀ q ∈ back, ∀ e, requestOffer P q = some e → e.key = o.key → e.now < o.expires := by
  simp only [PresentedInTime, requestOffer_eq_some, onRecord_iff]
  constructor
  · rintro inTime front r back split o ⟨space, claims, boundKey, checked, rfl⟩ first q mem e
      ⟨space', claims', boundKey', again, rfl⟩ same
    refine inTime front r back split space claims boundKey checked ?_ q mem space' claims' boundKey'
      again same
    exact fun p hp s c k ok => first p hp _ ⟨s, c, k, ok, rfl⟩
  · intro inTime front r back split space claims boundKey checked first q mem space' claims'
      boundKey' again same
    refine inTime front r back split _ ⟨space, claims, boundKey, checked, rfl⟩ ?_ q mem _
      ⟨space', claims', boundKey', again, rfl⟩ same
    rintro p hp e ⟨s, c, k, ok, rfl⟩
    exact first p hp s c k ok

end Runs

/-- For every sequence of requests under a clock that does not go back: no token is exchanged
twice if every token is presented again only while its first use is on record; and, when
every token used gets a credential, only then. -/
theorem delegationToken_singleUse {Bytes Key : Type} (P : DelegationPrimitives Bytes Key)
    (laws : P.chrono.Laws) (requests : List (CredentialRequest Key))
    (clock : requests.Pairwise fun p q => p.usedAt.val.count ≤ q.usedAt.val.count) :
    (PresentedInTime P requests → (exchanged P ∅ requests).Nodup) ∧
      ((∀ r ∈ requests, Granted r) → (exchanged P ∅ requests).Nodup →
        PresentedInTime P requests) := by
  have times : requests.Pairwise fun p q => p.usedAt.time ≤ q.usedAt.time := by
    refine clock.imp fun {p q} le => ?_
    rwa [p.usedAt.count_eq, q.usedAt.count_eq, Int.ofNat_le] at le
  have offers : (requests.filterMap (requestOffer P)).Pairwise fun p q => p.now ≤ q.now := by
    refine times.filterMap _ fun p q le o ho o' ho' => ?_
    obtain ⟨-, -, -, -, rfl⟩ := requestOffer_eq_some.mp ho
    obtain ⟨-, -, -, -, rfl⟩ := requestOffer_eq_some.mp ho'
    exact le
  have empty : Agrees P.chrono 0 ∅ ∅ := ⟨by simp, by simp⟩
  obtain ⟨sub, eq⟩ := exchanged_accepted laws empty (fun _ _ => Nat.zero_le _) times
  have nodup : (ReplayCache.accepted 0 ∅ (requests.filterMap (requestOffer P))).Nodup ↔
      PresentedInTime P requests := by
    rw [presentedInTime_iff]
    exact ReplayCache.accepted_filterMap_nodup_iff offers
  exact ⟨fun inTime => (nodup.mpr inTime).sublist sub,
    fun granted once => nodup.mp (eq granted ▸ once)⟩

def forumJwt (exp : UInt64) : DelegationPrimitives String Unit where
  decode := some
  parseHeader _ := some ⟨some "ES256K", some delegationTokenKind.typ, none⟩
  parseClaims _ := some
    { iss := "did:plc:a"
      sub := "at://did:plc:s/space/app.forum/main"
      aud := "did:plc:s#atproto_space_host"
      iat := 0
      exp := exp
      jti := "j" }
  verify _ _ _ := true
  multikeyToSpaceKey _ := .error (.auth "multikey is too short")
  chrono := chrono

def forumRequest (second : Fin 60) : CredentialRequest Unit where
  authorization := some "Bearer h.c.s"
  boundKey := .ok "did:key:z"
  spaceRef := "at://did:plc:s/space/app.forum/main"
  store := { spaces := [⟨⟨"s1", "did:plc:s", "app.forum", "main", none⟩, [], none⟩] }
  hasKeyring := true
  localKey := some ()
  resolveDidDocument _ := .ok []
  verifiedAt := 1700000000 + second
  usedAt := ⟨⟨1700000000 + second, 0, Instant.zero_nanos_lt⟩, by dsimp only; omega,
    by dsimp only; omega⟩
  issue _ _ _ := .ok ⟨"credential", ""⟩

/-- A token that expires after the year 9999, or so late that the expiry is no date, or that
it is negative, is exchanged twice. -/
theorem delegationToken_replayed :
    exchanged (forumJwt 253402300800) ∅ [forumRequest 0, forumRequest 1] =
        [("did:plc:a", "j"), ("did:plc:a", "j")] ∧
      exchanged (forumJwt 4611686018427387904) ∅ [forumRequest 0, forumRequest 1] =
        [("did:plc:a", "j"), ("did:plc:a", "j")] ∧
      exchanged (forumJwt 18446744073709551615) ∅ [forumRequest 0, forumRequest 1] =
        [("did:plc:a", "j"), ("did:plc:a", "j")] := by
  refine ⟨?_, ?_, ?_⟩
  all_goals decide +kernel

theorem delegationToken_singleUse_minute :
    exchanged (forumJwt 1700000060) ∅ [forumRequest 0, forumRequest 1] = [("did:plc:a", "j")] ∧
      PresentedInTime (forumJwt 1700000060) [forumRequest 0, forumRequest 1] := by
  have once : exchanged (forumJwt 1700000060) ∅ [forumRequest 0, forumRequest 1] =
      [("did:plc:a", "j")] := by decide +kernel
  refine ⟨once, (delegationToken_singleUse _ chrono_laws _ ?_).2 ?_ ?_⟩
  · simp [forumRequest, Instant.count]
  · simp [forumRequest, Granted]
  · rw [once]
    simp

end HappyView.Spaces
