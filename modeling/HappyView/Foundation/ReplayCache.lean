import Mathlib.Data.List.AList
import Mathlib.Data.List.Count

/-!
# Replay caches

A cache remembers keys with the time until which an offer of the key is a replay. An
offer that is not one is accepted and remembered until its own expiry, and once the
cache is larger than `limit`, accepting first drops every key whose time has come.

`accepted_nodup_iff` says for which sequences of offers, under a clock that does not go back, no
key is accepted twice: those in which every offer of a key comes strictly before the expiry of the
first one.
-/

namespace HappyView.Foundation.ReplayCache

structure Offer (K : Type*) where
  key : K
  expires : Nat
  now : Nat
  deriving DecidableEq

abbrev Cache (K : Type*) := AList fun _ : K => Nat

variable {K : Type*}

/-- Only the keys whose time is after `now`. -/
def retain (now : Nat) (cache : Cache K) : Cache K where
  entries := cache.entries.filter fun entry => now < entry.2
  nodupKeys := cache.nodupKeys.sublist List.filter_sublist

variable [DecidableEq K]

/-- The cache after an accepted offer; `none` if the offer is a replay. -/
def offer (limit : Nat) (cache : Cache K) (o : Offer K) : Option (Cache K) :=
  if (cache.lookup o.key).any (o.now < ·) then none
  else
    let cache := if limit < cache.entries.length then retain o.now cache else cache
    some (cache.insert o.key o.expires)

def accepted (limit : Nat) (cache : Cache K) : List (Offer K) → List K
  | [] => []
  | o :: rest =>
    match offer limit cache o with
    | none => accepted limit cache rest
    | some next => o.key :: accepted limit next rest

theorem lookup_retain (now : Nat) (cache : Cache K) (key : K) :
    (retain now cache).lookup key = (cache.lookup key).filter (now < ·) := by
  ext e
  rw [← Option.mem_def, AList.mem_lookup_iff, ← Option.mem_def, Option.mem_filter_iff,
    AList.mem_lookup_iff]
  simp [retain]

variable {limit : Nat} {cache next : Cache K} {o : Offer K} {key : K} {rest : List (Offer K)}

theorem offer_eq_none :
    offer limit cache o = none ↔ ∃ e, cache.lookup o.key = some e ∧ o.now < e := by
  cases h : cache.lookup o.key <;> simp [offer, h]

theorem lookup_offer (h : offer limit cache o = some next) :
    next.lookup o.key = some o.expires := by
  unfold offer at h
  split at h
  · cases h
  · cases h
    simp

theorem lookup_offer_of_ne (h : offer limit cache o = some next) (ne : key ≠ o.key) :
    next.lookup key = cache.lookup key ∨
      next.lookup key = none ∧ ∃ e, cache.lookup key = some e ∧ e ≤ o.now := by
  unfold offer at h
  split at h
  · cases h
  · cases h
    rw [AList.lookup_insert_ne ne]
    split
    · rw [lookup_retain]
      cases held : cache.lookup key with
      | none => simp
      | some e => by_cases live : o.now < e <;> simp_all
    · exact .inl rfl

theorem lookup_offer_of_unseen (h : offer limit cache o = some next) (ne : key ≠ o.key)
    (unseen : cache.lookup key = none) : next.lookup key = none := by
  rcases lookup_offer_of_ne h ne with kept | ⟨gone, -⟩
  · rwa [kept]
  · exact gone

theorem ne_of_unseen (replay : offer limit cache o = none) (unseen : cache.lookup key = none) :
    o.key ≠ key := by
  rintro rfl
  obtain ⟨e, held, -⟩ := offer_eq_none.mp replay
  rw [unseen] at held
  cases held

theorem mem_accepted_of_unseen (unseen : cache.lookup key = none) :
    key ∈ accepted limit cache rest ↔ ∃ q ∈ rest, q.key = key := by
  induction rest generalizing cache with
  | nil => simp [accepted]
  | cons o rest ih =>
    simp only [accepted]
    split
    · rename_i replay
      simp [ih unseen, ne_of_unseen replay unseen]
    · rename_i next h
      by_cases same : o.key = key
      · simp [same]
      · simp [ih (lookup_offer_of_unseen h (Ne.symm same) unseen), same, Ne.symm same]

theorem not_mem_accepted_of_seen {e : Nat} (seen : cache.lookup key = some e)
    (clock : rest.Pairwise fun p q => p.now ≤ q.now) :
    key ∉ accepted limit cache rest ↔ ∀ q ∈ rest, q.key = key → q.now < e := by
  induction rest generalizing cache with
  | nil => simp [accepted]
  | cons o rest ih =>
    obtain ⟨later, clock⟩ := List.pairwise_cons.mp clock
    simp only [accepted]
    split
    · rename_i replay
      have inTime : o.key = key → o.now < e := fun same => by
        obtain ⟨e', held, lt⟩ := offer_eq_none.mp replay
        rw [same, seen] at held
        cases held
        exact lt
      simpa [ih seen clock] using fun _ => inTime
    · rename_i next h
      by_cases same : o.key = key
      · have late : ¬ o.now < e := fun lt => by
          rw [offer_eq_none.mpr ⟨e, by rw [same, seen], lt⟩] at h
          cases h
        simp [same, late]
      · rcases lookup_offer_of_ne h (Ne.symm same) with kept | ⟨gone, e', held, due⟩
        · simp [ih (kept.trans seen) clock, same, Ne.symm same]
        · -- Dropped: every later offer comes after the expiry as well.
          obtain rfl : e' = e := Option.some.inj (held.symm.trans seen)
          have past : ∀ q ∈ rest, ¬ q.now < e' := fun q hq => by
            have := later q hq
            omega
          simp only [List.mem_cons, Ne.symm same, false_or, mem_accepted_of_unseen gone]
          grind

/-! ## Accepted once -/

/-- The first offer of `key` holds against every later one. -/
def Holds (key : K) : List (Offer K) → Prop
  | [] => True
  | o :: rest => if o.key = key then ∀ q ∈ rest, q.key = key → q.now < o.expires else Holds key rest

theorem holds_iff {offers : List (Offer K)} : Holds key offers ↔
    ∀ front o back, offers = front ++ o :: back → o.key = key → (∀ p ∈ front, p.key ≠ key) →
      ∀ q ∈ back, q.key = key → q.now < o.expires := by
  induction offers with
  | nil => simp [Holds]
  | cons first rest ih =>
    simp only [Holds]
    split
    · rename_i same
      constructor
      · intro all front o back split _ none
        cases front with
        | nil =>
          cases split
          exact all
        | cons p front =>
          cases split
          exact absurd same (none first (by simp))
      · intro all
        exact all [] first rest rfl same (by simp)
    · rename_i other
      rw [ih]
      constructor
      · intro all front o back split same none
        cases front with
        | nil =>
          cases split
          exact absurd same other
        | cons p front =>
          cases split
          exact all front o back rfl same fun p hp => none p (by simp [hp])
      · intro all front o back split same none
        refine all (first :: front) o back (by rw [split]; rfl) same ?_
        simpa [other] using none

theorem count_accepted_le_one (unseen : cache.lookup key = none)
    (clock : rest.Pairwise fun p q => p.now ≤ q.now) :
    (accepted limit cache rest).count key ≤ 1 ↔ Holds key rest := by
  induction rest generalizing cache with
  | nil => simp [accepted, Holds]
  | cons o rest ih =>
    obtain ⟨-, clock⟩ := List.pairwise_cons.mp clock
    simp only [accepted, Holds]
    split
    · rename_i replay
      rw [if_neg (ne_of_unseen replay unseen)]
      exact ih unseen clock
    · rename_i next h
      by_cases same : o.key = key
      · subst same
        have again : o.key ∉ accepted limit next rest ↔ _ :=
          not_mem_accepted_of_seen (lookup_offer h) clock
        rw [if_pos rfl, ← again, ← List.count_eq_zero, List.count_cons_self]
        omega
      · rw [if_neg same, List.count_cons_of_ne same]
        exact ih (lookup_offer_of_unseen h (Ne.symm same) unseen) clock

/-- Under a clock that does not go back, no key is accepted twice exactly when every
offer of a key comes before the expiry of the first one. -/
theorem accepted_nodup_iff {offers : List (Offer K)}
    (clock : offers.Pairwise fun p q => p.now ≤ q.now) :
    (accepted limit ∅ offers).Nodup ↔
      ∀ front o back, offers = front ++ o :: back → (∀ p ∈ front, p.key ≠ o.key) →
        ∀ q ∈ back, q.key = o.key → q.now < o.expires := by
  rw [List.nodup_iff_count_le_one]
  constructor
  · intro once front o back split none
    exact holds_iff.mp
      ((count_accepted_le_one rfl clock).mp (once o.key)) front o back split rfl none
  · intro inTime key
    refine (count_accepted_le_one rfl clock).mpr (holds_iff.mpr ?_)
    rintro front o back split rfl none
    exact inTime front o back split none

theorem accepted_filterMap_nodup_iff {R : Type*} {f : R → Option (Offer K)} {requests : List R}
    (clock : (requests.filterMap f).Pairwise fun p q => p.now ≤ q.now) :
    (accepted limit ∅ (requests.filterMap f)).Nodup ↔
      ∀ front r back, requests = front ++ r :: back → ∀ o, f r = some o →
        (∀ p ∈ front, ∀ e, f p = some e → e.key ≠ o.key) →
        ∀ q ∈ back, ∀ e, f q = some e → e.key = o.key → e.now < o.expires := by
  rw [accepted_nodup_iff clock]
  constructor
  · intro inTime front r back split o offered none q hq e again
    refine inTime (front.filterMap f) o (back.filterMap f) (by simp [split, offered]) ?_ e ?_
    · intro e he
      obtain ⟨p, hp, earlier⟩ := List.mem_filterMap.mp he
      exact none p hp e earlier
    · exact List.mem_filterMap.mpr ⟨q, hq, again⟩
  · intro inTime front o back split none e he
    obtain ⟨front', rest, rfl, rfl, tail⟩ := List.filterMap_eq_append_iff.mp split
    obtain ⟨skipped, r, back', rfl, skips, offered, rfl⟩ := List.filterMap_eq_cons_iff.mp tail
    obtain ⟨q, hq, again⟩ := List.mem_filterMap.mp he
    refine inTime (front' ++ skipped) r back' (by simp) o offered ?_ q hq e again
    intro p hp e earlier
    rcases List.mem_append.mp hp with before | between
    · exact none e (List.mem_filterMap.mpr ⟨p, before, earlier⟩)
    · rw [skips p between] at earlier
      cases earlier

end HappyView.Foundation.ReplayCache
