import HappyView.Spaces.Invites

/-!
# The accounts of an invite

The rows that accepts have inserted are one for each accept that has joined, and as many as the
uses of the invite. An accept joins when its transaction commits; until then it holds the row, so
what the update has checked is still so.
-/

namespace HappyView.Spaces.Invites

open HappyView.Foundation
open HappyView.Spaces.Writers (DatabaseBackend)

variable {w : Setting}

/-! ## What is known of an accept -/

def Accept.hasJoined : Accept → Bool
  | .joined _ | .unacknowledged _ _ | .unread _ _ | .accepted _ _ => true
  | _ => false

def Accept.misreported : Accept → Bool
  | .unacknowledged _ _ | .unread _ _ => true
  | _ => false

def Accept.claimError : Accept → Bool
  | .claimFailed _ | .unacknowledged _ _ => true
  | _ => false

def Accept.isAccepted : Accept → Bool
  | .accepted _ _ => true
  | _ => false

def Available (invite : SpaceInvite) : Prop :=
  invite.revoked = false ∧ invite.maxUses.all (invite.uses < ·) = true

def Claim.Sound (w : Setting) (i : Nat) (claim : Claim) : Prop :=
  claim.inviteId = w.terms.id ∧ claim.member.id = i ∧ claim.member.spaceId = w.terms.spaceId

/-- What an accept knows, and what its transaction holds. -/
def Accept.Sound (w : Setting) (s : State) (i : Nat) : Accept → Prop
  | .checked _ invite => invite.toInviteTerms = w.terms
  | .ready claim _ | .begun claim _ => claim.Sound w i
  | .taken claim _ => claim.Sound w i ∧ s.lock = some i ∧ Available s.invite
  | .inserted claim _ => claim.Sound w i ∧ s.lock = some i ∧ Available s.invite ∧
      getMember s.members claim.member.spaceId claim.member.did = none
  | .joined member => member.spaceId = w.terms.spaceId
  | .refused _ | .claimFailed _ | .unacknowledged _ _ | .unread _ _ | .accepted _ _ => True

def Accept.holds : Accept → Bool
  | .taken _ _ | .inserted _ _ => true
  | _ => false

section Accepts

variable {s t : State} {i : Nat} {accept : Accept}

theorem Accept.Sound.locked (sound : accept.Sound w s i) (holds : accept.holds = true) :
    s.lock = some i := by
  cases accept with
  | taken claim attempt => exact sound.2.1
  | inserted claim attempt => exact sound.2.1
  | _ => cases holds

theorem Accept.Sound.transfer (sound : accept.Sound w s i)
    (held : accept.holds = true → t.lock = some i ∧ t.invite = s.invite ∧ t.members = s.members) :
    accept.Sound w t i := by
  cases accept with
  | taken claim attempt =>
    obtain ⟨lock, invite, -⟩ := held rfl
    exact ⟨sound.1, lock, invite ▸ sound.2.2⟩
  | inserted claim attempt =>
    obtain ⟨lock, invite, members⟩ := held rfl
    exact ⟨sound.1, lock, invite ▸ members ▸ sound.2.2⟩
  | _ => exact sound

end Accepts

/-! ## The books -/

def Reported (w : Setting) : Action → Prop
  | .commitLost _ _ | .readSpaceFails _ _ => False
  | .readSpace _ => ∃ space, Tables.getSpace ⟨w.spaces, []⟩ w.terms.spaceId = .ok (some space)
  | _ => True

def Action.isLost : Action → Bool
  | .commitLost _ _ => true
  | _ => false

def Accept.isLost : Accept → Bool
  | .unacknowledged _ _ => true
  | _ => false

/-- After `actions`, the accepts have inserted `rows`. -/
structure Books (w : Setting) (actions : List Action) (s : State) (rows : List InvitedMember) :
    Prop where
  members : s.members = w.members ++ rows
  terms : s.invite.toInviteTerms = w.terms
  uses : s.invite.uses = rows.length
  limit : ∀ max, w.terms.maxUses = some max → 0 ≤ max → s.invite.uses ≤ max
  ids : (rows.map (·.id)).Nodup
  dids : (rows.map (·.did)).Nodup
  new : ∀ row ∈ rows, row.spaceId = w.terms.spaceId ∧
    getMember w.members row.spaceId row.did = none
  joined : ∀ i, i ∈ rows.map (·.id) ↔
    ∃ accept, s.accepts.lookup i = some accept ∧ accept.hasJoined = true
  accepts : ∀ i accept, s.accepts.lookup i = some accept → accept.Sound w s i
  misreported : (∃ i accept, s.accepts.lookup i = some accept ∧ accept.misreported = true) ↔
    ∃ a ∈ actions, ¬ Reported w a
  lost : (∃ i accept, s.accepts.lookup i = some accept ∧ accept.isLost = true) ↔
    ∃ a ∈ actions, a.isLost = true

section Books

variable {actions : List Action} {s t : State} {rows : List InvitedMember} {a : Action} {i : Nat}
  {accept : Accept}

/-- A mark that the old value of the key does not have is had after an insertion by those that
had it before, and by the new value if it has it. -/
theorem marked_insert {mark : Accept → Bool} {accepts : AList fun _ : Nat => Accept}
    (before : ∀ old, accepts.lookup i = some old → mark old = false) :
    (∃ j found, (accepts.insert i accept).lookup j = some found ∧ mark found = true) ↔
      (∃ j found, accepts.lookup j = some found ∧ mark found = true) ∨ mark accept = true := by
  constructor
  · rintro ⟨j, found, held, marked⟩
    rcases lookup_insert_cases held with ⟨-, rfl⟩ | old
    · exact .inr marked
    · exact .inl ⟨j, found, old, marked⟩
  · rintro (⟨j, found, held, marked⟩ | marked)
    · have other : j ≠ i := by
        rintro rfl
        simp [before found held] at marked
      exact ⟨j, found, by rwa [AList.lookup_insert_ne other], marked⟩
    · exact ⟨i, accept, AList.lookup_insert _, marked⟩

theorem marks_step {mark : Accept → Bool} {p : Action → Prop}
    (books : (∃ j found, s.accepts.lookup j = some found ∧ mark found = true) ↔ ∃ b ∈ actions, p b)
    (accepts : t.accepts = s.accepts.insert i accept)
    (before : ∀ old, s.accepts.lookup i = some old → mark old = false)
    (now : mark accept = true ↔ p a) :
    (∃ j found, t.accepts.lookup j = some found ∧ mark found = true) ↔
      ∃ b ∈ actions ++ [a], p b := by
  rw [accepts, marked_insert before, books, now]
  simp [or_and_right, exists_or]

theorem Books.move (books : Books w actions s rows) (members : t.members = s.members)
    (invite : t.invite = s.invite) (accepts : t.accepts = s.accepts.insert i accept)
    (lock : ∀ j, j ≠ i → s.lock = some j → t.lock = some j)
    (before : ∀ old, s.accepts.lookup i = some old → old.misreported = false)
    (joined : (s.accepts.lookup i).any Accept.hasJoined = accept.hasJoined)
    (sound : accept.Sound w t i) (reported : accept.misreported = true ↔ ¬ Reported w a)
    (lost : accept.isLost = false ∧ a.isLost = false) :
    Books w (actions ++ [a]) t rows where
  members := members.trans books.members
  terms := invite ▸ books.terms
  uses := invite ▸ books.uses
  limit := invite ▸ books.limit
  ids := books.ids
  dids := books.dids
  new := books.new
  joined j := by
    rw [books.joined, accepts]
    by_cases same : j = i
    · subst same
      rw [← Option.any_eq_true, joined]
      simp
    · rw [AList.lookup_insert_ne same]
  accepts j other held := by
    rw [accepts] at held
    by_cases same : j = i
    · subst same
      rw [AList.lookup_insert] at held
      cases held
      exact sound
    · rw [AList.lookup_insert_ne same] at held
      have known := books.accepts j other held
      exact known.transfer fun holds => ⟨lock j same (known.locked holds), invite, members⟩
  misreported := marks_step books.misreported accepts before reported
  lost := by
    refine marks_step books.lost accepts (fun old held => ?_) (by simp [lost])
    have := before old held
    cases old <;> simp_all [Accept.misreported, Accept.isLost]

theorem Books.append_nil (books : Books w actions s rows) : Books w actions s (rows ++ []) := by
  rwa [List.append_nil]

theorem Books.quiet (books : Books w actions s rows) (members : t.members = s.members)
    (invite : t.invite = s.invite) (accepts : t.accepts = s.accepts.insert i accept)
    (lock : ∀ j, j ≠ i → s.lock = some j → t.lock = some j)
    (unjoined : (s.accepts.lookup i).any Accept.hasJoined = false)
    (after : accept.hasJoined = false) (sound : accept.Sound w t i) (reported : Reported w a)
    (kept : a.isLost = false) : ∃ more, Books w (actions ++ [a]) t (rows ++ more) := by
  have unmarked (other : Accept) (h : other.hasJoined = false) :
      other.misreported = false ∧ other.isLost = false := by
    cases other <;> simp_all [Accept.hasJoined, Accept.misreported, Accept.isLost]
  refine ⟨[], books.append_nil.move members invite accepts lock (fun old held => ?_)
    (unjoined.trans after.symm) sound (by simp [unmarked accept after, reported])
    ⟨(unmarked accept after).2, kept⟩⟩
  rw [held] at unjoined
  exact (unmarked old unjoined).1

theorem getMember_eq_none {members : List InvitedMember} {spaceId did : String} :
    getMember members spaceId did = none ↔
      ∀ member ∈ members, member.spaceId = spaceId → member.did ≠ did := by
  simp [getMember]

theorem Books.join {claim : Claim} {attempt : Nat} (books : Books w actions s rows)
    (held : s.accepts.lookup i = some (.inserted claim attempt))
    (members : t.members = s.members ++ [claim.member])
    (invite : t.invite = { s.invite with uses := s.invite.uses + 1 })
    (accepts : t.accepts = s.accepts.insert i accept) (joined : accept.hasJoined = true)
    (sound : accept.Sound w t i) (reported : accept.misreported = true ↔ ¬ Reported w a)
    (lost : accept.isLost = true ↔ a.isLost = true) :
    Books w (actions ++ [a]) t (rows ++ [claim.member]) := by
  obtain ⟨⟨-, id, spaceId⟩, lock, ⟨-, room⟩, absent⟩ := books.accepts i _ held
  rw [books.members, getMember_eq_none, List.forall_mem_append] at absent
  have unjoined : i ∉ rows.map (·.id) := by
    rw [books.joined]
    rintro ⟨other, held', joined⟩
    rw [held] at held'
    cases held'
    cases joined
  refine ⟨by rw [members, books.members, List.append_assoc], by rw [invite]; exact books.terms,
    ?_, fun max isMax _ => ?_, ?_, ?_, ?_, fun j => ?_, fun j other held' => ?_,
    marks_step books.misreported accepts ?_ reported, marks_step books.lost accepts ?_ lost⟩
  · simp [invite, books.uses]
  · have below : s.invite.maxUses = some max := by rw [books.terms, isMax]
    rw [below] at room
    have := of_decide_eq_true room
    rw [invite]
    show s.invite.uses + 1 ≤ max
    omega
  · rw [List.map_append, List.nodup_append]
    exact ⟨books.ids, by simp, by simpa [id] using unjoined⟩
  · rw [List.map_append, List.nodup_append]
    refine ⟨books.dids, by simp, ?_⟩
    simp only [List.mem_map, List.map_cons, List.map_nil, List.mem_singleton]
    rintro did ⟨row, mem, rfl⟩ other rfl
    exact absent.2 row mem ((books.new row mem).1.trans spaceId.symm)
  · rw [List.forall_mem_append]
    refine ⟨books.new, ?_⟩
    simpa [spaceId] using getMember_eq_none.mpr absent.1
  · rw [List.map_append, List.mem_append, books.joined, accepts]
    by_cases same : j = i
    · subst same
      simp [id, joined]
    · simp [AList.lookup_insert_ne same, id, same]
  · rw [accepts] at held'
    by_cases same : j = i
    · subst same
      rw [AList.lookup_insert] at held'
      cases held'
      exact sound
    · rw [AList.lookup_insert_ne same] at held'
      have known := books.accepts j other held'
      refine known.transfer fun holds => ?_
      exact absurd (Option.some.inj ((known.locked holds).symm.trans lock)) same
  all_goals
    intro old held'
    rw [held] at held'
    cases held'
    rfl

end Books

section Step

variable {actions : List Action} {s t : State} {rows : List InvitedMember} {a : Action} {i : Nat}

theorem Books.revoke {spaceId id : String} (books : Books w actions s rows) (free : s.lock = none) :
    Books w (actions ++ [.revoke spaceId id])
      { s with invite := revokeInvite s.invite spaceId id } rows := by
  have kept : (revokeInvite s.invite spaceId id).toInviteTerms = s.invite.toInviteTerms ∧
      (revokeInvite s.invite spaceId id).uses = s.invite.uses := by
    unfold revokeInvite
    split <;> exact ⟨rfl, rfl⟩
  refine { books with
    terms := kept.1.trans books.terms
    uses := kept.2.trans books.uses
    limit := fun max isMax nonneg => kept.2.trans_le (books.limit max isMax nonneg)
    accepts := fun i accept held => ?_
    misreported := ?_
    lost := ?_ }
  · have known := books.accepts i accept held
    refine known.transfer fun holds => ?_
    have := known.locked holds
    rw [free] at this
    cases this
  · rw [books.misreported]
    simp [Reported]
  · rw [books.lost]
    simp [Action.isLost]

theorem release_other {j : Nat} (other : j ≠ i) (held : s.lock = some j) :
    (s.release i).lock = some j := by
  simp [State.release, held, other]

theorem takeUse_eq_some {invite after : SpaceInvite} {id : String}
    (taken : takeUse invite id = some after) : Available invite := by
  unfold takeUse at taken
  split at taken
  · rename_i open'
    exact open'.2
  · cases taken

theorem insertMember_eq_some {members after : List InvitedMember} {member : InvitedMember}
    (inserted : insertMember members member = some after) :
    getMember members member.spaceId member.did = none := by
  unfold insertMember at inserted
  split at inserted
  · cases inserted
  · rename_i absent
    simpa using absent

theorem readSpace_eq_ok {member : InvitedMember} (known : member.spaceId = w.terms.spaceId) :
    (∃ answer, w.readSpace member = .ok answer) ↔ Reported w (.readSpace i) := by
  unfold Setting.readSpace
  simp only [bind_eq_ok, require_eq_ok, Reported, known]
  constructor
  · rintro ⟨answer, found, read, space, rfl, -⟩
    exact ⟨space, read⟩
  · rintro ⟨space, read⟩
    exact ⟨_, _, read, space, rfl, rfl⟩

section Quiet

variable {accept : Accept} (books : Books w actions s rows)
  (unjoined : (s.accepts.lookup i).any Accept.hasJoined = false) (after : accept.hasJoined = false)
  (reported : Reported w a) (kept : a.isLost = false)

include books unjoined after reported kept

theorem Books.put (sound : accept.Sound w (s.put i accept) i) :
    ∃ more, Books w (actions ++ [a]) (s.put i accept) (rows ++ more) :=
  books.quiet rfl rfl rfl (fun _ _ held => held) unjoined after sound reported kept

theorem Books.release (sound : accept.Sound w ((s.put i accept).release i) i) :
    ∃ more, Books w (actions ++ [a]) ((s.put i accept).release i) (rows ++ more) :=
  books.quiet rfl rfl rfl (fun _ => release_other) unjoined after sound reported kept

end Quiet

theorem afterBusy_sound {claim : Claim} (sound : claim.Sound w i) (attempt : Nat)
    (message : String) : (afterBusy claim attempt message).hasJoined = false ∧
      (afterBusy claim attempt message).Sound w s i := by
  unfold afterBusy
  split
  · exact ⟨rfl, sound⟩
  · exact ⟨rfl, trivial⟩

section Actions

variable (books : Books w actions s rows)

include books

theorem Books.lookup {did token now} (stepped : step w s (.lookup i did token now) = some t) :
    ∃ more, Books w (actions ++ [.lookup i did token now]) t (rows ++ more) := by
  obtain ⟨new, stepped⟩ := Option.ite_none_left_eq_some.mp stepped
  have absent : s.accepts.lookup i = none := AList.lookup_eq_none.mpr new
  split at stepped
  · cases stepped
    exact books.put (by rw [absent]; rfl) rfl trivial rfl books.terms
  · cases stepped
    exact books.put (by rw [absent]; rfl) rfl trivial rfl trivial

theorem Books.lookupFails {message} (stepped : step w s (.lookupFails i message) = some t) :
    ∃ more, Books w (actions ++ [.lookupFails i message]) t (rows ++ more) := by
  obtain ⟨new, ⟨⟩⟩ := Option.ite_none_left_eq_some.mp stepped
  have absent : s.accepts.lookup i = none := AList.lookup_eq_none.mpr new
  exact books.put (by rw [absent]; rfl) rfl trivial rfl trivial

theorem Books.readMember {createdAt} (stepped : step w s (.readMember i createdAt) = some t) :
    ∃ more, Books w (actions ++ [.readMember i createdAt]) t (rows ++ more) := by
  simp only [step] at stepped
  split at stepped
  · rename_i did invite held
    have terms : invite.toInviteTerms = w.terms := books.accepts i _ held
    split at stepped
    all_goals
      cases stepped
      refine books.put (by rw [held]; rfl) rfl trivial rfl ?_
    · trivial
    · exact ⟨by rw [← terms], rfl, by rw [← terms]; rfl⟩
  · cases stepped

theorem Books.begin (stepped : step w s (.begin i) = some t) :
    ∃ more, Books w (actions ++ [.begin i]) t (rows ++ more) := by
  simp only [step] at stepped
  split at stepped
  · rename_i claim attempt held
    have sound : claim.Sound w i := books.accepts i _ held
    split at stepped
    · obtain ⟨free, ⟨⟩⟩ := Option.ite_none_right_eq_some.mp stepped
      exact books.quiet rfl rfl rfl (by simp [free]) (by rw [held]; rfl) rfl sound trivial rfl
    · cases stepped
      exact books.put (by rw [held]; rfl) rfl trivial rfl sound
  · cases stepped

theorem Books.takeUse (stepped : step w s (.takeUse i) = some t) :
    ∃ more, Books w (actions ++ [.takeUse i]) t (rows ++ more) := by
  simp only [step] at stepped
  split at stepped
  · rename_i claim attempt held
    have sound : claim.Sound w i := books.accepts i _ held
    obtain ⟨free, stepped⟩ := Option.ite_none_right_eq_some.mp stepped
    split at stepped
    · rename_i taken
      cases stepped
      exact books.quiet rfl rfl rfl (by grind) (by rw [held]; rfl) rfl
        ⟨sound, rfl, takeUse_eq_some taken⟩ trivial rfl
    · cases stepped
      exact books.release (by rw [held]; rfl) rfl trivial rfl trivial
  · cases stepped

theorem Books.insertMember (stepped : step w s (.insertMember i) = some t) :
    ∃ more, Books w (actions ++ [.insertMember i]) t (rows ++ more) := by
  simp only [step] at stepped
  split at stepped
  · rename_i claim attempt held
    obtain ⟨sound, lock, available⟩ := books.accepts i _ held
    split at stepped
    · rename_i inserted
      cases stepped
      exact books.put (by rw [held]; rfl) rfl trivial rfl
        ⟨sound, lock, available, insertMember_eq_some inserted⟩
    · cases stepped
      exact books.release (by rw [held]; rfl) rfl trivial rfl trivial
  · cases stepped

theorem Books.commit (stepped : step w s (.commit i) = some t) :
    ∃ more, Books w (actions ++ [.commit i]) t (rows ++ more) := by
  simp only [step] at stepped
  split at stepped
  · rename_i claim attempt held
    cases stepped
    exact ⟨_, books.join held rfl rfl rfl rfl (books.accepts i _ held).1.2.2
      (by simp [Accept.misreported, Reported]) (by simp [Accept.isLost, Action.isLost])⟩
  · cases stepped

theorem Books.commitLost {message} (stepped : step w s (.commitLost i message) = some t) :
    ∃ more, Books w (actions ++ [.commitLost i message]) t (rows ++ more) := by
  simp only [step] at stepped
  split at stepped
  · rename_i claim attempt held
    cases stepped
    exact ⟨_, books.join held rfl rfl rfl rfl trivial (by simp [Accept.misreported, Reported])
      (by simp [Accept.isLost, Action.isLost])⟩
  · cases stepped

theorem Books.busy {message} (stepped : step w s (.busy i message) = some t) :
    ∃ more, Books w (actions ++ [.busy i message]) t (rows ++ more) := by
  simp only [step] at stepped
  split at stepped
  iterate 2
    rename_i claim attempt held
    cases stepped
    have sound : claim.Sound w i := books.accepts i _ held
    obtain ⟨after, sound⟩ := afterBusy_sound sound attempt message
    exact books.release (by rw [held]; rfl) after trivial rfl sound
  iterate 2
    rename_i claim attempt held
    cases stepped
    have sound : claim.Sound w i := (books.accepts i _ held).1
    obtain ⟨after, sound⟩ := afterBusy_sound sound attempt message
    exact books.release (by rw [held]; rfl) after trivial rfl sound
  · cases stepped

theorem Books.fails {message} (stepped : step w s (.fails i message) = some t) :
    ∃ more, Books w (actions ++ [.fails i message]) t (rows ++ more) := by
  simp only [step] at stepped
  split at stepped
  · rename_i held
    cases stepped
    exact books.put (by rw [held]; rfl) rfl trivial rfl trivial
  iterate 4
    rename_i held
    cases stepped
    exact books.release (by rw [held]; rfl) rfl trivial rfl trivial
  · cases stepped

theorem Books.readSpace (stepped : step w s (.readSpace i) = some t) :
    ∃ more, Books w (actions ++ [.readSpace i]) t (rows ++ more) := by
  simp only [step] at stepped
  split at stepped
  · rename_i member held
    have known : member.spaceId = w.terms.spaceId := books.accepts i _ held
    split at stepped
    all_goals
      rename_i read
      cases stepped
      refine ⟨[], books.append_nil.move rfl rfl rfl (fun _ _ h => h)
        (by simp [held, Accept.misreported]) (by rw [held]; rfl) trivial ?_ ⟨rfl, rfl⟩⟩
      simp [Accept.misreported, ← readSpace_eq_ok known, read]
  · cases stepped

theorem Books.readSpaceFails {message} (stepped : step w s (.readSpaceFails i message) = some t) :
    ∃ more, Books w (actions ++ [.readSpaceFails i message]) t (rows ++ more) := by
  simp only [step] at stepped
  split at stepped
  · rename_i member held
    cases stepped
    refine ⟨[], books.append_nil.move rfl rfl rfl (fun _ _ h => h)
      (by simp [held, Accept.misreported]) (by rw [held]; rfl) trivial
      (by simp [Accept.misreported, Reported]) ⟨rfl, rfl⟩⟩
  · cases stepped

end Actions

theorem step_books (books : Books w actions s rows) (stepped : step w s a = some t) :
    ∃ more, Books w (actions ++ [a]) t (rows ++ more) := by
  cases a with
  | lookup => exact books.lookup stepped
  | lookupFails => exact books.lookupFails stepped
  | readMember => exact books.readMember stepped
  | begin => exact books.begin stepped
  | takeUse => exact books.takeUse stepped
  | insertMember => exact books.insertMember stepped
  | commit => exact books.commit stepped
  | commitLost => exact books.commitLost stepped
  | busy => exact books.busy stepped
  | fails => exact books.fails stepped
  | readSpace => exact books.readSpace stepped
  | readSpaceFails => exact books.readSpaceFails stepped
  | revoke =>
    obtain ⟨free, ⟨⟩⟩ := Option.ite_none_right_eq_some.mp stepped
    exact ⟨[], books.append_nil.revoke free⟩

end Step

theorem run_books {actions : List Action} {s : State} (run : (desk w).run actions = some s) :
    ∃ rows, Books w actions s rows := by
  refine Machine.induct (P := fun actions s => ∃ rows, Books w actions s rows) ?_ ?_ run
  · refine ⟨[], by simp [desk], rfl, rfl, fun max _ nonneg => nonneg, by simp, by simp, by simp, ?_,
      ?_, ?_, ?_⟩
    all_goals simp [desk]
  · rintro actions s a t ⟨rows, books⟩ stepped
    obtain ⟨more, books⟩ := step_books books stepped
    exact ⟨_, books⟩

/-! ## After the revocation -/

theorem step_invite {s t : State} {a : Action} (stepped : step w s a = some t) :
    t.invite = s.invite ∨
    (∃ i claim attempt, s.accepts.lookup i = some (.inserted claim attempt) ∧
      t.invite = { s.invite with uses := s.invite.uses + 1 }) ∨
    ∃ spaceId id, t.invite = revokeInvite s.invite spaceId id := by
  cases a <;> simp only [step] at stepped <;> grind [State.put, State.release, State.join]

theorem uses_of_revoked {before after : List Action} {u s : State}
    (run : (desk w).run before = some u) (rest : (desk w).runFrom u after = some s)
    (revoked : u.invite.revoked = true) :
    s.invite.revoked = true ∧ s.invite.uses = u.invite.uses := by
  induction after using List.reverseRecOn generalizing s with
  | nil =>
    cases rest
    exact ⟨revoked, rfl⟩
  | append_singleton after a ih =>
    obtain ⟨m, rest, last⟩ := Machine.runFrom_append.mp rest
    obtain ⟨revoked', uses⟩ := ih rest
    obtain ⟨t, stepped, done⟩ := Machine.runFrom_cons.mp last
    cases done
    rw [← uses]
    rcases step_invite stepped with same | ⟨i, claim, attempt, held, -⟩ | ⟨spaceId, id, same⟩
    · rw [same]
      exact ⟨revoked', rfl⟩
    · -- Whoever is about to commit has found the invite available, and holds it since.
      obtain ⟨rows, books⟩ := run_books (Machine.runFrom_append.mpr ⟨u, run, rest⟩)
      obtain ⟨-, -, ⟨available, -⟩, -⟩ := books.accepts i _ held
      rw [revoked'] at available
      cases available
    · rw [same]
      unfold revokeInvite
      split
      · exact ⟨rfl, rfl⟩
      · exact ⟨revoked', rfl⟩

/-! ## Accounts -/

def State.successes (s : State) : Nat :=
  (s.accepts.keys.filter fun i => (s.accepts.lookup i).any Accept.isAccepted).length

/-- No accept is between its commit and its answer. -/
def State.Settled (s : State) : Prop :=
  ∀ i member, s.accepts.lookup i ≠ some (.joined member)

def WithinLimit (invite : SpaceInvite) : Prop :=
  ∀ max, invite.maxUses = some max → invite.uses ≤ max

section Accounts

variable {actions : List Action} {s : State} {rows : List InvitedMember}

theorem mem_successes {i : Nat} :
    i ∈ s.accepts.keys.filter (fun i => (s.accepts.lookup i).any Accept.isAccepted) ↔
      ∃ accept, s.accepts.lookup i = some accept ∧ accept.isAccepted = true := by
  rw [List.mem_filter, Option.any_eq_true]
  constructor
  · exact fun h => h.2
  · rintro ⟨accept, held, accepted⟩
    exact ⟨AList.mem_keys.mp (AList.lookup_isSome.mp (by simp [held])), accept, held, accepted⟩

theorem Books.uses_eq_successes (books : Books w actions s rows) (settled : s.Settled) :
    s.invite.uses = s.successes ↔ ∀ a ∈ actions, Reported w a := by
  set succeeded := s.accepts.keys.filter fun i => (s.accepts.lookup i).any Accept.isAccepted
    with isSucceeded
  have nodup : succeeded.Nodup := s.accepts.keys_nodup.filter _
  have subset : succeeded ⊆ rows.map (·.id) := by
    intro i mem
    obtain ⟨accept, held, accepted⟩ := mem_successes.mp mem
    refine (books.joined i).mpr ⟨accept, held, ?_⟩
    cases accept <;> simp_all [Accept.isAccepted, Accept.hasJoined]
  have reported : (∀ a ∈ actions, Reported w a) ↔ rows.map (·.id) ⊆ succeeded := by
    have none_bad := not_congr books.misreported
    push Not at none_bad
    rw [← none_bad]
    constructor
    · intro good i mem
      obtain ⟨accept, held, joined⟩ := (books.joined i).mp mem
      have fine := good i accept held
      refine mem_successes.mpr ⟨accept, held, ?_⟩
      cases accept with
      | joined member => exact absurd held (settled i member)
      | accepted member answer => rfl
      | _ => simp_all [Accept.hasJoined, Accept.misreported]
    · intro all i accept held bad
      have joined : accept.hasJoined = true := by
        cases accept <;> simp_all [Accept.hasJoined, Accept.misreported]
      obtain ⟨other, held', accepted⟩ :=
        mem_successes.mp (all ((books.joined i).mpr ⟨accept, held, joined⟩))
      rw [held] at held'
      cases held'
      cases accept <;> simp_all [Accept.isAccepted, Accept.misreported]
  rw [reported, books.uses, ← List.length_map (·.id), State.successes, Nat.cast_inj]
  constructor
  · intro same
    exact ((List.subperm_of_subset nodup subset).perm_of_length_le same.le).symm.subset
  · intro all
    exact ((List.perm_ext_iff_of_nodup books.ids nodup).mpr fun i => ⟨@all i, @subset i⟩).length_eq

theorem Books.withinLimit (books : Books w actions s rows) :
    WithinLimit s.invite ↔ ∀ max, w.terms.maxUses = some max → 0 ≤ max := by
  have maxUses : s.invite.maxUses = w.terms.maxUses := by rw [books.terms]
  rw [WithinLimit, maxUses]
  constructor
  · intro within max isMax
    have := within max isMax
    have := books.uses
    omega
  · exact fun nonneg max isMax => books.limit max isMax (nonneg max isMax)

theorem Books.claimError_iff (books : Books w actions s rows) :
    (∀ i accept, s.accepts.lookup i = some accept → accept.claimError = true →
      i ∉ rows.map (·.id)) ↔ ∀ a ∈ actions, a.isLost = false := by
  have none_lost := not_congr books.lost
  push Not at none_lost
  simp only [ne_eq, Bool.not_eq_true] at none_lost
  rw [← none_lost]
  constructor
  · intro unjoined i accept held
    by_contra lost
    refine unjoined i accept held ?_ ((books.joined i).mpr ⟨accept, held, ?_⟩)
    all_goals cases accept <;> simp_all [Accept.isLost, Accept.claimError, Accept.hasJoined]
  · intro kept i accept held failed mem
    obtain ⟨other, held', joined⟩ := (books.joined i).mp mem
    rw [held] at held'
    cases held'
    have := kept i accept held
    cases accept <;> simp_all [Accept.isLost, Accept.claimError, Accept.hasJoined]

theorem Books.count_accepted (books : Books w actions s rows) {i : Nat} {accept : Accept}
    (held : s.accepts.lookup i = some accept) (accepted : accept.isAccepted = true) :
    (rows.map (·.id)).count i = 1 := by
  refine List.count_eq_one_of_mem books.ids ((books.joined i).mpr ⟨accept, held, ?_⟩)
  cases accept <;> simp_all [Accept.isAccepted, Accept.hasJoined]

end Accounts

/-- After any run of accepts and revocations the accepts have inserted `rows`, each of a DID that
was no member, and as many as there are uses. The uses are within the limit exactly if the limit is
not negative. When no accept is between its commit and its answer, they are as many as the accepts
that returned success exactly if every accept that joined could read its space and heard of its
commit. An accept that returned success has inserted one of the rows. Those that returned an error
from the claim have inserted none, exactly if no commit that took effect was reported to have
failed. After the revocation no use is taken. -/
theorem invite_accounting {w : Setting} {actions : List Action} {s : State}
    (run : (desk w).run actions = some s) :
    ∃ rows, s.members = w.members ++ rows ∧ s.invite.uses = rows.length ∧
      (rows.map (·.did)).Nodup ∧
      (∀ row ∈ rows, row.spaceId = w.terms.spaceId ∧
        getMember w.members row.spaceId row.did = none) ∧
      (WithinLimit s.invite ↔ ∀ max, w.terms.maxUses = some max → 0 ≤ max) ∧
      (s.Settled → (s.invite.uses = s.successes ↔ ∀ a ∈ actions, Reported w a)) ∧
      (∀ i accept, s.accepts.lookup i = some accept → accept.isAccepted = true →
        (rows.map (·.id)).count i = 1) ∧
      ((∀ i accept, s.accepts.lookup i = some accept → accept.claimError = true →
        i ∉ rows.map (·.id)) ↔ ∀ a ∈ actions, a.isLost = false) ∧
      ∀ before after u, actions = before ++ after → (desk w).run before = some u →
        u.invite.revoked = true → s.invite.uses = u.invite.uses := by
  obtain ⟨rows, books⟩ := run_books run
  refine ⟨rows, books.members, books.uses, books.dids, books.new, books.withinLimit,
    books.uses_eq_successes, fun i accept held => books.count_accepted held, books.claimError_iff,
    ?_⟩
  rintro before after u rfl reached revoked
  obtain ⟨v, reached', rest⟩ := Machine.runFrom_append.mp run
  rw [Machine.run] at reached
  rw [reached] at reached'
  cases reached'
  exact (uses_of_revoked reached rest revoked).2

/-! An invite to a forum with one use. -/

def forumTerms : InviteTerms where
  id := "invite"
  spaceId := "forum"
  tokenHash := "token"
  createdBy := "did:plc:owner"
  access := ⟨true, false, false⟩
  maxUses := some 1
  expiresAt := none

def forum (invalid : Option String) : Setting where
  backend := .postgres
  sha256 := id
  parseRfc3339 := fun _ => none
  spaces := [⟨"forum", "did:plc:owner", "com.example.forum", "main", invalid⟩]
  terms := forumTerms
  members := []

def lastUse : List Action :=
  [.lookup 0 "did:plc:a" "token" 0, .lookup 1 "did:plc:b" "token" 0, .readMember 0 "", .begin 0,
    .readMember 1 "", .begin 1, .takeUse 1, .insertMember 1, .commit 1, .takeUse 0, .readSpace 1,
    .revoke "forum" "invite"]

theorem invite_accounting_lastUse : ∃ s, (desk (forum none)).run lastUse = some s ∧
    WithinLimit s.invite ∧ s.invite.uses = s.successes ∧ s.successes = 1 := by
  obtain ⟨s, run, checked⟩ := (Option.any_eq_true _ _).mp (by decide +kernel :
    ((desk (forum none)).run lastUse).any (fun s => s.successes = 1 ∧
      s.accepts.keys = [1, 0] ∧ (s.accepts.lookup 0).any Accept.claimError ∧
      (s.accepts.lookup 1).any Accept.isAccepted) = true)
  obtain ⟨one, keys, failed, accepted⟩ := of_decide_eq_true checked
  obtain ⟨rows, -, -, -, -, limit, count, -⟩ := invite_accounting run
  refine ⟨s, run, limit.mpr ?_, (count ?_).mpr ?_, one⟩
  · rintro max same
    cases same
    decide
  · intro i member held
    have known : i ∈ s.accepts.keys :=
      AList.mem_keys.mp (AList.lookup_isSome.mp (by simp [held]))
    rw [keys] at known
    rcases List.mem_pair.mp known with rfl | rfl
    · simp [held, Accept.isAccepted] at accepted
    · simp [held, Accept.claimError] at failed
  · simp [lastUse, Reported, Tables.getSpace, forum, forumTerms, parseSpaceRow]

/-- The space's row does not parse. The accept joins, takes a use and returns an error. -/
theorem invite_unread : ∃ s e member, (desk (forum (some "invalid config"))).run
      [.lookup 0 "did:plc:a" "token" 0, .readMember 0 "", .begin 0, .takeUse 0, .insertMember 0,
        .commit 0, .readSpace 0] = some s ∧
    s.accepts.lookup 0 = some (.unread member e) ∧ s.members = [member] ∧
    s.invite.uses = 1 ∧ s.successes = 0 := by
  refine ⟨_, .internal "invalid config", _, rfl, rfl, rfl, rfl, ?_⟩
  decide

end HappyView.Spaces.Invites
