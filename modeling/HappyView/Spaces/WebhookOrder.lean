import HappyView.Spaces.Oplog
import HappyView.Spaces.WebhookDelivery

/-!
# The order in which webhooks hear of writes

A write call commits its transaction, which holds the space's write lock, and then announces what
it has written to the space's webhooks. The lock is gone by then, so between the two a later
write may commit and be announced.
-/

namespace HappyView.Spaces.Webhooks

open HappyView.Foundation

structure WebhookWrite where
  collection : String
  rkey : String
  cid : Option String
  deriving DecidableEq

structure WebhookBatch where
  authorDid : String
  writes : List WebhookWrite
  deriving DecidableEq

/-! ## Write calls -/

inductive CallPhase where
  | writing
  | committed
  | announced
  | abandoned
  deriving DecidableEq

/-- A `createRecord`, `putRecord`, `deleteRecord` or `applyWrites` call that writes `ops`. -/
structure Call where
  authorDid : String
  ops : List AppliedOp
  phase : CallPhase
  deriving DecidableEq

def Call.writes (call : Call) : List WebhookWrite :=
  call.ops.map fun op => ⟨op.collection, op.rkey, op.newCid⟩

structure Desk where
  holder : Option Nat := none
  calls : AList fun _ : Nat => Call := ∅
  /-- The calls whose transactions committed, in the order in which they did. -/
  commits : List Nat := []
  hub : Hub (Nat × WebhookBatch) := {}

inductive DeskAction where
  | begin (i : Nat) (authorDid : String) (ops : List AppliedOp)
  | rollback (i : Nat)
  | commit (i : Nat)
  /-- `notify_ops` -/
  | announce (i : Nat)
  | abandon (i : Nat)
  | work (a : Action (Nat × WebhookBatch))
  deriving DecidableEq

namespace Desk

def setPhase (d : Desk) (i : Nat) (call : Call) (phase : CallPhase) : Desk :=
  { d with calls := d.calls.insert i { call with phase } }

/-- `announce_writes`, which returns at once if there are no writes. -/
def announceWrites (d : Desk) (spaceId : String) (i : Nat) (call : Call) :
    Hub (Nat × WebhookBatch) :=
  if call.writes.isEmpty then d.hub
  else d.hub.announce spaceId (i, ⟨call.authorDid, call.writes⟩)

def step (spaceId : String) (d : Desk) : DeskAction → Option Desk
  | .begin i authorDid ops =>
    if i ∈ d.calls ∨ d.holder.isSome then none
    else some { d.setPhase i ⟨authorDid, ops, .writing⟩ .writing with holder := some i }
  | .rollback i => match d.calls.lookup i with
    | some ⟨_, _, .writing⟩ => some { d with calls := d.calls.erase i, holder := none }
    | _ => none
  | .commit i => match d.calls.lookup i with
    | some ⟨authorDid, ops, .writing⟩ => some
        { d.setPhase i ⟨authorDid, ops, .writing⟩ .committed with
          holder := none
          commits := d.commits ++ [i] }
    | _ => none
  | .announce i => match d.calls.lookup i with
    | some ⟨authorDid, ops, .committed⟩ => some
        { d.setPhase i ⟨authorDid, ops, .committed⟩ .announced with
          hub := d.announceWrites spaceId i ⟨authorDid, ops, .committed⟩ }
    | _ => none
  | .abandon i => match d.calls.lookup i with
    | some ⟨authorDid, ops, .committed⟩ =>
      some (d.setPhase i ⟨authorDid, ops, .committed⟩ .abandoned)
    | _ => none
  | .work a => match a with
    | .announce _ _ => none
    | a => (Webhooks.step d.hub a).map fun hub => { d with hub }

end Desk

def desk (spaceId : String) : Machine Desk DeskAction where
  start := {}
  step := Desk.step spaceId

/-! ## What announcements leave in the hub -/

def Hub.refused {β : Type} (h : Hub β) : List (String × β) := h.dropped ++ h.lost

section Hub

variable {β : Type} {h : Hub β}

theorem entry_same (spaceId : String) :
    (h.entry spaceId).2.sent = h.sent ∧ (h.entry spaceId).2.refused = h.refused := by
  unfold Hub.entry
  split
  · exact ⟨rfl, rfl⟩
  · exact ⟨rfl, rfl⟩

theorem announceTries_cases (spaceId : String) (batch : β) (tries : Nat) (h : Hub β) :
    (h.announceTries spaceId batch tries).sent = h.sent ++ [(spaceId, batch)] ∧
        (h.announceTries spaceId batch tries).refused = h.refused ∨
      (h.announceTries spaceId batch tries).sent = h.sent ∧
        (h.announceTries spaceId batch tries).refused ≠ [] := by
  induction tries generalizing h with
  | zero => exact .inr ⟨rfl, by simp [Hub.announceTries, Hub.refused]⟩
  | succ tries ih =>
    obtain ⟨sent, refused⟩ := entry_same (h := h) spaceId
    unfold Hub.announceTries
    generalize h.entry spaceId = entry at *
    obtain ⟨w, h₁⟩ := entry
    dsimp only at *
    unfold Hub.trySend
    cases h₁.workers.lookup w with
    | none =>
      dsimp only
      rw [← sent, ← refused]
      exact ih _
    | some worker =>
      dsimp only
      by_cases stopped : worker.phase.isStopped
      · simp only [stopped, if_true]
        rw [← sent, ← refused]
        exact ih _
      · by_cases full : webhookQueue ≤ worker.queue.length
        · simp only [stopped, full, Bool.false_eq_true, if_false, if_true]
          exact .inr ⟨sent, by simp [Hub.refused]⟩
        · simp only [stopped, full, Bool.false_eq_true, if_false]
          exact .inl ⟨by rw [sent], refused⟩

end Hub

/-! ## Orders -/

variable {spaceId : String}

def Desk.handed (spaceId : String) (d : Desk) : List Nat :=
  (batchesOf spaceId d.hub.sent).map (·.1)

/-- Of any two batches, the one handed over first is of the write committed first. -/
def Desk.InOrder (spaceId : String) (d : Desk) : Prop :=
  (d.handed spaceId).Pairwise fun i j => d.commits.idxOf i < d.commits.idxOf j

def Call.Waits (call : Call) : Prop := call.phase = .committed ∧ call.ops ≠ []

instance (call : Call) : Decidable call.Waits := inferInstanceAs (Decidable (_ ∧ _))

/-- A write is announced only when no write that committed before it is still to be announced. -/
def AnnouncesFirst (d : Desk) : DeskAction → Prop
  | .announce i => ∀ mine, d.calls.lookup i = some mine → mine.ops ≠ [] →
      ∀ j call, d.calls.lookup j = some call → call.Waits → j ≠ i →
        d.commits.idxOf i < d.commits.idxOf j
  | _ => True

/-- Nothing is left to be announced, and all of it was. -/
def Desk.Settled (d : Desk) : Prop :=
  ∀ i call, d.calls.lookup i = some call → call.phase ≠ .committed ∧ call.phase ≠ .abandoned

structure Inv (spaceId : String) (d : Desk) : Prop where
  nodup : d.commits.Nodup
  committed : ∀ i, i ∈ d.commits ↔
    ∃ call, d.calls.lookup i = some call ∧ call.phase ≠ .writing
  handed : ∀ i ∈ d.handed spaceId, ∃ call, d.calls.lookup i = some call ∧ call.phase = .announced
  announced : ∀ i call, d.calls.lookup i = some call → call.phase = .announced → call.ops ≠ [] →
    i ∈ d.handed spaceId ∨ d.hub.refused ≠ []

structure Grows (spaceId : String) (d d' : Desk) : Prop where
  commits : d.commits <+: d'.commits
  handed : d.handed spaceId <+: d'.handed spaceId
  calls : ∀ i call, d.calls.lookup i = some call → call.phase ≠ .writing →
    ∃ call', d'.calls.lookup i = some call' ∧ call'.ops = call.ops ∧ call'.phase ≠ .writing
  refused : d.hub.refused ≠ [] → d'.hub.refused ≠ []

section Step

variable {d d' : Desk} {a : DeskAction} {i : Nat}

theorem handed_announceWrites (d : Desk) (i : Nat) (call : Call) (h : Hub (Nat × WebhookBatch))
    (announced : h = d.announceWrites spaceId i call) :
    (call.ops = [] ∧ h = d.hub) ∨
    (call.ops ≠ [] ∧ (batchesOf spaceId h.sent).map (·.1) = d.handed spaceId ++ [i] ∧
      h.refused = d.hub.refused) ∨
    (call.ops ≠ [] ∧ (batchesOf spaceId h.sent).map (·.1) = d.handed spaceId ∧ h.refused ≠ []) := by
  subst announced
  unfold Desk.announceWrites
  by_cases none : call.ops = []
  · exact .inl ⟨none, by simp [Call.writes, none]⟩
  · rw [if_neg (by simp [Call.writes, none])]
    rcases announceTries_cases spaceId (i, ⟨call.authorDid, call.writes⟩) 2 d.hub with
      ⟨sent, refused⟩ | ⟨sent, refused⟩
    · refine .inr (.inl ⟨none, ?_, refused⟩)
      rw [Hub.announce, sent]
      simp [Desk.handed, batchesOf_singleton]
    · refine .inr (.inr ⟨none, ?_, refused⟩)
      rw [Hub.announce, sent]
      rfl

inductive Moves (spaceId : String) (d : Desk) (a : DeskAction) (d' : Desk) : Prop where
  | begin (i : Nat) (call : Call) (new : d.calls.lookup i = none) (phase : call.phase = .writing)
      (calls : d'.calls = d.calls.insert i call) (commits : d'.commits = d.commits)
      (hub : d'.hub = d.hub) (other : AnnouncesFirst d a)
  | rollback (i : Nat) (call : Call) (held : d.calls.lookup i = some call)
      (phase : call.phase = .writing) (calls : d'.calls = d.calls.erase i)
      (commits : d'.commits = d.commits) (hub : d'.hub = d.hub) (other : AnnouncesFirst d a)
  | commit (i : Nat) (call : Call) (held : d.calls.lookup i = some call)
      (phase : call.phase = .writing)
      (calls : d'.calls = d.calls.insert i { call with phase := .committed })
      (commits : d'.commits = d.commits ++ [i]) (hub : d'.hub = d.hub) (other : AnnouncesFirst d a)
  | announce (i : Nat) (call : Call) (its : a = .announce i) (held : d.calls.lookup i = some call)
      (phase : call.phase = .committed)
      (calls : d'.calls = d.calls.insert i { call with phase := .announced })
      (commits : d'.commits = d.commits) (hub : d'.hub = d.announceWrites spaceId i call)
  | abandon (i : Nat) (call : Call) (held : d.calls.lookup i = some call)
      (phase : call.phase = .committed)
      (calls : d'.calls = d.calls.insert i { call with phase := .abandoned })
      (commits : d'.commits = d.commits) (hub : d'.hub = d.hub) (other : AnnouncesFirst d a)
  | work (calls : d'.calls = d.calls) (commits : d'.commits = d.commits)
      (sent : d'.hub.sent = d.hub.sent) (refused : d'.hub.refused = d.hub.refused)
      (other : AnnouncesFirst d a)

theorem step_moves (stepped : Desk.step spaceId d a = some d') : Moves spaceId d a d' := by
  cases a with
  | begin i authorDid ops =>
    simp only [Desk.step] at stepped
    split at stepped
    · cases stepped
    · rename_i new
      cases stepped
      rw [not_or] at new
      exact .begin i _ (AList.lookup_eq_none.mpr new.1) rfl rfl rfl rfl trivial
  | rollback i =>
    simp only [Desk.step] at stepped
    split at stepped
    · rename_i held
      cases stepped
      exact .rollback i _ held rfl rfl rfl rfl trivial
    · cases stepped
  | commit i =>
    simp only [Desk.step] at stepped
    split at stepped
    · rename_i held
      cases stepped
      exact .commit i _ held rfl rfl rfl rfl trivial
    · cases stepped
  | announce i =>
    simp only [Desk.step] at stepped
    split at stepped
    · rename_i held
      cases stepped
      exact .announce i _ rfl held rfl rfl rfl rfl
    · cases stepped
  | abandon i =>
    simp only [Desk.step] at stepped
    split at stepped
    · rename_i held
      cases stepped
      exact .abandon i _ held rfl rfl rfl rfl trivial
    · cases stepped
  | work b =>
    have same (hub : Hub (Nat × WebhookBatch)) (other : announced [b] = [])
        (worked : Webhooks.step d.hub b = some hub) :
        Moves spaceId d (.work b) { d with hub } := by
      obtain ⟨sent, dropped, lost⟩ := step_sent other worked
      exact .work rfl rfl sent (by simp only [Hub.refused, dropped, lost]) trivial
    cases b with
    | announce _ _ => cases stepped
    | _ =>
      obtain ⟨hub, worked, rfl⟩ := Option.map_eq_some_iff.mp stepped
      exact same hub rfl worked

theorem Moves.grows (moves : Moves spaceId d a d') : Grows spaceId d d' := by
  cases moves with
  | begin i call new phase calls commits hub other =>
    refine ⟨by simp [commits], by simp [Desk.handed, hub], fun j found held past => ?_,
      by rw [hub]; exact id⟩
    have apart : j ≠ i := by
      rintro rfl
      rw [new] at held
      cases held
    exact ⟨found, by rw [calls, AList.lookup_insert_ne apart, held], rfl, past⟩
  | rollback i call held phase calls commits hub other =>
    refine ⟨by simp [commits], by simp [Desk.handed, hub], fun j found held' past => ?_,
      by rw [hub]; exact id⟩
    have apart : j ≠ i := by
      rintro rfl
      rw [held] at held'
      cases held'
      exact past phase
    exact ⟨found, by rw [calls, AList.lookup_erase_ne apart, held'], rfl, past⟩
  | commit i call held phase calls commits hub other =>
    refine ⟨by rw [commits]; exact List.prefix_append _ _, by simp [Desk.handed, hub],
      fun j found held' past => ?_, by rw [hub]; exact id⟩
    have apart : j ≠ i := by
      rintro rfl
      rw [held] at held'
      cases held'
      exact past phase
    exact ⟨found, by rw [calls, AList.lookup_insert_ne apart, held'], rfl, past⟩
  | announce i call its held phase calls commits hub =>
    refine ⟨by simp [commits], ?_, fun j found held' past => ?_, fun already => ?_⟩
    · rcases handed_announceWrites d i call _ hub with ⟨-, same⟩ | ⟨-, sent, -⟩ | ⟨-, sent, -⟩
      · simp [Desk.handed, same]
      · exact ⟨[i], sent.symm⟩
      · exact ⟨[], by rw [List.append_nil]; exact sent.symm⟩
    · by_cases same : j = i
      · subst same
        rw [held] at held'
        cases held'
        exact ⟨{ call with phase := .announced }, by rw [calls, AList.lookup_insert], rfl, nofun⟩
      · exact ⟨found, by rw [calls, AList.lookup_insert_ne same, held'], rfl, past⟩
    · rcases handed_announceWrites d i call _ hub with ⟨-, same⟩ | ⟨-, -, same⟩ | ⟨-, -, new⟩
      · rwa [same]
      · rwa [same]
      · exact new
  | abandon i call held phase calls commits hub other =>
    refine ⟨by simp [commits], by simp [Desk.handed, hub], fun j found held' past => ?_,
      by rw [hub]; exact id⟩
    by_cases same : j = i
    · subst same
      rw [held] at held'
      cases held'
      exact ⟨{ call with phase := .abandoned }, by rw [calls, AList.lookup_insert], rfl, nofun⟩
    · exact ⟨found, by rw [calls, AList.lookup_insert_ne same, held'], rfl, past⟩
  | work calls commits sent refused other =>
    exact ⟨by simp [commits], by simp [Desk.handed, sent],
      fun j found held past => ⟨found, by rw [calls, held], rfl, past⟩, by rw [refused]; exact id⟩

theorem lookup_put {calls : AList fun _ : Nat => Call} {call : Call} {p : Call → Prop} {j : Nat} :
    (∃ found, (calls.insert i call).lookup j = some found ∧ p found) ↔
      j = i ∧ p call ∨ j ≠ i ∧ ∃ found, calls.lookup j = some found ∧ p found := by
  by_cases same : j = i
  · subst same
    simp
  · simp [AList.lookup_insert_ne same, same]

theorem Inv.put {call : Call} (inv : Inv spaceId d)
    (before : ∀ old, d.calls.lookup i = some old → old.phase ≠ .announced)
    (after : call.phase ≠ .announced) (calls : d'.calls = d.calls.insert i call)
    (hub : d'.hub = d.hub) (nodup : d'.commits.Nodup)
    (commits : ∀ j, j ∈ d'.commits ↔ j = i ∧ call.phase ≠ .writing ∨ j ≠ i ∧ j ∈ d.commits) :
    Inv spaceId d' := by
  have handed : d'.handed spaceId = d.handed spaceId := by
    rw [Desk.handed, hub]
    rfl
  refine ⟨nodup, fun j => ?_, fun j mem => ?_, fun j found held announced => ?_⟩
  · rw [commits, calls, lookup_put, ← inv.committed]
  · obtain ⟨found, held, announced⟩ := inv.handed j (handed ▸ mem)
    have apart : j ≠ i := by
      rintro rfl
      exact before found held announced
    rw [calls, lookup_put]
    exact .inr ⟨apart, found, held, announced⟩
  · rw [calls] at held
    rw [handed, hub]
    rcases lookup_insert_cases held with ⟨-, rfl⟩ | old
    · exact absurd announced after
    · exact inv.announced j found old announced

theorem Inv.step (inv : Inv spaceId d) (moves : Moves spaceId d a d') : Inv spaceId d' := by
  cases moves with
  | begin i call new phase calls commits hub other =>
    have uncommitted : i ∉ d.commits := by
      rw [inv.committed, new]
      rintro ⟨_, ⟨⟩, -⟩
    refine inv.put (by simp [new]) (by simp [phase]) calls hub (commits ▸ inv.nodup) fun j => ?_
    rw [commits]
    grind
  | rollback i call held phase calls commits hub other =>
    have handed : d'.handed spaceId = d.handed spaceId := by
      rw [Desk.handed, hub]
      rfl
    have erased (p : Call → Prop) (not : ¬ p call) (j : Nat) :
        (∃ found, d'.calls.lookup j = some found ∧ p found) ↔
          ∃ found, d.calls.lookup j = some found ∧ p found := by
      rw [calls]
      by_cases same : j = i
      · subst same
        simp [held, not]
      · rw [AList.lookup_erase_ne same]
    refine ⟨commits ▸ inv.nodup, fun j => ?_, fun j mem => ?_, fun j found held' announced => ?_⟩
    · rw [commits, inv.committed, erased _ (by simp [phase])]
    · rw [erased _ (by simp [phase])]
      exact inv.handed j (handed ▸ mem)
    · rw [calls] at held'
      rw [handed, hub]
      exact inv.announced j found (lookup_erase_some held').2 announced
  | commit i call held phase calls commits hub other =>
    have uncommitted : i ∉ d.commits := by
      rw [inv.committed, held]
      rintro ⟨_, ⟨⟩, past⟩
      exact past phase
    refine inv.put (by simp [held, phase]) (by simp) calls hub ?_ fun j => ?_
    · rw [commits, List.nodup_append]
      exact ⟨inv.nodup, by simp, by grind⟩
    · rw [commits]
      grind
  | announce i call its held phase calls commits hub =>
    have known : i ∈ d.commits := (inv.committed i).mpr ⟨call, held, by simp [phase]⟩
    have kept : ∀ j ∈ d.handed spaceId, ∃ found, d'.calls.lookup j = some found ∧
        found.phase = .announced := by
      intro j mem
      rw [calls, lookup_put]
      by_cases same : j = i
      · exact .inl ⟨same, rfl⟩
      · exact .inr ⟨same, inv.handed j mem⟩
    have mine : ∃ found, d'.calls.lookup i = some found ∧ found.phase = .announced := by
      rw [calls, lookup_put]
      exact .inl ⟨rfl, rfl⟩
    have settled : (∀ j ∈ d.handed spaceId, j ∈ d'.handed spaceId) ∧
        (d.hub.refused ≠ [] → d'.hub.refused ≠ []) ∧
        (∀ j ∈ d'.handed spaceId, j ∈ d.handed spaceId ∨ j = i) ∧
        (call.ops ≠ [] → i ∈ d'.handed spaceId ∨ d'.hub.refused ≠ []) := by
      rcases handed_announceWrites d i call _ hub with ⟨none, same⟩ | ⟨-, sent, refused⟩ |
        ⟨-, sent, refused⟩
      · simp [Desk.handed, same, none]
        exact fun _ _ h => .inl ⟨_, h⟩
      · have handed : d'.handed spaceId = d.handed spaceId ++ [i] := sent
        rw [handed, refused]
        exact ⟨fun _ h => List.mem_append_left _ h, id, fun _ h => by simpa using h,
          fun _ => .inl (by simp)⟩
      · have handed : d'.handed spaceId = d.handed spaceId := sent
        rw [handed]
        exact ⟨fun _ h => h, fun _ => refused, fun _ h => .inl h, fun _ => .inr refused⟩
    obtain ⟨more, refused, only, new⟩ := settled
    refine ⟨commits ▸ inv.nodup, fun j => ?_, fun j mem => ?_,
      fun j found held' announced ops => ?_⟩
    · rw [commits, calls, lookup_put, ← inv.committed]
      grind
    · rcases only j mem with old | rfl
      · exact kept j old
      · exact mine
    · rw [calls] at held'
      rcases lookup_insert_cases held' with ⟨rfl, rfl⟩ | old
      · exact new ops
      · exact (inv.announced j found old announced ops).imp (more j) refused
  | abandon i call held phase calls commits hub other =>
    have known : i ∈ d.commits := (inv.committed i).mpr ⟨call, held, by simp [phase]⟩
    refine inv.put (by simp [held, phase]) (by simp) calls hub (commits ▸ inv.nodup) fun j => ?_
    rw [commits]
    grind
  | work calls commits sent refused other =>
    have handed : d'.handed spaceId = d.handed spaceId := by
      rw [Desk.handed, sent]
      rfl
    refine ⟨commits ▸ inv.nodup, ?_, ?_, ?_⟩
    · rw [commits, calls]
      exact inv.committed
    · rw [handed, calls]
      exact inv.handed
    · rw [handed, calls, refused]
      exact inv.announced

end Step

theorem start_inv : Inv spaceId (desk spaceId).start := by
  refine ⟨List.nodup_nil, ?_, ?_, ?_⟩
  all_goals simp [desk, Desk.handed, batchesOf]

theorem runFrom_grows_desk {d d' : Desk} {actions : List DeskAction} (inv : Inv spaceId d)
    (run : (desk spaceId).runFrom d actions = some d') : Inv spaceId d' ∧ Grows spaceId d d' := by
  induction actions generalizing d with
  | nil =>
    cases run
    exact ⟨inv, List.prefix_rfl, List.prefix_rfl, fun _ call held past => ⟨call, held, rfl, past⟩,
      id⟩
  | cons a actions ih =>
    obtain ⟨u, stepped, rest⟩ := Machine.runFrom_cons.mp run
    have moves := step_moves stepped
    obtain ⟨inv', grows'⟩ := ih (inv.step moves) rest
    refine ⟨inv', moves.grows.commits.trans grows'.commits, moves.grows.handed.trans grows'.handed,
      fun i call held past => ?_, fun already => grows'.refused (moves.grows.refused already)⟩
    obtain ⟨call', held', ops, past'⟩ := moves.grows.calls i call held past
    obtain ⟨call'', held'', ops', past''⟩ := grows'.calls i call' held' past'
    exact ⟨call'', held'', ops'.trans ops, past''⟩

theorem idxOf_of_grows {d d' : Desk} {i : Nat} (grows : Grows spaceId d d') (mem : i ∈ d.commits) :
    d'.commits.idxOf i = d.commits.idxOf i := by
  obtain ⟨more, same⟩ := grows.commits
  rw [← same, List.idxOf_append_of_mem mem]

/-! ## When the order is kept -/

/-- What is handed over is in order, and comes before what waits. -/
structure Ahead (spaceId : String) (d : Desk) : Prop where
  inOrder : d.InOrder spaceId
  waiting : ∀ i ∈ d.handed spaceId, ∀ j call, d.calls.lookup j = some call → call.Waits →
    d.commits.idxOf i < d.commits.idxOf j

section Ahead

variable {d d' : Desk} {a : DeskAction}

theorem Ahead.quiet (inv : Inv spaceId d) (ahead : Ahead spaceId d) (grows : Grows spaceId d d')
    (handed : d'.handed spaceId = d.handed spaceId)
    (waits : ∀ j call, d'.calls.lookup j = some call → call.Waits →
      j ∉ d.commits ∨ ∃ old, d.calls.lookup j = some old ∧ old.Waits) : Ahead spaceId d' := by
  have committed (i : Nat) (mem : i ∈ d.handed spaceId) : i ∈ d.commits := by
    obtain ⟨call, held, announced⟩ := inv.handed i mem
    exact (inv.committed i).mpr ⟨call, held, by simp [announced]⟩
  constructor
  · rw [Desk.InOrder, handed]
    refine ahead.inOrder.imp_of_mem fun {i j} hi hj before => ?_
    rwa [idxOf_of_grows grows (committed i hi), idxOf_of_grows grows (committed j hj)]
  · intro i mem j call held waiting
    rw [handed] at mem
    have known := committed i mem
    rw [idxOf_of_grows grows known]
    by_cases old : j ∈ d.commits
    · obtain ⟨call', held', waiting'⟩ := (waits j call held waiting).resolve_left (fun h => h old)
      rw [idxOf_of_grows grows old]
      exact ahead.waiting i mem j call' held' waiting'
    · obtain ⟨more, same⟩ := grows.commits
      have := List.idxOf_lt_length_of_mem known
      rw [← same, List.idxOf_append_of_notMem old]
      omega

theorem Ahead.step (inv : Inv spaceId d) (ahead : Ahead spaceId d) (first : AnnouncesFirst d a)
    (moves : Moves spaceId d a d') : Ahead spaceId d' := by
  have grows := moves.grows
  cases moves with
  | begin i call new phase calls commits hub other =>
    refine ahead.quiet inv grows (by rw [Desk.handed, hub]; rfl) fun j found held waiting => ?_
    rw [calls] at held
    rcases lookup_insert_cases held with ⟨rfl, rfl⟩ | old
    · exact absurd (phase.symm.trans waiting.1) nofun
    · exact .inr ⟨found, old, waiting⟩
  | rollback i call held phase calls commits hub other =>
    refine ahead.quiet inv grows (by rw [Desk.handed, hub]; rfl) fun j found held' waiting => ?_
    rw [calls] at held'
    exact .inr ⟨found, (lookup_erase_some held').2, waiting⟩
  | commit i call held phase calls commits hub other =>
    refine ahead.quiet inv grows (by rw [Desk.handed, hub]; rfl) fun j found held' waiting => ?_
    rw [calls] at held'
    rcases lookup_insert_cases held' with ⟨rfl, rfl⟩ | old
    · refine .inl fun mem => ?_
      obtain ⟨old, held'', past⟩ := (inv.committed j).mp mem
      rw [held] at held''
      cases held''
      exact past phase
    · exact .inr ⟨found, old, waiting⟩
  | announce i call its held phase calls commits hub =>
    subst its
    have waits (j : Nat) (found : Call) (held' : d'.calls.lookup j = some found)
        (waiting : found.Waits) : j ≠ i ∧ d.calls.lookup j = some found := by
      rw [calls] at held'
      by_cases same : j = i
      · subst same
        rw [AList.lookup_insert] at held'
        cases held'
        exact absurd waiting.1 (by simp)
      · rw [AList.lookup_insert_ne same] at held'
        exact ⟨same, held'⟩
    rcases handed_announceWrites d i call _ hub with ⟨-, same⟩ | ⟨ops, sent, -⟩ | ⟨-, sent, -⟩
    · refine ahead.quiet inv grows (by rw [Desk.handed, same]; rfl) fun j found held' waiting => ?_
      exact .inr ⟨found, (waits j found held' waiting).2, waiting⟩
    · have handed : d'.handed spaceId = d.handed spaceId ++ [i] := sent
      constructor
      · rw [Desk.InOrder, handed, commits, List.pairwise_append]
        refine ⟨ahead.inOrder, List.pairwise_singleton _ _, fun j mem k isLast => ?_⟩
        rw [List.mem_singleton.mp isLast]
        exact ahead.waiting j mem i call held ⟨phase, ops⟩
      · intro j mem k found held' waiting
        obtain ⟨apart, held'⟩ := waits k found held' waiting
        rw [handed] at mem
        rw [commits]
        rcases List.mem_append.mp mem with old | new
        · exact ahead.waiting j old k found held' waiting
        · rw [List.mem_singleton.mp new]
          exact first call held ops k found held' waiting apart
    · refine ahead.quiet inv grows sent fun j found held' waiting => ?_
      exact .inr ⟨found, (waits j found held' waiting).2, waiting⟩
  | abandon i call held phase calls commits hub other =>
    refine ahead.quiet inv grows (by rw [Desk.handed, hub]; rfl) fun j found held' waiting => ?_
    rw [calls] at held'
    rcases lookup_insert_cases held' with ⟨rfl, rfl⟩ | old
    · exact absurd waiting.1 (by simp)
    · exact .inr ⟨found, old, waiting⟩
  | work calls commits sent refused other =>
    refine ahead.quiet inv grows (by rw [Desk.handed, sent]; rfl) fun j found held waiting => ?_
    exact .inr ⟨found, calls ▸ held, waiting⟩

theorem ahead_of_along {actions : List DeskAction}
    (along : (desk spaceId).Along AnnouncesFirst actions)
    (run : (desk spaceId).run actions = some d) : Inv spaceId d ∧ Ahead spaceId d := by
  refine Machine.induct_along (P := fun d => Inv spaceId d ∧ Ahead spaceId d) ?_ ?_ along run
  · refine ⟨start_inv, ?_, ?_⟩
    all_goals simp [desk, Desk.InOrder, Desk.handed, batchesOf]
  · rintro d a d' ⟨inv, ahead⟩ first stepped
    have moves := step_moves stepped
    exact ⟨inv.step moves, ahead.step inv first moves⟩

theorem along_of_inOrder {actions : List DeskAction} (inv : Inv spaceId d)
    (run : (desk spaceId).runFrom d actions = some d') (settled : d'.Settled)
    (none : d'.hub.refused = []) (inOrder : d'.InOrder spaceId) :
    (desk spaceId).AlongFrom AnnouncesFirst d actions := by
  induction actions generalizing d with
  | nil => trivial
  | cons a actions ih =>
    obtain ⟨u, stepped, rest⟩ := Machine.runFrom_cons.mp run
    have moves := step_moves stepped
    have inv' := inv.step moves
    refine ⟨?_, fun u' stepped' => ?_⟩
    · cases moves with
      | announce i mine its held phase calls commits hub =>
        subst its
        intro mine' held' ops j call waits waiting apart
        rw [held] at held'
        cases held'
        obtain ⟨final, grows⟩ := runFrom_grows_desk inv run
        obtain ⟨-, grows'⟩ := runFrom_grows_desk inv' rest
        -- The batch of `i` was handed over here, and that of `j` later.
        have handed : u.handed spaceId = d.handed spaceId ++ [i] := by
          rcases handed_announceWrites d i mine _ hub with ⟨empty, -⟩ | ⟨-, sent, -⟩ | ⟨-, -, new⟩
          · exact absurd empty ops
          · exact sent
          · exact absurd none (grows'.refused new)
        obtain ⟨call', held', ops', past⟩ := grows.calls j call waits (by simp [waiting.1])
        have announced : call'.phase = .announced := by
          have := settled j call' held'
          cases phase : call'.phase <;> simp_all
        have later : j ∈ d'.handed spaceId :=
          (final.announced j call' held' announced (ops' ▸ waiting.2)).resolve_right
            (by simp [none])
        have earlier : j ∉ d.handed spaceId := by
          intro mem
          obtain ⟨old, found, announced⟩ := inv.handed j mem
          rw [waits] at found
          cases found
          rw [waiting.1] at announced
          cases announced
        obtain ⟨after, same⟩ := grows'.handed
        rw [← same, handed] at later
        have inAfter : j ∈ after := by simpa [earlier, apart] using later
        rw [Desk.InOrder, ← same, handed, List.append_assoc, List.pairwise_append] at inOrder
        have order := (List.pairwise_cons.mp inOrder.2.1).1 j inAfter
        rwa [idxOf_of_grows grows ((inv.committed i).mpr ⟨mine, held, by simp [phase]⟩),
          idxOf_of_grows grows ((inv.committed j).mpr ⟨call, waits, by simp [waiting.1]⟩)] at order
      | begin _ _ _ _ _ _ _ other | rollback _ _ _ _ _ _ _ other | commit _ _ _ _ _ _ _ other
      | abandon _ _ _ _ _ _ _ other | work _ _ _ _ other => exact other
    · rw [stepped] at stepped'
      cases stepped'
      exact ih inv' rest

end Ahead

/-- In every run in which a write is announced only when no write that committed before it is
still to be announced, the batches are handed to the space's worker in the order in which the writes
committed. Once every committed write is announced and no batch was refused, they are in this order
exactly if the run was such. -/
theorem webhooks_in_order {spaceId : String} {actions : List DeskAction} {d : Desk}
    (run : (desk spaceId).run actions = some d) :
    ((desk spaceId).Along AnnouncesFirst actions → d.InOrder spaceId) ∧
    (d.Settled → d.hub.refused = [] →
      (d.InOrder spaceId ↔ (desk spaceId).Along AnnouncesFirst actions)) := by
  have kept (along : (desk spaceId).Along AnnouncesFirst actions) : d.InOrder spaceId :=
    (ahead_of_along along run).2.inOrder
  exact ⟨kept, fun settled none => ⟨along_of_inOrder start_inv run settled none, kept⟩⟩

def forumOp (rkey : String) : AppliedOp := ⟨.create, "com.example.post", rkey, some "cid", none⟩

def forumWrites : List DeskAction :=
  [.begin 0 "did:plc:a" [forumOp "a"], .commit 0, .begin 1 "did:plc:b" [forumOp "b"], .commit 1]

theorem webhooks_in_order_forum : ∃ d,
    (desk "forum").run (forumWrites ++ [.announce 0, .announce 1]) = some d ∧
    d.handed "forum" = [0, 1] ∧
    (desk "forum").Along AnnouncesFirst (forumWrites ++ [.announce 0, .announce 1]) := by
  obtain ⟨d, run, checked⟩ := (Option.any_eq_true _ _).mp (by decide +kernel :
    ((desk "forum").run (forumWrites ++ [.announce 0, .announce 1])).any (fun d =>
      d.commits = [0, 1] ∧ d.handed "forum" = [0, 1] ∧ d.hub.refused = [] ∧
      d.calls.keys = [1, 0] ∧ (d.calls.lookup 0).any (·.phase = .announced) ∧
      (d.calls.lookup 1).any (·.phase = .announced)) = true)
  obtain ⟨commits, handed, none, keys, first, second⟩ := of_decide_eq_true checked
  refine ⟨d, run, handed, ((webhooks_in_order run).2 ?_ none).mp ?_⟩
  · intro i call held
    have known : i ∈ d.calls.keys := AList.mem_keys.mp (AList.lookup_isSome.mp (by simp [held]))
    rw [keys] at known
    rcases List.mem_pair.mp known with rfl | rfl
    · simp [held] at second
      simp [second]
    · simp [held] at first
      simp [first]
  · rw [Desk.InOrder, handed, commits]
    decide

/-- The first write has released the lock but not announced itself when the second one commits and
is announced. -/
theorem webhooks_overtaken : ∃ d,
    (desk "forum").run (forumWrites ++ [.announce 1, .announce 0]) = some d ∧
    d.commits = [0, 1] ∧ d.hub.refused = [] ∧
    batchesOf "forum" d.hub.sent =
      [(1, ⟨"did:plc:b", [⟨"com.example.post", "b", some "cid"⟩]⟩),
        (0, ⟨"did:plc:a", [⟨"com.example.post", "a", some "cid"⟩]⟩)] := by
  refine ⟨_, rfl, rfl, rfl, ?_⟩
  decide

end HappyView.Spaces.Webhooks
