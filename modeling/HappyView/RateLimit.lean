import HappyView.Foundation.Envelope
import HappyView.Foundation.Machine
import Mathlib.Algebra.Order.Field.Basic
import Mathlib.Algebra.Order.Floor.Defs
import Mathlib.Data.Rat.Floor
import Mathlib.Logic.Function.Basic

/-!
# The rate limiter

Each registered client has a bucket of tokens that fills at the client's rate up to its capacity,
and a call is allowed when its cost can be taken from the bucket. A cleanup pass once a minute
drops the buckets that nobody has used for five minutes.

`check` reads the clock, then takes the lock of the bucket; a cleanup pass reads the clock, then
locks one bucket after another. So calls and passes reach a bucket in any order of their readings,
and a call with an old reading sets the bucket's clock back: what has been refilled since is
refilled again.
-/

namespace HappyView.RateLimit

open HappyView.Foundation

variable {K : Type} [Field K] [LinearOrder K]

structure RateLimitConfig (K : Type) where
  capacity : Nat
  refillRate : K

inductive CheckResult where
  | allowed (remaining limit reset : Nat)
  | limited (retryAfter limit reset : Nat)
  | disabled
  deriving DecidableEq

structure TokenBucket (K : Type) where
  tokens : K
  capacity : Nat
  refillRate : K
  lastRefill : K
  lastAccess : K

/-! ## One call -/

/-- `duration_since`, which is zero when the other reading is the later one. -/
def durationSince (now earlier : K) : K := max 0 (now - earlier)

/-- A cast to an unsigned integer of `width` bits, which keeps to its ends. -/
def saturate (width : Nat) (value : Int) : Nat := min value.toNat (2 ^ width - 1)

def TokenBucket.fresh (config : RateLimitConfig K) (now : K) : TokenBucket K where
  tokens := config.capacity
  capacity := config.capacity
  refillRate := config.refillRate
  lastRefill := now
  lastAccess := now

def TokenBucket.refill (config : RateLimitConfig K) (now : K) (bucket : TokenBucket K) :
    TokenBucket K where
  tokens := min (bucket.tokens + durationSince now bucket.lastRefill * config.refillRate)
    config.capacity
  capacity := config.capacity
  refillRate := config.refillRate
  lastRefill := now
  lastAccess := now

/-- What `check` does with the lock on the bucket, which is made if it is not there. The wall
clock is read for the reset, and once more when the call is refused. -/
def checkBucket [FloorRing K] (config : RateLimitConfig K) (held : Option (TokenBucket K))
    (cost : Nat) (now : K) (wall wallLater : Nat) : CheckResult × TokenBucket K :=
  let bucket := (held.getD (.fresh config now)).refill config now
  let resetSecs := if bucket.tokens < config.capacity then
    saturate 64 ⌈(config.capacity - bucket.tokens) / config.refillRate⌉ else 0
  if cost ≤ bucket.tokens then
    let tokens := bucket.tokens - cost
    (.allowed (saturate 32 ⌊tokens⌋) config.capacity (wall + resetSecs), { bucket with tokens })
  else
    (.limited (saturate 64 ⌈(cost - bucket.tokens) / config.refillRate⌉) config.capacity
      (wallLater + saturate 64 ⌈(config.capacity : K) / config.refillRate⌉), bucket)

def staleThreshold : K := 300

def TokenBucket.isStale (now : K) (bucket : TokenBucket K) : Bool :=
  ¬ durationSince now bucket.lastAccess < staleThreshold

/-! ## Concurrent calls and passes -/

structure Call (K : Type) where
  key : String
  cost : Nat
  config : RateLimitConfig K
  now : K

structure Grant (K : Type) where
  key : String
  time : K
  cost : Nat

structure State (K : Type) where
  clock : K
  buckets : String → Option (TokenBucket K) := fun _ => none
  calls : Nat → Option (Call K) := fun _ => none
  passes : Nat → Option K := fun _ => none
  /-- All calls allowed, in the order they got the lock. No code reads it. -/
  grants : List (Grant K) := []
  /-- The reading of the call or pass that last changed the client's bucket. No code reads it. -/
  latest : String → K

inductive Action (K : Type) where
  | tick (now : K)
  | check (call : Nat) (key : String) (cost : Nat)
  | enter (call wall wallLater : Nat)
  | cleanup (pass : Nat)
  | visit (pass : Nat) (key : String)

def CheckResult.isAllowed : CheckResult → Bool
  | .allowed .. => true
  | _ => false

namespace State

def enter [FloorRing K] (s : State K) (id : Nat) (call : Call K) (wall wallLater : Nat) :
    State K :=
  let (result, bucket) :=
    checkBucket call.config (s.buckets call.key) call.cost call.now wall wallLater
  { s with
    buckets := Function.update s.buckets call.key (some bucket)
    calls := Function.update s.calls id none
    grants := if result.isAllowed then s.grants ++ [⟨call.key, call.now, call.cost⟩] else s.grants
    latest := Function.update s.latest call.key call.now }

def visit (s : State K) (now : K) (key : String) : State K :=
  if (s.buckets key).any (·.isStale now) then
    { s with
      buckets := Function.update s.buckets key none
      latest := Function.update s.latest key now }
  else s

def step [FloorRing K] (configs : String → Option (RateLimitConfig K)) (s : State K) :
    Action K → Option (State K)
  | .tick now => if s.clock ≤ now then some { s with clock := now } else none
  | .check id key cost => match s.calls id, configs key with
    | some _, _ => none
    -- The call is answered `Disabled`.
    | none, none => some s
    | none, some config =>
      some { s with calls := Function.update s.calls id (some ⟨key, cost, config, s.clock⟩) }
  | .enter id wall wallLater => (s.calls id).map fun call => s.enter id call wall wallLater
  | .cleanup id => some { s with passes := Function.update s.passes id (some s.clock) }
  | .visit id key => (s.passes id).map fun now => s.visit now key

def charges (s : State K) (key : String) : List (K × K) :=
  (s.grants.filter (·.key = key)).map fun grant => (grant.time, (grant.cost : K))

/-- The total cost allowed to the client at readings from `start` to `stop`. -/
def allowedCost (s : State K) (key : String) (start stop : K) : K :=
  spent (s.charges key) fun time => start ≤ time ∧ time ≤ stop

end State

def limiter [FloorRing K] (configs : String → Option (RateLimitConfig K)) :
    Machine (State K) (Action K) where
  start := { clock := 0, latest := fun _ => 0 }
  step := State.step configs

/-- A call of the client gets to the bucket with a reading no older than that of the call or pass
that changed the bucket before it. -/
def InOrder (key : String) (s : State K) : Action K → Prop
  | .enter id _ _ => ∀ call ∈ s.calls id, call.key = key → s.latest key ≤ call.now
  | _ => True

/-- A pass drops the client's bucket only if the bucket would be full by then. -/
def DropsFull (key : String) (s : State K) : Action K → Prop
  | .visit id visited => visited = key → ∀ now ∈ s.passes id, ∀ bucket ∈ s.buckets key,
      bucket.isStale now →
        bucket.capacity ≤ bucket.tokens + (now - bucket.lastRefill) * bucket.refillRate
  | _ => True

def Orderly (key : String) (s : State K) (a : Action K) : Prop :=
  InOrder key s a ∧ DropsFull key s a

instance (key : String) (s : State K) : (a : Action K) → Decidable (InOrder key s a)
  | .enter .. => inferInstanceAs (Decidable (∀ _ ∈ _, _))
  | .tick _ | .check .. | .cleanup _ | .visit .. => inferInstanceAs (Decidable True)

instance (key : String) (s : State K) : (a : Action K) → Decidable (DropsFull key s a)
  | .visit .. => inferInstanceAs (Decidable (_ → ∀ _ ∈ _, _))
  | .tick _ | .check .. | .cleanup _ | .enter .. => inferInstanceAs (Decidable True)

instance (key : String) (s : State K) (a : Action K) : Decidable (Orderly key s a) :=
  inferInstanceAs (Decidable (_ ∧ _))

/-! ## One call on a bucket -/

section Bucket

variable {config : RateLimitConfig K} {held : Option (TokenBucket K)} {now : K}

def refilled (config : RateLimitConfig K) (held : Option (TokenBucket K)) (now : K) : K :=
  ((held.getD (.fresh config now)).refill config now).tokens

theorem refilled_le_capacity : refilled config held now ≤ config.capacity := min_le_right _ _

end Bucket

/-- The call leaves `tokens` in the bucket, and `grants` are all calls allowed by then. -/
def State.settle (s : State K) (id : Nat) (call : Call K) (tokens : K) (grants : List (Grant K)) :
    State K :=
  let bucket := ⟨tokens, call.config.capacity, call.config.refillRate, call.now, call.now⟩
  { s with
    buckets := Function.update s.buckets call.key (some bucket)
    calls := Function.update s.calls id none
    grants := grants
    latest := Function.update s.latest call.key call.now }

section Enter

variable [FloorRing K] {s : State K} {id wall wallLater : Nat} {call : Call K}

theorem State.enter_allowed
    (enough : call.cost ≤ refilled call.config (s.buckets call.key) call.now) :
    s.enter id call wall wallLater =
      s.settle id call (refilled call.config (s.buckets call.key) call.now - call.cost)
        (s.grants ++ [⟨call.key, call.now, call.cost⟩]) := by
  unfold refilled at enough ⊢
  simp only [enter, checkBucket, enough, if_true]
  rfl

theorem State.enter_limited
    (short : ¬ call.cost ≤ refilled call.config (s.buckets call.key) call.now) :
    s.enter id call wall wallLater =
      s.settle id call (refilled call.config (s.buckets call.key) call.now) s.grants := by
  unfold refilled at short ⊢
  simp only [enter, checkBucket, short, if_false]
  rfl

end Enter

/-! ## One client over a run -/

def State.level (s : State K) (config : RateLimitConfig K) (key : String) : K :=
  (s.buckets key).elim config.capacity (·.tokens)

/-- The bucket is the client's, and was last changed at the reading `latest`. -/
structure TokenBucket.Of (config : RateLimitConfig K) (latest : K) (bucket : TokenBucket K) :
    Prop where
  capacity : bucket.capacity = config.capacity
  refillRate : bucket.refillRate = config.refillRate
  lastRefill : bucket.lastRefill = latest
  lastAccess : bucket.lastAccess = latest
  tokens : 0 ≤ bucket.tokens

structure State.Kept [IsStrictOrderedRing K] (config : RateLimitConfig K) (key : String)
    (s : State K) : Prop where
  calls : ∀ id call, s.calls id = some call → call.key = key → call.config = config
  bucket : ∀ bucket ∈ s.buckets key, bucket.Of config (s.latest key)
  envelope : Envelope (config.capacity : K) config.refillRate (s.charges key) (s.latest key)
    (s.level config key)

section Client

variable [IsStrictOrderedRing K] {configs : String → Option (RateLimitConfig K)}
  {config : RateLimitConfig K} {key : String} {s t : State K}

theorem State.Kept.refilled_le (kept : s.Kept config key) (rate : 0 ≤ config.refillRate) {now : K}
    (order : s.latest key ≤ now) : refilled config (s.buckets key) now ≤
      s.level config key + config.refillRate * (now - s.latest key) := by
  have elapsed : 0 ≤ now - s.latest key := sub_nonneg.mpr order
  cases held : s.buckets key with
  | none =>
    have grown := mul_nonneg rate elapsed
    have full : refilled config none now ≤ config.capacity := refilled_le_capacity
    simpa [State.level, held] using by linarith
  | some bucket =>
    have since := (kept.bucket bucket held).lastRefill
    calc refilled config (some bucket) now
        ≤ bucket.tokens + durationSince now bucket.lastRefill * config.refillRate :=
          min_le_left _ _
      _ = bucket.tokens + config.refillRate * (now - s.latest key) := by
          rw [durationSince, since, max_eq_right elapsed, mul_comm]
      _ = _ := by simp [State.level, held]

theorem State.Kept.refilled_nonneg (kept : s.Kept config key) (rate : 0 ≤ config.refillRate)
    (now : K) : 0 ≤ refilled config (s.buckets key) now := by
  have capacity : (0 : K) ≤ config.capacity := Nat.cast_nonneg _
  refine le_min (add_nonneg ?_ (mul_nonneg (le_max_left _ _) rate)) capacity
  cases held : s.buckets key with
  | none => exact capacity
  | some bucket => exact (kept.bucket bucket held).tokens

theorem State.Kept.calls_settled (kept : s.Kept config key) (settled : Nat) :
    ∀ id call, Function.update s.calls settled none id = some call → call.key = key →
      call.config = config := by
  intro id call found
  by_cases same : id = settled
  · subst same
    simp at found
  · exact kept.calls id call (by simpa [same] using found)

theorem State.Kept.settle_own {id : Nat} {call : Call K} {tokens : K} {grants : List (Grant K)}
    (kept : s.Kept config call.key) (same : call.config = config) (nonneg : 0 ≤ tokens)
    (envelope : Envelope (config.capacity : K) config.refillRate
      (State.charges { s with grants } call.key) call.now tokens) :
    (s.settle id call tokens grants).Kept config call.key where
  calls := kept.calls_settled id
  bucket := by
    intro bucket held
    obtain rfl : _ = bucket := by simpa [State.settle] using held
    simpa [State.settle, same] using
      (⟨rfl, rfl, rfl, rfl, nonneg⟩ : TokenBucket.Of config call.now ⟨tokens, _, _, _, _⟩)
  envelope := by simpa [State.settle, State.charges, State.level] using envelope

theorem State.Kept.settle_other {id : Nat} {call : Call K} {tokens : K} {grants : List (Grant K)}
    (kept : s.Kept config key) (other : key ≠ call.key)
    (same : State.charges { s with grants } key = s.charges key) :
    (s.settle id call tokens grants).Kept config key where
  calls := kept.calls_settled id
  bucket := by simpa [State.settle, other] using kept.bucket
  envelope := by
    have charges : (s.settle id call tokens grants).charges key = s.charges key := same
    rw [charges]
    simpa [State.settle, State.level, other] using kept.envelope

theorem State.Kept.visit {now : K} {visited : String} (kept : s.Kept config key)
    (rate : 0 ≤ config.refillRate)
    (full : visited = key → ∀ bucket ∈ s.buckets key, bucket.isStale now →
      bucket.capacity ≤ bucket.tokens + (now - bucket.lastRefill) * bucket.refillRate) :
    (s.visit now visited).Kept config key := by
  unfold State.visit
  split
  · rename_i dropped
    obtain ⟨bucket, held, stale⟩ := (Option.any_eq_true _ _).mp dropped
    by_cases own : key = visited
    · subst own
      have of := kept.bucket bucket held
      have full := full rfl bucket held stale
      rw [of.capacity, of.lastRefill, of.refillRate] at full
      have order : s.latest key ≤ now := by
        by_contra early
        have zero : durationSince now bucket.lastAccess = 0 := by
          rw [durationSince, of.lastAccess]
          exact max_eq_left (by linarith)
        simp [TokenBucket.isStale, zero, staleThreshold] at stale
      have refilled := kept.envelope.wait rate order le_rfl (by
        simpa [State.level, held, mul_comm] using full)
      refine ⟨kept.calls, by simp, ?_⟩
      simpa [State.charges, State.level] using refilled
    · refine ⟨kept.calls, by simpa [own] using kept.bucket, ?_⟩
      simpa [State.charges, State.level, own] using kept.envelope
  · exact kept

variable [FloorRing K]

theorem State.Kept.enter {id wall wallLater : Nat} {call : Call K} (kept : s.Kept config key)
    (rate : 0 ≤ config.refillRate) (pending : s.calls id = some call)
    (order : call.key = key → s.latest key ≤ call.now) :
    (s.enter id call wall wallLater).Kept config key := by
  by_cases own : key = call.key
  · subst own
    have order := order rfl
    have same := kept.calls id call pending rfl
    have waited := kept.envelope.wait rate order refilled_le_capacity (kept.refilled_le rate order)
    have nonneg := kept.refilled_nonneg rate call.now
    rw [← same] at waited nonneg
    by_cases enough : call.cost ≤ refilled call.config (s.buckets call.key) call.now
    · rw [State.enter_allowed enough]
      refine kept.settle_own same (sub_nonneg.mpr enough) ?_
      have charged := waited.charge (by rwa [same]) enough
      simpa [State.charges, same] using charged
    · rw [State.enter_limited enough]
      exact kept.settle_own same nonneg (by simpa [State.charges, same] using waited)
  · by_cases enough : call.cost ≤ refilled call.config (s.buckets call.key) call.now
    · rw [State.enter_allowed enough]
      exact kept.settle_other own (by simp [State.charges, Ne.symm own])
    · rw [State.enter_limited enough]
      exact kept.settle_other own rfl

theorem State.Kept.step {a : Action K} (registered : configs key = some config)
    (rate : 0 ≤ config.refillRate) (kept : s.Kept config key) (orderly : Orderly key s a)
    (h : s.step configs a = some t) : t.Kept config key := by
  cases a with
  | tick now =>
    obtain ⟨-, ⟨⟩⟩ := Option.ite_none_right_eq_some.mp h
    exact ⟨kept.calls, kept.bucket, kept.envelope⟩
  | check id client cost =>
    simp only [State.step] at h
    split at h
    · cases h
    · cases h
      exact kept
    · rename_i found known
      cases h
      refine ⟨fun other call pending own => ?_, kept.bucket, kept.envelope⟩
      by_cases same : other = id
      · subst same
        obtain rfl : _ = call := by simpa using pending
        obtain rfl : client = key := own
        exact Option.some_inj.mp (known.symm.trans registered)
      · exact kept.calls other call (by simpa [same] using pending) own
  | enter id wall wallLater =>
    obtain ⟨call, pending, rfl⟩ := Option.map_eq_some_iff.mp h
    exact kept.enter rate pending (orderly.1 call pending)
  | cleanup id =>
    cases h
    exact ⟨kept.calls, kept.bucket, kept.envelope⟩
  | visit id visited =>
    obtain ⟨now, pass, rfl⟩ := Option.map_eq_some_iff.mp h
    exact kept.visit rate fun own => orderly.2 own now pass

theorem kept_start (rate : 0 ≤ config.refillRate) :
    (limiter configs).start.Kept config key where
  calls := by simp [limiter]
  bucket := by simp [limiter]
  envelope := .empty (Nat.cast_nonneg _) rate le_rfl

theorem kept_run (registered : configs key = some config) (rate : 0 ≤ config.refillRate)
    {actions : List (Action K)} (run : (limiter configs).run actions = some s)
    (orderly : (limiter configs).Along (Orderly key) actions) : s.Kept config key :=
  Machine.induct_along (kept_start rate)
    (fun _ _ _ kept ok step => kept.step registered rate ok step) orderly run

omit [FloorRing K] in
theorem State.Kept.allowedCost_le (kept : s.Kept config key) (start : K) {d : K} (length : 0 ≤ d) :
    s.allowedCost key start (start + d) ≤ config.capacity + config.refillRate * d := by
  have bound := kept.envelope.window start (start + d) (le_add_of_nonneg_right length)
  simpa [State.allowedCost] using bound

end Client

/-! ## The bound -/

/-- In every run whose calls and passes are orderly, a client is allowed at most its capacity and
its rate times the length of the interval. -/
theorem rate_bound [IsStrictOrderedRing K] [FloorRing K]
    {configs : String → Option (RateLimitConfig K)} {key : String} {config : RateLimitConfig K}
    (registered : configs key = some config)
    (positive : 0 < config.refillRate) {actions : List (Action K)} {s : State K}
    (run : (limiter configs).run actions = some s)
    (orderly : (limiter configs).Along (Orderly key) actions) (start : K) {d : K} (length : 0 ≤ d) :
    s.allowedCost key start (start + d) ≤ config.capacity + config.refillRate * d :=
  (kept_run registered positive.le run orderly).allowedCost_le start length

def oneAMinute : String → Option (RateLimitConfig ℚ) := fun _ => some ⟨1, 1 / 60⟩

def spacedCalls : List (Action ℚ) :=
  [.check 0 "hvc_a" 1, .enter 0 0 0, .tick 60, .check 1 "hvc_a" 1, .enter 1 60 60]

theorem rate_bound_spacedCalls : ∃ s, (limiter oneAMinute).run spacedCalls = some s ∧
    s.allowedCost "hvc_a" 0 60 = 2 ∧
    s.allowedCost "hvc_a" 0 (0 + 60) ≤ ((1 : Nat) : ℚ) + 1 / 60 * 60 := by
  have reached : ((limiter oneAMinute).run spacedCalls).any
      (fun s => s.allowedCost "hvc_a" 0 60 = 2) = true := by decide +kernel
  obtain ⟨s, run, allowed⟩ := (Option.any_eq_true _ _).mp reached
  refine ⟨s, run, of_decide_eq_true allowed, ?_⟩
  have registered : oneAMinute "hvc_a" = some ⟨1, 1 / 60⟩ := rfl
  exact rate_bound registered (by norm_num) run (by decide +kernel) 0 (by norm_num)

def overtaken : List (Action ℚ) :=
  [.check 0 "hvc_a" 1, .tick 60, .check 1 "hvc_a" 1, .enter 1 60 60, .enter 0 60 60,
    .check 2 "hvc_a" 1, .enter 2 60 60]

def thousand : String → Option (RateLimitConfig ℚ) := fun _ => some ⟨1000, 1⟩

def dropped : List (Action ℚ) :=
  [.check 0 "hvc_a" 1000, .enter 0 0 0, .tick 300, .cleanup 0, .visit 0 "hvc_a",
    .check 1 "hvc_a" 1000, .enter 1 300 300]

theorem rate_exceeded :
    (∃ s, (limiter oneAMinute).run overtaken = some s ∧
      ((1 : Nat) : ℚ) + 1 / 60 * 0 < s.allowedCost "hvc_a" 60 (60 + 0)) ∧
    ∃ s, (limiter thousand).run dropped = some s ∧
      ((1000 : Nat) : ℚ) + 1 * 300 < s.allowedCost "hvc_a" 0 (0 + 300) := by
  constructor
  · have reached : ((limiter oneAMinute).run overtaken).any
        (fun s => ((1 : Nat) : ℚ) + 1 / 60 * 0 < s.allowedCost "hvc_a" 60 (60 + 0)) = true := by
      decide +kernel
    obtain ⟨s, run, exceeded⟩ := (Option.any_eq_true _ _).mp reached
    exact ⟨s, run, of_decide_eq_true exceeded⟩
  · have reached : ((limiter thousand).run dropped).any
        (fun s => ((1000 : Nat) : ℚ) + 1 * 300 < s.allowedCost "hvc_a" 0 (0 + 300)) = true := by
      decide +kernel
    obtain ⟨s, run, exceeded⟩ := (Option.any_eq_true _ _).mp reached
    exact ⟨s, run, of_decide_eq_true exceeded⟩

/-! ## Buckets that fill before they are stale -/

section Fills

variable [IsStrictOrderedRing K] {config : RateLimitConfig K} {key : String} {s : State K}

theorem State.Kept.dropsFull (kept : s.Kept config key) (rate : 0 ≤ config.refillRate)
    (fills : config.capacity ≤ staleThreshold * config.refillRate) (a : Action K) :
    DropsFull key s a := by
  cases a with
  | visit id visited =>
    intro own now pass bucket held stale
    have of := kept.bucket bucket held
    have idle : staleThreshold ≤ durationSince now bucket.lastAccess := by
      simpa [TokenBucket.isStale] using stale
    rw [durationSince, of.lastAccess] at idle
    have elapsed : staleThreshold ≤ now - s.latest key :=
      (le_max_iff.mp idle).resolve_left (by norm_num [staleThreshold])
    have grown := mul_le_mul_of_nonneg_right elapsed rate
    rw [of.capacity, of.lastRefill, of.refillRate]
    linarith [of.tokens]
  | _ => trivial

end Fills

/-! ## Waiting as long as told -/

section Retry

variable [FloorRing K] {configs : String → Option (RateLimitConfig K)} {key : String}

/-- No call of the client gets to its bucket. -/
def Waits (key : String) (s : State K) : Action K → Prop
  | .enter id _ _ => ∀ call ∈ s.calls id, call.key ≠ key
  | _ => True

theorem State.step_waits {s t : State K} {a : Action K} (waits : Waits key s a)
    (h : s.step configs a = some t) : t.buckets key = s.buckets key ∨ t.buckets key = none := by
  cases a with
  | tick now =>
    obtain ⟨-, ⟨⟩⟩ := Option.ite_none_right_eq_some.mp h
    exact .inl rfl
  | check id client cost =>
    simp only [State.step] at h
    split at h <;> cases h <;> exact .inl rfl
  | enter id wall wallLater =>
    obtain ⟨call, pending, rfl⟩ := Option.map_eq_some_iff.mp h
    exact .inl (Function.update_of_ne (waits call pending).symm _ _)
  | cleanup id =>
    cases h
    exact .inl rfl
  | visit id visited =>
    obtain ⟨now, -, rfl⟩ := Option.map_eq_some_iff.mp h
    unfold State.visit
    split
    · by_cases own : key = visited <;> simp [own]
    · exact .inl rfl

theorem runFrom_waits {s t : State K} {actions : List (Action K)}
    (waits : (limiter configs).AlongFrom (Waits key) s actions)
    (run : (limiter configs).runFrom s actions = some t) :
    t.buckets key = s.buckets key ∨ t.buckets key = none := by
  induction actions generalizing s with
  | nil =>
    cases run
    exact .inl rfl
  | cons a actions ih =>
    obtain ⟨u, step, rest⟩ := Machine.runFrom_cons.mp run
    have first := State.step_waits waits.1 step
    have later := ih (waits.2 u step) rest
    grind

theorem checkBucket_isAllowed {config : RateLimitConfig K} {held : Option (TokenBucket K)}
    {cost wall wallLater : Nat} {now : K} :
    (checkBucket config held cost now wall wallLater).1.isAllowed = true ↔
      cost ≤ refilled config held now := by
  unfold checkBucket refilled
  dsimp only
  split <;> simp_all [CheckResult.isAllowed]

/-- A call refused with a `retryAfter` that the cast has not cut is allowed after that time, in
every run in which no other call of the client gets to the bucket in between. -/
theorem retryAfter_suffices [IsStrictOrderedRing K] {s t : State K} {call : Call K}
    {id wall wallLater retryAfter limit reset : Nat} {actions : List (Action K)} {later : K}
    (refused : (checkBucket call.config (s.buckets call.key) call.cost call.now wall
      wallLater).1 = .limited retryAfter limit reset)
    (affordable : call.cost ≤ call.config.capacity) (rate : 0 < call.config.refillRate)
    (uncut : retryAfter < 2 ^ 64 - 1)
    (waits : (limiter configs).AlongFrom (Waits call.key) (s.enter id call wall wallLater) actions)
    (run : (limiter configs).runFrom (s.enter id call wall wallLater) actions = some t)
    (waited : call.now + retryAfter ≤ later) :
    (checkBucket call.config (t.buckets call.key) call.cost later wall
      wallLater).1.isAllowed = true := by
  set found := refilled call.config (s.buckets call.key) call.now
  have short : ¬ call.cost ≤ found := by
    intro enough
    have allowed : (checkBucket call.config (s.buckets call.key) call.cost call.now wall
        wallLater).1.isAllowed = true := checkBucket_isAllowed.mpr enough
    rw [refused] at allowed
    cases allowed
  have told : saturate 64 ⌈(call.cost - found) / call.config.refillRate⌉ = retryAfter := by
    unfold found refilled at short
    simp only [checkBucket, short, if_false] at refused
    exact (CheckResult.limited.inj refused).1
  have enough : (call.cost : K) ≤ found + (later - call.now) * call.config.refillRate := by
    have ceil : ⌈(call.cost - found) / call.config.refillRate⌉ ≤ (retryAfter : Int) := by
      unfold saturate at told
      omega
    have time : (call.cost - found) / call.config.refillRate ≤ later - call.now := by
      have seconds : (call.cost - found) / call.config.refillRate ≤ (retryAfter : K) := by
        exact_mod_cast Int.ceil_le.mp ceil
      linarith
    have refill := (div_le_iff₀ rate).mp time
    linarith
  rw [checkBucket_isAllowed]
  have capacity : (call.cost : K) ≤ call.config.capacity := by exact_mod_cast affordable
  refine le_min ?_ capacity
  obtain same | gone := runFrom_waits waits run
  · rw [State.enter_limited short] at same
    simp only [State.settle, Function.update_self] at same
    rw [same]
    simp only [Option.getD_some]
    refine enough.trans ?_
    gcongr
    exact le_max_right _ _
  · rw [gone]
    simpa [TokenBucket.fresh, durationSince] using capacity

/-- The bucket has one token of two when two are asked for. -/
theorem retryAfter_suffices_second :
    let s : State ℚ :=
      { clock := 1, buckets := fun _ => some ⟨0, 2, 1, 0, 0⟩, latest := fun _ => 0 }
    let call : Call ℚ := ⟨"hvc_a", 2, ⟨2, 1⟩, 1⟩
    ∃ t, (limiter oneAMinute).runFrom (s.enter 0 call 0 0) [.tick 2] = some t ∧
      (checkBucket call.config (t.buckets call.key) 2 2 0 0).1.isAllowed = true := by
  intro s call
  have refused : (checkBucket call.config (s.buckets call.key) call.cost call.now 0 0).1 =
      .limited 1 2 2 := by decide +kernel
  have run : (limiter oneAMinute).runFrom (s.enter 0 call 0 0) [.tick 2] =
      some { s.enter 0 call 0 0 with clock := 2 } := rfl
  have waits : (limiter oneAMinute).AlongFrom (Waits call.key) (s.enter 0 call 0 0) [.tick 2] :=
    ⟨trivial, fun _ _ => trivial⟩
  exact ⟨_, run, retryAfter_suffices refused le_rfl one_pos (by decide) waits run
    (by norm_num [call])⟩

end Retry

end HappyView.RateLimit
