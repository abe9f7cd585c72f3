import HappyView.Outbound.Policy

/-!
# Exemptions come from the configuration

An address is exempt on a port because a configured URL has it as its host, or because a
configured name was resolved to it under the same policy. Both are read off the maps of a policy,
which only collect what they were given.
-/

namespace HappyView.Outbound

open HappyView.Foundation

variable {parse : String → Option Url}

abbrev Allowed {K : Type} [DecidableEq K] (m : AList fun _ : K => Ports) (key : K)
    (port : UInt16) : Prop :=
  Granted (fun ports port => Ports.allows ports port = true) m key port

theorem allows_merge (a b : Ports) (port : UInt16) :
    (a.merge b).allows port = true ↔ a.allows port = true ∨ b.allows port = true := by
  cases a <;> cases b <;> simp [Ports.merge, Ports.allows]

/-! ## What a policy is made of -/

def ConfiguredName (parse : String → Option Url) (urls : List String) (key : String)
    (port : UInt16) : Prop :=
  ∃ raw ∈ urls, ∃ host ports, urlHost parse raw = some (.domain host, ports) ∧
    key = normalName host ∧ ports.allows port = true

def ConfiguredLiteral (parse : String → Option Url) (urls : List String) (key : IpAddr)
    (port : UInt16) : Prop :=
  ∃ raw ∈ urls, ∃ host ports literal, urlHost parse raw = some (host, ports) ∧
    host.ip = some literal ∧ key = canonical literal ∧ ports.allows port = true

def ResolvedName (parse : String → Option Url) (urls : List String) (resolved : List Resolution)
    (key : IpAddr) (port : UInt16) : Prop :=
  ∃ resolution ∈ resolved, ConfiguredName parse urls (normalName resolution.host) port ∧
    ∃ addr ∈ resolution.addrs, key = canonical addr.ip

structure Cell.Sound (parse : String → Option Url) (cell : Cell) : Prop where
  names : ∀ key port, Allowed cell.policy.trustedNames key port →
    ConfiguredName parse cell.configured key port
  addrs : ∀ key port, Allowed cell.policy.trustedAddrs key port →
    ConfiguredLiteral parse cell.configured key port ∨
      ResolvedName parse cell.configured cell.resolved key port

theorem allowed_trust (parse : String → Option Url) (policy : Policy) (raw : String) :
    (∀ key port, Allowed (policy.trust parse raw).trustedNames key port →
      Allowed policy.trustedNames key port ∨ ConfiguredName parse [raw] key port) ∧
    ∀ key port, Allowed (policy.trust parse raw).trustedAddrs key port →
      Allowed policy.trustedAddrs key port ∨ ConfiguredLiteral parse [raw] key port := by
  have literal {host : Host} {ports : Ports} {ip : IpAddr}
      (parsed : urlHost parse raw = some (host, ports)) (is : host.ip = some ip) (key : IpAddr)
      (port : UInt16)
      (h : Allowed (mergeInto .merge policy.trustedAddrs (canonical ip) ports) key port) :
      Allowed policy.trustedAddrs key port ∨ ConfiguredLiteral parse [raw] key port := by
    rcases (granted_mergeInto allows_merge).mp h with old | ⟨same, allows⟩
    · exact .inl old
    · exact .inr ⟨raw, List.mem_singleton_self _, host, ports, ip, parsed, is, same, allows⟩
  unfold Policy.trust
  split
  · exact ⟨fun _ _ h => .inl h, fun _ _ h => .inl h⟩
  · rename_i v4 ports parsed
    exact ⟨fun _ _ h => .inl h, literal parsed rfl⟩
  · rename_i v6 ports parsed
    exact ⟨fun _ _ h => .inl h, literal parsed rfl⟩
  · rename_i name ports parsed
    refine ⟨fun key port h => ?_, fun _ _ h => .inl h⟩
    rcases (granted_mergeInto allows_merge).mp h with old | ⟨same, allows⟩
    · exact .inl old
    · exact .inr ⟨raw, List.mem_singleton_self _, name, ports, parsed, same, allows⟩

theorem ConfiguredName.mono {urls more : List String} {key : String} {port : UInt16}
    (configured : ConfiguredName parse urls key port) (subset : urls ⊆ more) :
    ConfiguredName parse more key port := by
  obtain ⟨raw, mem, rest⟩ := configured
  exact ⟨raw, subset mem, rest⟩

theorem ConfiguredLiteral.mono {urls more : List String} {key : IpAddr} {port : UInt16}
    (configured : ConfiguredLiteral parse urls key port) (subset : urls ⊆ more) :
    ConfiguredLiteral parse more key port := by
  obtain ⟨raw, mem, rest⟩ := configured
  exact ⟨raw, subset mem, rest⟩

theorem allowed_trusting (urls : List String) :
    (∀ key port, Allowed (Policy.trusting parse urls).trustedNames key port →
      ConfiguredName parse urls key port) ∧
    ∀ key port, Allowed (Policy.trusting parse urls).trustedAddrs key port →
      ConfiguredLiteral parse urls key port := by
  induction urls using List.reverseRecOn with
  | nil =>
    exact ⟨fun _ _ h => (not_granted_empty h).elim, fun _ _ h => (not_granted_empty h).elim⟩
  | append_singleton urls raw ih =>
    have last : Policy.trusting parse (urls ++ [raw]) =
        (Policy.trusting parse urls).trust parse raw := List.foldl_concat ..
    rw [last]
    obtain ⟨names, addrs⟩ := allowed_trust parse (Policy.trusting parse urls) raw
    constructor
    · intro key port h
      rcases names key port h with old | new
      · exact (ih.1 key port old).mono (List.subset_append_left _ _)
      · exact new.mono (List.subset_append_right _ _)
    · intro key port h
      rcases addrs key port h with old | new
      · exact (ih.2 key port old).mono (List.subset_append_left _ _)
      · exact new.mono (List.subset_append_right _ _)

theorem newCell_sound (urls : List String) : (newCell parse urls).Sound parse where
  names := (allowed_trusting urls).1
  addrs key port h := .inl ((allowed_trusting urls).2 key port h)

theorem Cell.Sound.resolve {cell : Cell} (sound : cell.Sound parse) (host : String)
    (addrs : List SocketAddr) : (cell.resolve host addrs).Sound parse := by
  have kept (key : IpAddr) (port : UInt16) (h : Allowed cell.policy.trustedAddrs key port) :
      ConfiguredLiteral parse cell.configured key port ∨
        ResolvedName parse cell.configured (cell.resolved ++ [⟨host, addrs⟩]) key port := by
    refine (sound.addrs key port h).imp_right ?_
    rintro ⟨resolution, mem, rest⟩
    exact ⟨resolution, List.mem_append_left _ mem, rest⟩
  unfold Cell.resolve Policy.remember
  split
  · rename_i ports named
    split
    · exact ⟨sound.names, kept⟩
    · refine ⟨sound.names, fun key port h => ?_⟩
      rcases (granted_foldl_mergeInto allows_merge addrs _).mp h with old | ⟨resolved, allows⟩
      · exact kept key port old
      · exact .inr ⟨⟨host, addrs⟩, List.mem_append_right _ (List.mem_singleton_self _),
          sound.names _ port ⟨ports, named, allows⟩, resolved⟩
  · exact ⟨sound.names, kept⟩

/-! ## Runs -/

def installedWith (actions : List Action) : Option (List String × Option (List String)) :=
  actions.findSome? fun action =>
    match action with
    | .installWithPlugins urls plugins => some (urls, plugins)
    | _ => none

def Separate (w : World) : Prop :=
  ∀ i, w.installing = some i ∨ w.pluginPolicy = some i → w.policy ≠ some i

structure Invariant (parse : String → Option Url) (actions : List Action) (w : World) : Prop where
  cells : ∀ cell ∈ w.heap, cell.Sound parse
  bare : installedWith actions = none →
    w.policy = none ∧ w.installing = none ∧ w.pluginPolicy = none
  installed : installedWith actions ≠ none → w.policy ≠ none
  separate : ∀ urls plugins, installedWith actions = some (urls, some plugins) → Separate w

theorem Invariant.quiet {actions : List Action} {w w' : World} {action : Action}
    (inv : Invariant parse actions w) (other : installedWith [action] = none)
    (cells : ∀ cell ∈ w'.heap, cell.Sound parse) (policy : w'.policy = w.policy)
    (refs : ∀ i, w'.installing = some i ∨ w'.pluginPolicy = some i →
      w.installing = some i ∨ w.pluginPolicy = some i) :
    Invariant parse (actions ++ [action]) w' := by
  have same : installedWith (actions ++ [action]) = installedWith actions := by
    rw [installedWith, List.findSome?_append, ← installedWith, ← installedWith, other,
      Option.or_none]
  have none_of (here : installedWith actions = none) (i : Nat) :
      ¬ (w'.installing = some i ∨ w'.pluginPolicy = some i) := by
    obtain ⟨-, installing, plugins⟩ := inv.bare here
    intro h
    have := refs i h
    simp [installing, plugins] at this
  refine ⟨cells, fun bare => ?_, fun installed => ?_, fun urls plugins separate => ?_⟩
  · rw [same] at bare
    refine ⟨policy.trans (inv.bare bare).1, ?_, ?_⟩
    · exact Option.eq_none_iff_forall_ne_some.mpr fun i h => none_of bare i (.inl h)
    · exact Option.eq_none_iff_forall_ne_some.mpr fun i h => none_of bare i (.inr h)
  · rw [policy]
    exact inv.installed (same ▸ installed)
  · intro i h
    rw [policy]
    exact inv.separate urls plugins (same ▸ separate) i (refs i h)

theorem sound_append {heap : List Cell} (cells : ∀ cell ∈ heap, cell.Sound parse)
    (lists : List (List String)) :
    ∀ cell ∈ heap ++ lists.map (newCell parse), cell.Sound parse := by
  intro cell mem
  rcases List.mem_append.mp mem with old | new
  · exact cells cell old
  · obtain ⟨urls, -, rfl⟩ := List.mem_map.mp new
    exact newCell_sound urls

theorem Invariant.install {actions : List Action} {w : World} (inv : Invariant parse actions w)
    (urls : List String) (plugins : Option (List String)) :
    Invariant parse (actions ++ [.installWithPlugins urls plugins])
      (w.install parse urls plugins) := by
  have cells := sound_append inv.cells (urls :: plugins.toList)
  rw [List.map_cons, ← Option.toList_map] at cells
  have concat : installedWith (actions ++ [.installWithPlugins urls plugins]) =
      (installedWith actions).or (some (urls, plugins)) := List.findSome?_append
  unfold World.install
  split
  · -- Something is installed, so there was an install before.
    rename_i i policy
    have before : installedWith actions ≠ none := fun bare => by
      rw [(inv.bare bare).1] at policy
      cases policy
    obtain ⟨first, here⟩ := Option.ne_none_iff_exists'.mp before
    rw [here, Option.some_or, ← here] at concat
    refine ⟨cells, fun bare => absurd (concat ▸ bare) before, fun _ => inv.installed before,
      fun urls plugins separate => ?_⟩
    exact inv.separate urls plugins (concat ▸ separate)
  · rename_i policy
    have bare : installedWith actions = none := by
      by_contra before
      exact inv.installed before policy
    obtain ⟨-, -, noPlugins⟩ := inv.bare bare
    rw [bare, Option.none_or] at concat
    refine ⟨cells, fun bare => ?_, fun _ => nofun, fun urls' plugins' separate => ?_⟩
    · rw [concat] at bare
      cases bare
    · rw [concat] at separate
      cases separate
      -- The two cells are one after the other.
      rintro i (h | h)
      · cases h
        simp
      · rw [noPlugins] at h
        cases h

theorem sound_set {heap : List Cell} {i : Nat} {cell : Cell}
    (cells : ∀ other ∈ heap, other.Sound parse) (sound : cell.Sound parse) :
    ∀ other ∈ heap.set i cell, other.Sound parse := by
  intro other mem
  rcases List.mem_or_eq_of_mem_set mem with old | rfl
  · exact cells other old
  · exact sound

theorem step_invariant {actions : List Action} {w w' : World} {action : Action}
    (inv : Invariant parse actions w) (step : w.step parse action = some w') :
    Invariant parse (actions ++ [action]) w' := by
  cases action with
  | trusting urls =>
    cases step
    refine inv.quiet rfl (fun cell mem => ?_) rfl fun _ h => h
    rcases List.mem_append.mp mem with old | new
    · exact inv.cells cell old
    · rw [List.mem_singleton.mp new]
      exact newCell_sound urls
  | installWithPlugins urls plugins =>
    cases step
    exact inv.install urls plugins
  | installPlugins =>
    obtain ⟨ref, installing, rfl⟩ := Option.map_eq_some_iff.mp step
    refine inv.quiet rfl inv.cells rfl fun i h => ?_
    rcases h with h | h
    · cases h
    · cases h
      exact .inl installing
  | resolve source host addrs =>
    rw [World.step] at step
    split at step
    · cases step
      exact inv.quiet rfl inv.cells rfl fun _ h => h
    · obtain ⟨cell, held, rfl⟩ := Option.map_eq_some_iff.mp step
      have sound := inv.cells cell (List.mem_of_getElem? held)
      exact inv.quiet rfl (sound_set inv.cells (sound.resolve host addrs)) rfl fun _ h => h
  | poison i =>
    obtain ⟨cell, held, rfl⟩ := Option.map_eq_some_iff.mp step
    have sound := inv.cells cell (List.mem_of_getElem? held)
    exact inv.quiet rfl (sound_set inv.cells ⟨sound.names, sound.addrs⟩) rfl fun _ h => h

theorem run_invariant {actions : List Action} {w : World}
    (run : (process parse).run actions = some w) : Invariant parse actions w := by
  refine Machine.induct ?_ (fun _ _ _ _ inv step => step_invariant inv step) run
  exact ⟨nofun, fun _ => ⟨rfl, rfl, rfl⟩, fun h => absurd rfl h, nofun⟩

/-! ## The main policy and the one for plugins -/

def resolveForPlugins (resolution : Resolution) : Action :=
  .resolve .plugins resolution.host resolution.addrs

theorem resolveForPlugins_keeps {w w' : World} {resolution : Resolution} (separate : Separate w)
    (step : w.step parse (resolveForPlugins resolution) = some w') :
    w'.cell .installed = w.cell .installed ∧ Separate w' := by
  rw [resolveForPlugins, World.step] at step
  split at step
  · cases step
    exact ⟨rfl, separate⟩
  · rename_i j plugins
    obtain ⟨cell, held, rfl⟩ := Option.map_eq_some_iff.mp step
    refine ⟨?_, separate⟩
    cases policy : w.policy with
    | none => simp [World.cell, World.ref, policy]
    | some i =>
      have apart : j ≠ i := fun same => separate j (.inr plugins) (same ▸ policy)
      simp [World.cell, World.ref, policy, List.getElem?_set_ne apart]

theorem runFrom_resolveForPlugins {w w' : World} {resolutions : List Resolution}
    (separate : Separate w)
    (run : (process parse).runFrom w (resolutions.map resolveForPlugins) = some w') :
    w'.cell .installed = w.cell .installed := by
  induction resolutions generalizing w with
  | nil =>
    cases run
    rfl
  | cons resolution resolutions ih =>
    obtain ⟨u, step, rest⟩ := Machine.runFrom_cons.mp run
    have stepped : w.step parse (resolveForPlugins resolution) = some u := step
    obtain ⟨same, separate⟩ := resolveForPlugins_keeps separate stepped
    exact (ih separate rest).trans same

theorem allowed_of_checkPeer {display : IpAddr → String} {policy : Policy} {ip : IpAddr}
    {port : UInt16} (admitted : checkPeer display (some policy) (some ⟨ip, port⟩) = .ok ())
    (notPublic : isPublic ip = false) : Allowed policy.trustedAddrs (canonical ip) port := by
  simp only [checkPeer] at admitted
  split at admitted
  · rename_i admits
    rw [Policy.admits, notPublic, Bool.false_or, Bool.and_eq_true] at admits
    exact (Option.any_eq_true _ _).mp admits.2
  · cases admitted

/-- After any run, a policy admits a connection to an address that is not public only if the
address is that of a configured IP literal that allows the port, or a configured name that
allows the port was resolved to it under this policy. If a separate policy for plugins was
installed, resolutions under it leave the main policy as it is. -/
theorem exemptions_sound {parse : String → Option Url} {actions : List Action} {w : World}
    (run : (process parse).run actions = some w) :
    (∀ (display : IpAddr → String) (source : Source) (cell : Cell) (ip : IpAddr) (port : UInt16),
      w.cell source = some cell →
      checkPeer display (some cell.policy) (some ⟨ip, port⟩) = .ok () → isPublic ip = false →
      ConfiguredLiteral parse cell.configured (canonical ip) port ∨
        ResolvedName parse cell.configured cell.resolved (canonical ip) port) ∧
    ∀ urls plugins, installedWith actions = some (urls, some plugins) →
      ∀ (resolutions : List Resolution) (w' : World),
        (process parse).runFrom w (resolutions.map resolveForPlugins) = some w' →
        (w'.cell .installed).map Cell.policy = (w.cell .installed).map Cell.policy := by
  have inv := run_invariant run
  constructor
  · intro display source cell ip port held admitted notPublic
    obtain ⟨i, -, found⟩ := Option.bind_eq_some_iff.mp held
    have sound := inv.cells cell (List.mem_of_getElem? found)
    exact sound.addrs _ _ (allowed_of_checkPeer admitted notPublic)
  · intro urls plugins installed resolutions w' more
    rw [runFrom_resolveForPlugins (inv.separate urls plugins installed) more]

/-! A configured name at a private address, and a host that only plugins may reach. -/

def sidecarParse : String → Option Url
  | "http://plc:2582" => some ⟨some (.domain "plc"), some 2582, some 2582⟩
  | "http://sidecar" => some ⟨some (.domain "sidecar"), none, some 80⟩
  | _ => none

def privateAddr (d : UInt8) : IpAddr := .v4 ⟨10, 0, 0, d⟩

def sidecarRun : List Action :=
  [.installWithPlugins ["http://plc:2582"] (some ["http://plc:2582", "sidecar"]), .installPlugins,
    .resolve .installed "PLC." [⟨privateAddr 5, 0⟩]]

def sidecarAdmits (w : World) (source : Source) (ip : IpAddr) (port : UInt16) : Bool :=
  (w.cell source).any fun cell =>
    checkPeer (fun _ => "") (some cell.policy) (some ⟨ip, port⟩) matches .ok ()

theorem exemptions_sound_sidecar :
    ∃ w, (process sidecarParse).run sidecarRun = some w ∧
      sidecarAdmits w .installed (privateAddr 5) 2582 = true ∧
      sidecarAdmits w .installed (privateAddr 5) 22 = false ∧
      (∃ cell, w.cell .installed = some cell ∧
        (ConfiguredLiteral sidecarParse cell.configured (privateAddr 5) 2582 ∨
          ResolvedName sidecarParse cell.configured cell.resolved (privateAddr 5) 2582)) ∧
      ∃ w', (process sidecarParse).runFrom w
          ([⟨"sidecar", [⟨privateAddr 9, 0⟩]⟩].map resolveForPlugins) = some w' ∧
        sidecarAdmits w' .plugins (privateAddr 9) 80 = true ∧
        (w'.cell .installed).map Cell.policy = (w.cell .installed).map Cell.policy := by
  obtain ⟨w, run, checked⟩ := (Option.any_eq_true _ _).mp (by decide +kernel :
    ((process sidecarParse).run sidecarRun).any (fun w =>
      sidecarAdmits w .installed (privateAddr 5) 2582 = true ∧
      sidecarAdmits w .installed (privateAddr 5) 22 = false ∧
      ((process sidecarParse).runFrom w
        ([⟨"sidecar", [⟨privateAddr 9, 0⟩]⟩].map resolveForPlugins)).any (fun w' =>
          sidecarAdmits w' .plugins (privateAddr 9) 80 = true)) = true)
  obtain ⟨admits, refuses, more⟩ := of_decide_eq_true checked
  obtain ⟨w', resolved, plugins⟩ := (Option.any_eq_true _ _).mp more
  obtain ⟨cell, held, admitted⟩ := (Option.any_eq_true _ _).mp admits
  have sound := exemptions_sound run
  refine ⟨w, run, admits, refuses, ⟨cell, held, ?_⟩, w', resolved, of_decide_eq_true plugins, ?_⟩
  · refine sound.1 (fun _ => "") .installed cell (privateAddr 5) 2582 held ?_ (by decide)
    split at admitted
    · assumption
    · cases admitted
  · exact sound.2 _ _ rfl _ _ resolved

/-! ## Nothing that is configured is refused -/

/-- The maps of the cell's policy allow all that its URLs and resolutions say. A poisoned map of
addresses is neither read nor written. -/
structure Cell.Complete (parse : String → Option Url) (cell : Cell) : Prop where
  names : ∀ key port, ConfiguredName parse cell.configured key port →
    Allowed cell.policy.trustedNames key port
  addrs : cell.policy.poisoned = false → ∀ key port,
    ConfiguredLiteral parse cell.configured key port ∨
      ResolvedName parse cell.configured cell.resolved key port →
    Allowed cell.policy.trustedAddrs key port

theorem trust_allowed (parse : String → Option Url) (policy : Policy) (raw : String) :
    (∀ key port, Allowed policy.trustedNames key port ∨ ConfiguredName parse [raw] key port →
      Allowed (policy.trust parse raw).trustedNames key port) ∧
    ∀ key port, Allowed policy.trustedAddrs key port ∨ ConfiguredLiteral parse [raw] key port →
      Allowed (policy.trust parse raw).trustedAddrs key port := by
  unfold Policy.trust
  constructor
  · rintro key port (old | ⟨raw', mem, host, ports, parsed, rfl, allows⟩)
    · split
      · exact old
      · exact old
      · exact old
      · exact (granted_mergeInto allows_merge).mpr (.inl old)
    · rw [List.mem_singleton.mp mem] at parsed
      rw [parsed]
      exact (granted_mergeInto allows_merge).mpr (.inr ⟨rfl, allows⟩)
  · rintro key port (old | ⟨raw', mem, host, ports, literal, parsed, is, rfl, allows⟩)
    · split
      · exact old
      · exact (granted_mergeInto allows_merge).mpr (.inl old)
      · exact (granted_mergeInto allows_merge).mpr (.inl old)
      · exact old
    · rw [List.mem_singleton.mp mem] at parsed
      rw [parsed]
      cases host with
      | domain name => cases is
      | ipv4 ip | ipv6 ip =>
        cases is
        exact (granted_mergeInto allows_merge).mpr (.inr ⟨rfl, allows⟩)

theorem trusting_allowed (urls : List String) :
    (∀ key port, ConfiguredName parse urls key port →
      Allowed (Policy.trusting parse urls).trustedNames key port) ∧
    ∀ key port, ConfiguredLiteral parse urls key port →
      Allowed (Policy.trusting parse urls).trustedAddrs key port := by
  induction urls using List.reverseRecOn with
  | nil =>
    constructor
    · rintro key port ⟨raw, mem, -⟩
      cases mem
    · rintro key port ⟨raw, mem, -⟩
      cases mem
  | append_singleton urls raw ih =>
    have last : Policy.trusting parse (urls ++ [raw]) =
        (Policy.trusting parse urls).trust parse raw := List.foldl_concat ..
    rw [last]
    obtain ⟨names, addrs⟩ := trust_allowed parse (Policy.trusting parse urls) raw
    constructor
    · rintro key port ⟨raw', mem, rest⟩
      refine names key port ((List.mem_append.mp mem).imp (fun old => ?_) fun new => ?_)
      · exact ih.1 key port ⟨raw', old, rest⟩
      · exact ⟨raw', new, rest⟩
    · rintro key port ⟨raw', mem, rest⟩
      refine addrs key port ((List.mem_append.mp mem).imp (fun old => ?_) fun new => ?_)
      · exact ih.2 key port ⟨raw', old, rest⟩
      · exact ⟨raw', new, rest⟩

theorem newCell_complete (urls : List String) : (newCell parse urls).Complete parse where
  names := (trusting_allowed urls).1
  addrs _ key port h := by
    rcases h with literal | ⟨resolution, mem, -⟩
    · exact (trusting_allowed urls).2 key port literal
    · cases mem

theorem Cell.Complete.resolve {cell : Cell} (complete : cell.Complete parse) (host : String)
    (addrs : List SocketAddr) : (cell.resolve host addrs).Complete parse := by
  unfold Cell.resolve Policy.remember
  cases named : cell.policy.namePorts host with
  | none =>
    refine ⟨complete.names, fun intact key port h => ?_⟩
    refine complete.addrs intact key port (h.imp_right ?_)
    rintro ⟨resolution, mem, configured, found⟩
    rcases List.mem_append.mp mem with old | new
    · exact ⟨resolution, old, configured, found⟩
    · cases List.mem_singleton.mp new
      obtain ⟨ports, held, -⟩ := complete.names _ _ configured
      cases named.symm.trans held
  | some ports =>
    dsimp only
    split
    · rename_i poisoned
      exact ⟨complete.names, fun intact => absurd (poisoned.symm.trans intact) (by decide)⟩
    · refine ⟨complete.names, fun intact key port h => ?_⟩
      refine (granted_foldl_mergeInto allows_merge addrs _).mpr ?_
      rcases h with literal | ⟨resolution, mem, configured, found⟩
      · exact .inl (complete.addrs intact key port (.inl literal))
      · rcases List.mem_append.mp mem with old | new
        · exact .inl (complete.addrs intact key port (.inr ⟨resolution, old, configured, found⟩))
        · cases List.mem_singleton.mp new
          obtain ⟨_, held, allows⟩ := complete.names _ _ configured
          cases named.symm.trans held
          exact .inr ⟨found, allows⟩

theorem step_complete {w w' : World} {action : Action}
    (cells : ∀ cell ∈ w.heap, cell.Complete parse) (step : w.step parse action = some w') :
    ∀ cell ∈ w'.heap, cell.Complete parse := by
  have more (lists : List (List String)) :
      ∀ cell ∈ w.heap ++ lists.map (newCell parse), cell.Complete parse := by
    intro cell mem
    rcases List.mem_append.mp mem with old | new
    · exact cells cell old
    · obtain ⟨urls, -, rfl⟩ := List.mem_map.mp new
      exact newCell_complete urls
  have changed {i : Nat} {cell : Cell} (complete : cell.Complete parse) :
      ∀ other ∈ w.heap.set i cell, other.Complete parse := by
    intro other mem
    rcases List.mem_or_eq_of_mem_set mem with old | rfl
    · exact cells other old
    · exact complete
  cases action with
  | trusting urls =>
    cases step
    exact more [urls]
  | installWithPlugins urls plugins =>
    cases step
    have both := more (urls :: plugins.toList)
    rw [List.map_cons, ← Option.toList_map] at both
    unfold World.install
    split <;> exact both
  | installPlugins =>
    obtain ⟨ref, -, rfl⟩ := Option.map_eq_some_iff.mp step
    exact cells
  | resolve source host addrs =>
    rw [World.step] at step
    split at step
    · cases step
      exact cells
    · obtain ⟨cell, held, rfl⟩ := Option.map_eq_some_iff.mp step
      exact changed ((cells cell (List.mem_of_getElem? held)).resolve host addrs)
  | poison i =>
    obtain ⟨cell, held, rfl⟩ := Option.map_eq_some_iff.mp step
    exact changed ⟨(cells cell (List.mem_of_getElem? held)).names, by simp⟩

/-- After any run, a policy that is not poisoned admits exactly the public addresses, the
configured IP literals on their ports, and whatever configured names were resolved to under it,
on the ports of these names. -/
theorem exemptions_exact (display : IpAddr → String) {actions : List Action} {w : World}
    (run : (process parse).run actions = some w) {source : Source} {cell : Cell}
    (held : w.cell source = some cell) (intact : cell.policy.poisoned = false) (ip : IpAddr)
    (port : UInt16) :
    checkPeer display (some cell.policy) (some ⟨ip, port⟩) = .ok () ↔
      isPublic ip = true ∨ ConfiguredLiteral parse cell.configured (canonical ip) port ∨
        ResolvedName parse cell.configured cell.resolved (canonical ip) port := by
  obtain ⟨i, -, found⟩ := Option.bind_eq_some_iff.mp held
  have mem := List.mem_of_getElem? found
  have sound := (run_invariant run).cells cell mem
  have cells : ∀ cell ∈ w.heap, cell.Complete parse :=
    Machine.induct (P := fun _ w => ∀ cell ∈ w.heap, cell.Complete parse) (by simp [process])
      (fun _ _ _ _ cells step => step_complete cells step) run
  constructor
  · intro admitted
    cases known : isPublic ip with
    | true => exact .inl rfl
    | false => exact .inr (sound.addrs _ _ (allowed_of_checkPeer admitted known))
  · intro exempt
    have admits : cell.policy.admits ip port = true := by
      rcases exempt with known | exempt
      · simp [Policy.admits, known]
      · obtain ⟨ports, lookup, allows⟩ := (cells cell mem).addrs intact _ _ exempt
        simp [Policy.admits, intact, lookup, allows]
    simp [checkPeer, admits]

theorem exemptions_exact_sidecar :
    ∃ w cell, (process sidecarParse).run sidecarRun = some w ∧ w.cell .installed = some cell ∧
      ¬ ResolvedName sidecarParse cell.configured cell.resolved (privateAddr 5) 22 := by
  obtain ⟨w, run, checked⟩ := (Option.any_eq_true _ _).mp (by decide +kernel :
    ((process sidecarParse).run sidecarRun).any (fun w => (w.cell .installed).any fun cell =>
      cell.policy.poisoned = false ∧ sidecarAdmits w .installed (privateAddr 5) 22 = false) = true)
  obtain ⟨cell, held, checked⟩ := (Option.any_eq_true _ _).mp checked
  obtain ⟨intact, refused⟩ := of_decide_eq_true checked
  refine ⟨w, cell, run, held, fun resolved => ?_⟩
  have admitted := (exemptions_exact (fun _ => "") run held intact (privateAddr 5) 22).mpr
    (.inr (.inr resolved))
  simp [sidecarAdmits, held, admitted] at refused

end HappyView.Outbound
