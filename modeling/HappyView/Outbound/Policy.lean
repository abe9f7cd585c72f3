import HappyView.Foundation.Grants
import HappyView.Foundation.Machine
import HappyView.Scopes.Permissions
import Mathlib.Data.Finset.Basic

/-!
# Outbound connections

Which addresses the process may connect to. A policy is made of the configured URLs: their IP
literals are exempt on the ports they name, and their names are, with whatever they resolve to.
The resolver adds what a configured name resolves to, and the check of a connected peer reads
it.

The policies live in a heap, since the one for plugins may be the main one.
-/

namespace HappyView.Outbound

open HappyView.Foundation HappyView.Scopes

/-! ## Addresses -/

structure Ipv4Addr where
  a : UInt8
  b : UInt8
  c : UInt8
  d : UInt8
  deriving DecidableEq

structure Ipv6Addr where
  s0 : UInt16
  s1 : UInt16
  s2 : UInt16
  s3 : UInt16
  s4 : UInt16
  s5 : UInt16
  s6 : UInt16
  s7 : UInt16
  deriving DecidableEq

inductive IpAddr where
  | v4 (ip : Ipv4Addr)
  | v6 (ip : Ipv6Addr)
  deriving DecidableEq

structure SocketAddr where
  ip : IpAddr
  port : UInt16
  deriving DecidableEq

def embeddedV4 (hi lo : UInt16) : Ipv4Addr :=
  ⟨(hi >>> 8).toUInt8, hi.toUInt8, (lo >>> 8).toUInt8, lo.toUInt8⟩

def toIpv4Mapped (ip : Ipv6Addr) : Option Ipv4Addr :=
  if ip.s0 = 0 ∧ ip.s1 = 0 ∧ ip.s2 = 0 ∧ ip.s3 = 0 ∧ ip.s4 = 0 ∧ ip.s5 = 0xffff then
    some (embeddedV4 ip.s6 ip.s7)
  else none

/-- An IPv4-mapped IPv6 address is judged, and remembered, as the IPv4 host it reaches. -/
def canonical (ip : IpAddr) : IpAddr :=
  match ip with
  | .v6 v6 =>
    match toIpv4Mapped v6 with
    | some v4 => .v4 v4
    | none => ip
  | .v4 _ => ip

def isPublicV4 (ip : Ipv4Addr) : Bool :=
  let ⟨a, b, c, _⟩ := ip
  !(a = 0
    || a = 10
    || a = 127
    || (a = 100 && (64 ≤ b && b < 128))
    || (a = 169 && b = 254)
    || (a = 172 && (16 ≤ b && b < 32))
    || (a = 192 && b = 0 && c = 0)
    || (a = 192 && b = 0 && c = 2)
    || (a = 192 && b = 168)
    || (a = 198 && (b = 18 || b = 19))
    || (a = 198 && b = 51 && c = 100)
    || (a = 203 && b = 0 && c = 113)
    || 224 ≤ a)

def isPublicV6 (ip : Ipv6Addr) : Bool :=
  -- The well-known prefix of NAT64, whose gateway connects to the embedded host.
  if ip.s0 = 0x0064 && ip.s1 = 0xff9b && ip.s2 = 0 && ip.s3 = 0 && ip.s4 = 0 && ip.s5 = 0 then
    isPublicV4 (embeddedV4 ip.s6 ip.s7)
  -- 6to4 carries its IPv4 relay address in the next 32 bits.
  else if ip.s0 = 0x2002 then isPublicV4 (embeddedV4 ip.s1 ip.s2)
  -- Global unicast is 2000::/3.
  else if ip.s0 &&& 0xe000 ≠ 0x2000 then false
  else
    !((ip.s0 = 0x2001 && ip.s1 = 0)
      || (ip.s0 = 0x2001 && ip.s1 = 0x0002 && ip.s2 = 0)
      || (ip.s0 = 0x2001 && (ip.s1 &&& 0xfff0) = 0x0010)
      || (ip.s0 = 0x2001 && (ip.s1 &&& 0xfff0) = 0x0020)
      || (ip.s0 = 0x2001 && ip.s1 = 0x0db8)
      || (ip.s0 &&& 0xfff0) = 0x3ff0)

def isPublic (ip : IpAddr) : Bool :=
  match canonical ip with
  | .v4 v4 => isPublicV4 v4
  | .v6 v6 => isPublicV6 v6

/-! ## Configured URLs -/

/-- The ports an exempt host may be reached on. -/
inductive Ports where
  | any
  | only (ports : Finset UInt16)
  deriving DecidableEq

def Ports.allows : Ports → UInt16 → Bool
  | .any, _ => true
  | .only ports, port => port ∈ ports

def Ports.merge : Ports → Ports → Ports
  | .any, _ => .any
  | _, .any => .any
  | .only mine, .only theirs => .only (mine ∪ theirs)

inductive Host where
  | ipv4 (ip : Ipv4Addr)
  | ipv6 (ip : Ipv6Addr)
  | domain (name : String)
  deriving DecidableEq

def Host.ip : Host → Option IpAddr
  | .ipv4 ip => some (.v4 ip)
  | .ipv6 ip => some (.v6 ip)
  | .domain _ => none

structure Url where
  host : Option Host
  /-- The port, unless it is the scheme's default. -/
  port : Option UInt16
  portOrKnownDefault : Option UInt16
  deriving DecidableEq

def trim (text : String) : String :=
  String.ofList ((text.toList.dropWhile isWhitespace).reverse.dropWhile isWhitespace).reverse

def trimEndMatches (c : Char) (text : String) : String :=
  String.ofList (text.toList.reverse.dropWhile (· == c)).reverse

/-- How a name is compared: without the dots at its end and in lower case. -/
def normalName (name : String) : String :=
  String.ofList ((trimEndMatches '.' name).toList.map Char.toLower)

def onlyPort (port : Option UInt16) : Ports := port.elim .any fun port => .only {port}

section Policy

variable (parse : String → Option Url)

def urlHost (raw : String) : Option (Host × Ports) :=
  let raw := trim raw
  if raw.isEmpty then none
  else match (parse raw).bind fun url => url.host.map (url, ·) with
    | some (url, host) => some (host, onlyPort url.portOrKnownDefault)
    | none => do
      -- A bare `host:port` parses as a scheme and a path with no host.
      let url ← parse ("http://" ++ raw)
      let host ← url.host
      return (host, onlyPort url.port)

/-! ## Policies -/

structure Policy where
  trustedNames : AList (fun _ : String => Ports) := ∅
  trustedAddrs : AList (fun _ : IpAddr => Ports) := ∅
  /-- Whether a thread panicked while it wrote `trustedAddrs`. -/
  poisoned : Bool := false

def Policy.trust (policy : Policy) (raw : String) : Policy :=
  match urlHost parse raw with
  | none => policy
  | some (.ipv4 v4, ports) =>
    { policy with
      trustedAddrs := mergeInto .merge policy.trustedAddrs (canonical (.v4 v4)) ports }
  | some (.ipv6 v6, ports) =>
    { policy with
      trustedAddrs := mergeInto .merge policy.trustedAddrs (canonical (.v6 v6)) ports }
  | some (.domain name, ports) =>
    { policy with trustedNames := mergeInto .merge policy.trustedNames (normalName name) ports }

def Policy.trusting (urls : List String) : Policy := urls.foldl (Policy.trust parse) {}

def Policy.namePorts (policy : Policy) (host : String) : Option Ports :=
  policy.trustedNames.lookup (normalName host)

def Policy.admits (policy : Policy) (ip : IpAddr) (port : UInt16) : Bool :=
  isPublic ip ||
    (!policy.poisoned && (policy.trustedAddrs.lookup (canonical ip)).any (·.allows port))

def refusal (message : String) : String := "refusing outbound connection: " ++ message

def Policy.remember (policy : Policy) (host : String) (addrs : List SocketAddr) : Policy :=
  match policy.namePorts host with
  | some ports =>
    if policy.poisoned then policy
    else
      { policy with
        trustedAddrs := addrs.foldl
          (fun trusted addr => mergeInto .merge trusted (canonical addr.ip) ports)
          policy.trustedAddrs }
  | none => policy

/-- Refuse a connected peer that the policy does not admit. -/
def checkPeer (display : IpAddr → String) (policy : Option Policy) (peer : Option SocketAddr) :
    Except String Unit :=
  match policy with
  | none => .ok ()
  | some policy =>
    match peer with
    | some addr =>
      if policy.admits addr.ip addr.port then .ok ()
      else .error (refusal (display addr.ip ++ " is not a public address"))
    | none => .error (refusal "the peer address could not be read")

/-! ## The process -/

structure Resolution where
  host : String
  addrs : List SocketAddr

structure Cell where
  configured : List String
  resolved : List Resolution := []
  policy : Policy

inductive Source where
  | installed
  | plugins
  | fixed (policy : Nat)

structure World where
  heap : List Cell := []
  policy : Option Nat := none
  /-- The policy for plugins, between the two writes of an install. -/
  installing : Option Nat := none
  pluginPolicy : Option Nat := none

def World.ref (w : World) : Source → Option Nat
  | .installed => w.policy
  | .plugins => w.pluginPolicy
  | .fixed policy => some policy

def World.cell (w : World) (source : Source) : Option Cell := (w.ref source).bind (w.heap[·]?)

inductive Action where
  | trusting (urls : List String)
  | installWithPlugins (urls : List String) (plugins : Option (List String))
  | installPlugins
  | resolve (source : Source) (host : String) (addrs : List SocketAddr)
  | poison (policy : Nat)

def newCell (urls : List String) : Cell := { configured := urls, policy := .trusting parse urls }

/-- The first of the two writes; only the first call has any effect. -/
def World.install (w : World) (urls : List String) (plugins : Option (List String)) : World :=
  let cells := newCell parse urls :: (plugins.map (newCell parse)).toList
  match w.policy with
  | some _ => { w with heap := w.heap ++ cells }
  | none =>
    { w with
      heap := w.heap ++ cells
      policy := some w.heap.length
      installing := some (w.heap.length + plugins.elim 0 fun _ => 1) }

def Cell.resolve (cell : Cell) (host : String) (addrs : List SocketAddr) : Cell :=
  { cell with
    resolved := cell.resolved ++ [⟨host, addrs⟩]
    policy := cell.policy.remember host addrs }

def World.step (w : World) : Action → Option World
  | .trusting urls => some { w with heap := w.heap ++ [newCell parse urls] }
  | .installWithPlugins urls plugins => some (w.install parse urls plugins)
  | .installPlugins =>
    w.installing.map fun ref => { w with installing := none, pluginPolicy := some ref }
  | .resolve source host addrs =>
    match w.ref source with
    | none => some w
    | some i => w.heap[i]?.map fun cell => { w with heap := w.heap.set i (cell.resolve host addrs) }
  | .poison i =>
    w.heap[i]?.map fun cell =>
      { w with heap := w.heap.set i { cell with policy := { cell.policy with poisoned := true } } }

def process : Machine World Action where
  start := {}
  step := World.step parse

end Policy

end HappyView.Outbound
