import CarbonRelay.Dispatcher.Basic
import CarbonRelay.Server.Basic

/-!
# Listeners and configuration reloads

What happens to the sockets of the listeners when the relay starts and when its configuration is
read again (`relay.c:146 do_reload`): listeners that are gone are closed, those of the new
configuration take over the sockets of the ones they match, and the others open new ones. Which
sockets the system hands out, and whether binding them succeeds, is an input. A socket of a UDP
listener is served as a connection, and whether that can be added is an input too.
-/

namespace CarbonRelay

/-- `router.h:65 struct _router_listener`. It is known by its address in memory, `id`. The array
`socks` up to its `-1` is a list, and `addr` is the text of the first address in `saddrs`. -/
structure Listener where
  id : Nat
  transport : Transport
  ssl : Bool
  ctype : ConProto
  ip : Option Text
  port : Nat
  pemtime : Nat
  addr : Text
  socks : List Nat
  deriving DecidableEq, Repr

/-- The text by which an address is compared. The scan of `router_contains_listener` for a character
that is not in an address does not stop at the end of the text, as `strchr` finds that too, so a
text that is given is never replaced by the canonical form. -/
def Listener.name (l : Listener) : Text := l.ip.getD l.addr

/-- `router.c:2520`, the comparison of `router_contains_listener`. Addresses that were released by a
removal or a transplant before it is called have a text that is the name of no listener. -/
def listenerMatches (l r : Listener) : Bool :=
  l.transport = r.transport ∧ l.ssl = r.ssl ∧ l.ctype = r.ctype ∧
    if l.ctype = .unix then l.ip = r.ip
    else l.port = r.port ∧ l.name = r.name ∧ (l.ssl = true → l.pemtime = r.pemtime)

/-- `router.c:2506 router_contains_listener`. -/
def routerContainsListener (listeners : List Listener) (l : Listener) : Option Listener :=
  listeners.find? (listenerMatches l)

/-- The slots of `listeners` in use, with the listener in each, the open sockets that belong to
listeners, and the sockets of UDP listeners that have no connection. -/
structure Sockets where
  table : List Nat
  opened : List Nat
  unserved : List Nat
  deriving DecidableEq, Repr

/-- `dispatcher.c:43 MAX_LISTENERS`. -/
def maxListeners : Nat := 32

/-- `dispatcher.c:1095 __dispatch_removelistener`: the sockets that are left in the listener. One
that is neither a UDP listener nor in the table is left alone. -/
def dispatchRemovelistener (l : Listener) (S : Sockets) : Sockets × List Nat :=
  if l.ctype = .udp then ({ S with opened := S.opened.diff l.socks }, [])
  else if l.id ∈ S.table then
    ({ S with table := S.table.erase l.id, opened := S.opened.diff l.socks }, [])
  else (S, l.socks)

/-- `receptor.c:272 shutdownclose`. -/
def shutdownclose (socks : List Nat) (S : Sockets) : Sockets :=
  { S with opened := S.opened.diff socks }

/-- `dispatcher.c:1156 __dispatch_transplantlistener`: only a listener in the table is found. -/
def dispatchTransplantlistener (olsnr nlsnr : Listener) (S : Sockets) : Listener × Sockets :=
  if olsnr.id ∈ S.table then
    ({ nlsnr with socks := olsnr.socks },
      { S with table := S.table.map fun i => if i = olsnr.id then nlsnr.id else i })
  else ({ nlsnr with socks := [] }, S)

/-- How a listener is opened. When a unix socket cannot be bound, the closed socket stays in
`socks`. -/
inductive BindOutcome
  | opened (socks : List Nat)
  | failed
  | stale (sock : Nat)
  /-- For one of the sockets of a UDP listener no connection can be added, which may close it. Those
  after it are not tried. -/
  | unserved (before : List Nat) (sock : Nat) (closed : Bool) (after : List Nat)
  deriving DecidableEq, Repr

/-- `receptor.c:233 bindlisten`, and whether it succeeded. The system gives out sockets that are not
open. -/
def bindlisten (l : Listener) (S : Sockets) : BindOutcome → Option (Listener × Sockets × Bool)
  | .opened socks =>
    if socks.Nodup ∧ (∀ s ∈ socks, s ∉ S.opened) ∧ (l.ctype = .unix → socks.length = 1) then
      some ({ l with socks }, { S with opened := S.opened ++ socks }, true)
    else none
  | .failed => some ({ l with socks := [] }, S, false)
  | .stale sock =>
    if l.ctype = .unix ∧ sock ∉ S.opened then some ({ l with socks := [sock] }, S, false) else none
  | .unserved before sock _ after =>
    let socks := before ++ sock :: after
    if socks.Nodup ∧ (∀ s ∈ socks, s ∉ S.opened) ∧ l.ctype = .udp then
      some ({ l with socks }, { S with opened := S.opened ++ socks }, true)
    else none

/-- `dispatcher.c:1018 __dispatch_addlistener`: a UDP listener needs no slot, but a connection for
each socket. `dispatch_addconnection` closes a socket it has no room for, and others it fails for or
not. -/
def dispatchAddlistener (l : Listener) (b : BindOutcome) (S : Sockets) : Sockets :=
  if l.ctype = .udp then
    match b with
    | .unserved before sock closed after =>
      { S with
        opened := if closed then S.opened.erase sock else S.opened
        unserved := S.unserved.diff before ++ sock :: after }
    | _ => { S with unserved := S.unserved.diff l.socks }
  else if S.table.length < maxListeners then { S with table := S.table ++ [l.id] }
  else S

/-- `relay.c:239`, what a reload does with a listener of the new configuration. -/
def reloadListener (old : List Listener) (l : Listener) (b : BindOutcome) (S : Sockets) :
    Option (Listener × Sockets) :=
  match routerContainsListener old l with
  | some olsnr => some (dispatchTransplantlistener olsnr l S)
  | none =>
    match bindlisten l S b with
    | none => none
    | some (l, S, true) => some (l, dispatchAddlistener l b S)
    | some (l, S, false) => some (l, S)

/-- The loop over the listeners of the new configuration. -/
def reloadListeners (old : List Listener) : List (Listener × BindOutcome) → Sockets →
    Option (List Listener × Sockets)
  | [], S => some ([], S)
  | (l, b) :: cfg, S =>
    match reloadListener old l b S with
    | none => none
    | some (l, S) =>
      match reloadListeners old cfg S with
      | none => none
      | some (ls, S) => some (l :: ls, S)

/-- `relay.c:195`, the listeners that the new configuration does not have are closed. -/
def closeRemoved (new : List Listener) : List Listener → Sockets → Sockets
  | [], S => S
  | l :: old, S =>
    if routerContainsListener new l = none then
      let r := dispatchRemovelistener l S
      closeRemoved new old (shutdownclose r.2 r.1)
    else closeRemoved new old S

/-- The relay: the listeners of its router, and the sockets. -/
structure Relay where
  listeners : List Listener
  sockets : Sockets
  deriving DecidableEq, Repr

/-- The listeners of a configuration. `router_add_listener` refuses one that is there already. -/
def acceptedListeners (old new : List Listener) : Prop :=
  (new.map Listener.id).Nodup ∧ (∀ l ∈ old, l.id ∉ new.map Listener.id) ∧
    new.Pairwise fun l r => listenerMatches l r = false

instance (old new : List Listener) : Decidable (acceptedListeners old new) :=
  inferInstanceAs (Decidable (_ ∧ _ ∧ _))

/-- The listeners that are closed have a connection for each UDP socket. `dispatch_closeconnection`
follows the pointer to it. -/
def Relay.Removable (R : Relay) (new : List Listener) : Prop :=
  ∀ l ∈ R.listeners, routerContainsListener new l = none → l.ctype = .udp →
    ∀ s ∈ l.socks, s ∉ R.sockets.unserved

instance (R : Relay) (new : List Listener) : Decidable (R.Removable new) :=
  inferInstanceAs (Decidable (∀ l ∈ R.listeners, _))

/-- `relay.c:146 do_reload` with a configuration that was read and differs from the current one. -/
def doReload (R : Relay) (cfg : List (Listener × BindOutcome)) : Option Relay :=
  if acceptedListeners R.listeners (cfg.map Prod.fst) ∧ R.Removable (cfg.map Prod.fst) then
    match reloadListeners R.listeners cfg
        (closeRemoved (cfg.map Prod.fst) R.listeners R.sockets) with
    | none => none
    | some (listeners, sockets) => some ⟨listeners, sockets⟩
  else none

/-- `relay.c:977`: at the start every listener has to be bound and added. -/
def relayStart (cfg : List (Listener × List Nat)) : Option Relay :=
  if (cfg.filter fun p => p.1.ctype ≠ .udp).length ≤ maxListeners then
    doReload ⟨[], ⟨[], [], []⟩⟩ (cfg.map fun p => (p.1, .opened p.2))
  else none

/-- A signal to read the configuration again: it is not read or has not changed, or it is new. -/
inductive ReloadStep
  | unchanged
  | reload (cfg : List (Listener × BindOutcome))
  deriving DecidableEq, Repr

/-- The relay as a machine over reloads, which puts out the listeners before and the relay after
each. -/
def reloadStep (R : Relay) : ReloadStep → Option (Relay × List (List Listener × Relay))
  | .unchanged => some (R, [])
  | .reload cfg => (doReload R cfg).map fun R' => (R', [(R.listeners, R')])

end CarbonRelay
