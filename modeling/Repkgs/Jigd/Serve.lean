import Repkgs.Lib.Runs
import Repkgs.Lib.ListUpdate
import Repkgs.Jigd.Request
import Repkgs.Jigd.Slots

/-!
# Connections and build slots

One `serve` goroutine per connection shares the `Slots` of the daemon. A
connection is in one of the places of `serve` where another goroutine can run:
before it reads a line, blocked in `Acquire`, back from `Acquire` but before
`held[build]++`, after `held[build]--` but before `Release`, before the reply
is flushed, and inside the deferred loop that returns its tokens.

A client that hangs up while its goroutine is blocked is noticed only when the
reply is written, so the blocked place has no step of its own.
-/

namespace Repkgs.Jigd

open Lib

/-- Where a connection's goroutine stands, with its own `held` map. -/
inductive Conn
  | reading (held : Multiset Bytes)
  | blocked (build : Bytes) (held : Multiset Bytes)
  | granted (build : Bytes) (held : Multiset Bytes)
  | releasing (build : Bytes) (held : Multiset Bytes)
  | replying (held : Multiset Bytes)
  | unwinding (held : Multiset Bytes)
  | ended
  deriving DecidableEq

/-- Tokens granted to the connection and not yet returned. -/
def Conn.tokens : Conn → Multiset Bytes
  | .reading held | .blocked _ held | .replying held | .unwinding held => held
  | .granted build held | .releasing build held => build ::ₘ held
  | .ended => 0

structure Daemon where
  slots : Slots
  conns : List Conn
  deriving DecidableEq

def Daemon.init (limit : Nat) : Daemon := ⟨Slots.new limit, []⟩

/-- `request` carries the line and, for requests that are not about slots,
whether they were served without error; `reply` whether the flush succeeded. -/
inductive ServeLabel
  | connect (allowed : Bool)
  | request (conn : Nat) (line : Bytes) (ok : Bool)
  | hangUp (conn : Nat)
  | resume (conn : Nat)
  | release (conn : Nat)
  | reply (conn : Nat) (ok : Bool)
  | unwind (conn : Nat) (build : Bytes)
  | finish (conn : Nat)
  deriving DecidableEq, Repr

/-- `close(w.ready)`: the blocked goroutine of a woken waiter may go on. -/
def wakeOne (conns : List Conn) (w : Waiter) : List Conn :=
  match conns[w.conn]? with
  | some (.blocked build held) => conns.set w.conn (.granted build held)
  | _ => conns

def wake (conns : List Conn) (ws : List Waiter) : List Conn := ws.foldl wakeOne conns

/-- `slots.Release(build)` by connection `c`, whose goroutine goes on as `next`. -/
def Daemon.releaseAs (d : Daemon) (c : Nat) (build : Bytes) (next : Conn) : Daemon :=
  let r := d.slots.release build
  ⟨r.1, wake (d.conns.set c next) r.2⟩

/-- One request of a connection that waits for a line. -/
def Daemon.request (d : Daemon) (c : Nat) (held : Multiset Bytes) (line : Bytes)
    (ok : Bool) : Daemon :=
  match parseRequest line with
  | .slot build =>
      let r := d.slots.acquire c build
      ⟨r.1, d.conns.set c (if r.2 then .granted build held else .blocked build held)⟩
  | .done build =>
      if build ∈ held then { d with conns := d.conns.set c (.releasing build (held.erase build)) }
      else { d with conns := d.conns.set c (.replying held) }
  | .malformed => { d with conns := d.conns.set c (.unwinding held) }
  | _ => { d with conns := d.conns.set c (if ok then .replying held else .unwinding held) }

/-- One step of one goroutine. -/
def serveStep (d : Daemon) : ServeLabel → Option Daemon
  | .connect allowed =>
      some { d with conns := d.conns ++ [if allowed then .reading 0 else .ended] }
  | .request c line ok =>
      match d.conns[c]? with
      | some (.reading held) => some (d.request c held line ok)
      | _ => none
  | .hangUp c =>
      match d.conns[c]? with
      | some (.reading held) => some { d with conns := d.conns.set c (.unwinding held) }
      | _ => none
  | .resume c =>
      match d.conns[c]? with
      | some (.granted build held) =>
          some { d with conns := d.conns.set c (.replying (build ::ₘ held)) }
      | _ => none
  | .release c =>
      match d.conns[c]? with
      | some (.releasing build held) => some (d.releaseAs c build (.replying held))
      | _ => none
  | .reply c ok =>
      match d.conns[c]? with
      | some (.replying held) =>
          some { d with conns := d.conns.set c (if ok then .reading held else .unwinding held) }
      | _ => none
  | .unwind c build =>
      match d.conns[c]? with
      | some (.unwinding held) =>
          if build ∈ held then some (d.releaseAs c build (.unwinding (held.erase build)))
          else none
      | _ => none
  | .finish c =>
      match d.conns[c]? with
      | some (.unwinding held) =>
          if held = 0 then some { d with conns := d.conns.set c .ended } else none
      | _ => none

end Repkgs.Jigd
