import Bthread.Lib.Machine
import Bthread.Lib.Segment

set_option relaxedAutoImplicit false
set_option autoImplicit false

/-!
# Writing to a socket

Any number of threads write messages to one fd. A thread puts its request into `_write_head` by one
exchange; who has found the head empty has the right to write, everybody else links its request to
the one before and leaves. The writer, or the `KeepWrite` bthread that goes on in its place, takes
the requests that have come in meanwhile, turns their list around and writes them, until an exchange
of the head with `NULL` tells that there are no more.

Requests come from an object pool and go back to it. `KeepWrite` runs in a new bthread, or in the
thread that has failed to start one; in either case it is followed here as the same call.

Where a write or a connect fails, `ReleaseAllFailedWriteRequests` goes on, and where a connect is
left pending, `KeepWriteIfConnected`. Their code is not at hand, so a call ends there, and the
results are about runs that do not come to it.

## Main definitions

* `Bthread.Writing.Mem`, `Bthread.Writing.Pc`, `Bthread.Writing.code` — `StartWrite`, `KeepWrite`
  and `IsWriteComplete`, access by access.
* `Bthread.Writing.machine` — any number of threads, any interleaving.
* `Bthread.Writing.GoesOn` — the steps at which nothing fails and no connect is left pending.
-/

namespace Bthread.Writing

open Conc (Config Program Seg)

variable {ι P B : Type*}

/-- `WriteRequest::next`. -/
inductive Link (P : Type*)
  | unconnected
  /-- `NULL` or a request. -/
  | to (r : Option P)
  deriving DecidableEq

/-- The memory of a socket and its requests. -/
structure Mem (P B : Type*) where
  /-- `_write_head`. -/
  writeHead : Option P
  /-- `WriteRequest::next`. -/
  next : P → Link P
  /-- `WriteRequest::data`: what is still to be written. -/
  data : P → List B
  /-- The request is out of the object pool. -/
  live : P → Bool
  /-- What was written into the fd. -/
  fd : List B
  /-- History: the messages in the order of the exchanges. -/
  accepted : List (List B)
  /-- History: the number of the message in a request. -/
  serial : P → ℕ
  /-- History: the messages whose `Setup` was called, in order. -/
  setups : List ℕ
  /-- History: the messages whose request was given to `ReturnSuccessfulWriteRequest`. -/
  returned : List ℕ

/-- The callers of `IsWriteComplete`, each with its `req`. -/
inductive Caller (P : Type*)
  | startWrite (req : P)
  | keepWrite (req : P)
  deriving DecidableEq

/-- Where a call is. -/
inductive Pc (P : Type*)
  | idle
  -- `StartWrite`
  | exchange (req : P)
  | link (req prev : P)
  | setNull (req : P)
  | connect (req : P)
  -- `KeepWriteIfConnected` will go on
  | connecting (req : P)
  | setup (req : P)
  | write (req : P)
  -- `IsWriteComplete(old_head, singular_node, new_tail)`
  | check (k : Caller P) (oldHead : P)
  | test (k : Caller P) (oldHead : P)
  | cas (k : Caller P) (oldHead : P) (noMore : Bool)
  | reverse (k : Caller P) (oldHead newHead : P) (tail : Option P) (p : P)
  | join (k : Caller P) (oldHead newHead : P) (tail : Option P)
  | setupNew (k : Caller P) (newHead : P) (q : Option P)
  -- `KeepWrite`, with `cur_tail`
  | keepTop (req : P) (curTail : Option P)
  -- `DoWrite` has written `nw` bytes and has come to `q`
  | doWrite (req : P) (curTail : Option P) (q : P) (nw : ℕ)
  | release (req : P) (curTail : Option P) (full : Bool)
  | waitEpollOut (req : P) (curTail : Option P)
  | findTail (req t : P)
  -- `ReleaseAllFailedWriteRequests` will go on
  | failed (req : P)
  -- `ReturnSuccessfulWriteRequest` of the last request
  | ret (req : P)
  -- a `CHECK` has failed, or `UNCONNECTED` was followed
  | broken
  deriving DecidableEq

/-- What the memory does not decide. -/
inductive Outcome
  /-- Connected, no SSL, `EPOLLOUT` or its timeout. -/
  | ok
  /-- Connecting, SSL, `EAGAIN`. -/
  | other
  | error
  /-- A write of `n` bytes of a request, which goes on with the next request or not. -/
  | bytes (n : ℕ) (more : Bool)
  deriving DecidableEq

/-- A step: a call of `StartWrite`, or the next access. -/
inductive Move (P B : Type*)
  | call (req : P) (data : List B)
  | step (o : Outcome)

/-- The `req` of the caller. -/
def Caller.req : Caller P → P
  | startWrite req | keepWrite req => req

/-- `IsWriteComplete` has returned `false`, with `*new_tail` set for `KeepWrite`. -/
def Caller.more (newTail : P) : Caller P → Pc P
  | startWrite req => .keepTop req none
  | keepWrite req => .keepTop req (some newTail)

namespace Mem

variable [DecidableEq P]

/-- A request from the pool. -/
def take (req : P) (data : List B) (m : Mem P B) : Mem P B :=
  { m with
    live := Function.update m.live req true
    next := Function.update m.next req .unconnected
    data := Function.update m.data req data }

/-- The exchange of `_write_head`. -/
def push (req : P) (m : Mem P B) : Mem P B :=
  { m with
    writeHead := some req
    accepted := m.accepted ++ [m.data req]
    serial := Function.update m.serial req m.accepted.length }

/-- Writing a link. -/
def setNext (req : P) (l : Option P) (m : Mem P B) : Mem P B :=
  { m with next := Function.update m.next req (.to l) }

/-- `Setup`. -/
def setup (req : P) (m : Mem P B) : Mem P B :=
  { m with setups := m.setups ++ [m.serial req] }

/-- Writing the first `n` bytes of a request. -/
def cut (req : P) (n : ℕ) (m : Mem P B) : Mem P B :=
  { m with
    fd := m.fd ++ (m.data req).take n
    data := Function.update m.data req ((m.data req).drop n) }

/-- `ReturnSuccessfulWriteRequest`. -/
def give (req : P) (m : Mem P B) : Mem P B :=
  { m with
    live := Function.update m.live req false
    returned := m.returned ++ [m.serial req] }

end Mem

variable [DecidableEq P]

/-- `KeepWrite` after its write and its wait. -/
def afterWrite (req : P) : Option P → Pc P
  | none => .findTail req req
  | some t => .check (.keepWrite req) t

/-- One access of a call. -/
def code (_t : ι) (p : Pc P) (k : Move P B) (m : Mem P B) : Option (Mem P B × Pc P) :=
  match p, k with
  | .idle, .call req data =>
    if m.live req = false then some (m.take req data, .exchange req) else none
  | .exchange req, .step _ =>
    some (m.push req, match m.writeHead with
      | some prev => .link req prev
      | none => .setNull req)
  | .link req prev, .step _ => some (m.setNext req (some prev), .idle)
  | .setNull req, .step _ => some (m.setNext req none, .connect req)
  | .connect req, .step .ok => some (m, .setup req)
  | .connect req, .step .other => some (m, .connecting req)
  | .connect req, .step .error => some (m, .failed req)
  | .setup req, .step .ok => some (m.setup req, .write req)
  | .setup req, .step .other => some (m.setup req, .keepTop req none)
  | .write req, .step (.bytes n _) => some (m.cut req n, .check (.startWrite req) req)
  | .write req, .step .other => some (m, .check (.startWrite req) req)
  | .write req, .step .error => some (m, .failed req)
  | .check k old, .step _ => some (m, if m.next old = .to none then .test k old else .broken)
  | .test k old, .step _ => some (m, .cas k old (m.data old = [] ∧ k.req = old))
  | .cas k old noMore, .step _ =>
    match m.writeHead with
    | none => some (m, .broken)
    | some newHead =>
      if newHead = old then
        if noMore then
          -- `CHECK_EQ(cur_tail, req)` of `KeepWrite`
          some ({ m with writeHead := none }, if k.req = old then .ret old else .broken)
        else some (m, k.more old)
      else some (m, .reverse k old newHead none newHead)
  | .reverse k old newHead tail p, .step _ =>
    match m.next p with
    | .unconnected => some (m, .reverse k old newHead tail p)
    | .to none => some (m.setNext p tail, .broken)
    | .to (some saved) =>
      some (m.setNext p tail, if saved = old then .join k old newHead (some p)
        else .reverse k old newHead (some p) saved)
  | .join k old newHead tail, .step _ => some (m.setNext old tail, .setupNew k newHead tail)
  | .setupNew k newHead none, .step _ => some (m, k.more newHead)
  | .setupNew k newHead (some q), .step _ =>
    some (m.setup q, match m.next q with
      | .to q' => .setupNew k newHead q'
      | .unconnected => .broken)
  | .keepTop req curTail, .step _ =>
    match m.next req with
    | .to none => some (m, .doWrite req curTail req 0)
    | .to (some req') =>
      if m.data req = [] then some (m.give req, .doWrite req' curTail req' 0)
      else some (m, .doWrite req curTail req 0)
    | .unconnected => some (m, .broken)
  | .doWrite req curTail q nw, .step (.bytes n more) =>
    some (m.cut q n, match m.next q with
      | .to (some q') =>
        if more ∧ (m.data q).length ≤ n then .doWrite req curTail q' (nw + (m.data q).length)
        else .release req curTail (nw + min n (m.data q).length = 0)
      | .to none => .release req curTail (nw + min n (m.data q).length = 0)
      | .unconnected => .broken)
  | .doWrite req curTail _ 0, .step .other => some (m, .release req curTail true)
  | .doWrite req _ _ 0, .step .error => some (m, .failed req)
  | .release req curTail full, .step _ =>
    match m.next req with
    | .to (some req') =>
      if m.data req = [] then some (m.give req, .release req' curTail full)
      else some (m, if full then .waitEpollOut req curTail else afterWrite req curTail)
    | .to none => some (m, if full then .waitEpollOut req curTail else afterWrite req curTail)
    | .unconnected => some (m, .broken)
  | .waitEpollOut req curTail, .step .ok => some (m, afterWrite req curTail)
  | .waitEpollOut req _, .step .error => some (m, .failed req)
  | .findTail req t, .step _ =>
    match m.next t with
    | .to none => some (m, .check (.keepWrite req) t)
    | .to (some t') => some (m, .findTail req t')
    | .unconnected => some (m, .broken)
  | .ret req, .step _ => some (m.give req, .idle)
  | _, _ => none

/-- Only an idle thread makes a call. -/
theorem code_call_of_ne {p : Pc P} (hp : p ≠ .idle) (t : ι) (req : P) (data : List B)
    (m : Mem P B) : code t p (.call req data) m = none := by
  cases p <;> simp_all [code]

/-- The interleaved calls. -/
def program : Program ι (Mem P B) (Pc P) (Move P B) where
  code := code

/-- The memory at the start: no request is out of the pool. -/
structure Mem.Initial (m : Mem P B) : Prop where
  writeHead : m.writeHead = none
  live : ∀ r, m.live r = false
  fd : m.fd = []
  accepted : m.accepted = []
  setups : m.setups = []
  returned : m.returned = []

/-- Any number of threads, any interleaving. -/
def machine [DecidableEq ι] : Conc.Machine (Config ι (Mem P B) (Pc P)) (ι × Move P B) :=
  program.machine Mem.Initial .idle

/-- Nothing fails in the step, and it leaves no connect pending. -/
def GoesOn (s : Config ι (Mem P B) (Pc P)) (x : ι × Move P B) : Prop :=
  x.2 ≠ .step .error ∧ ∀ req, s.pc x.1 = .connect req → x.2 ≠ .step .other

end Bthread.Writing
