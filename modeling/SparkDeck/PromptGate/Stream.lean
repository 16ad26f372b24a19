import Mathlib.Data.List.Basic
import SparkDeck.Lib.Transition

/-!
# `PromptGate.run` and `_PromptStream`

Model of one `PromptGate.run` call that has its lease, and of the `_PromptStream` it may hand off
(`sparkdeck/prompt_gate.py:23-39`, `:99-124`, `:185-273`, `sparkdeck/stream_cleanup.py:5-11`).

The tasks are the call itself, the factory's task, the producer, the watcher of the client's cancel
event, the reader a pull starts, the consumer, and any number of `aclose()` calls. A step is one
task running from one await point to the next, or the environment: the factory or the upstream
answers, the client cancels, a task is cancelled from outside. Labels can be taken in any order
their guards allow. Where asyncio's `call_soon` order decides (a watcher gets its first turn after
the producer, which was created before it; a pull continues after the reader it started or woke),
the guard says so.

The upstream is any stream. While it is pulled it may yield, end, fail, or start its own
asynchronous cleanup (`clean`); a `CancelledError` delivered at an await point (`interrupt`) goes
into it, and it goes on as it likes. The output detector is a parameter `feed`.

`Clean` is the condition under which `SparkDeck.PromptGate.StreamSafety` proves the run safe.
-/

namespace SparkDeck.PromptGate.Stream

open Transition Function

/-- `PromptLease.released`, and how often `gate.active` has been decremented for it. -/
structure Lease where
  released : Bool
  freed : Nat

def Lease.release (l : Lease) : Lease := if l.released then l else ⟨true, l.freed + 1⟩

/-- How the factory ended. -/
inductive Result where
  | stream
  | value
  | raised
  deriving DecidableEq

/-- Where `run` is. -/
inductive Run where
  /-- In `asyncio.wait((task, watcher))` or `asyncio.shield(task)`. -/
  | racing
  /-- In `_join_cleanup(task)`. -/
  | joining
  /-- In `close_async_stream(result)` of a stream that is not handed off. -/
  | discarding
  /-- Returned or raised with the lease released. -/
  | done
  | handedOff
  deriving DecidableEq

inductive Outcome where
  | ok
  | failed
  | cancelled
  deriving DecidableEq

/-- Where the producer task is. -/
inductive Producer (Chunk : Type*) where
  | unstarted
  | pulling
  /-- The upstream, being pulled, runs its own cleanup. -/
  | cleaning
  | putting (c : Chunk)
  /-- In `close_async_stream(self.upstream)`. -/
  | closing (o : Outcome)
  | done (o : Outcome)
  deriving DecidableEq

variable {D Chunk : Type*}

namespace Producer

/-- The producer's task is done. -/
def isDone : Producer Chunk → Bool
  | .done _ => true
  | _ => false

/-- The upstream is being pulled. -/
def isPulling : Producer Chunk → Bool
  | .pulling | .cleaning => true
  | _ => false

/-- The upstream is closing, by itself or in the producer's `finally`. -/
def isClosing : Producer Chunk → Bool
  | .cleaning | .closing _ => true
  | _ => false

end Producer

/-- The asynchronous close of the upstream. -/
inductive Close where
  | pending
  | completed
  | interrupted
  deriving DecidableEq

/-- The task that runs `queue.get()` for a pull. -/
inductive Reader (Chunk : Type*) where
  | none
  /-- Created or woken; its turn is to come. -/
  | scheduled
  | waiting
  | took (c : Chunk)
  deriving DecidableEq

/-- Where the consumer is. -/
inductive Consumer where
  | idle
  /-- In `asyncio.wait((reader, self.producer))`. -/
  | waiting
  /-- In `aclose` call `k`, with an exception to raise after it. -/
  | raising (k : Nat)
  deriving DecidableEq

/-- Where an `aclose` call is. -/
inductive Closer where
  | unused
  /-- In `_join_cleanup(self.producer)`. -/
  | joining
  /-- In `close_async_stream(self.upstream)`, for a producer that never started. -/
  | closing
  | done
  deriving DecidableEq

/-- The run, its stream and everything around them. -/
structure World (D Chunk : Type*) where
  hasCancel : Bool
  /-- `cancel.is_set()`. -/
  event : Bool
  run : Run
  /-- The factory's result, once it is there. -/
  factory : Option Result
  lease : Lease
  detector : D
  /-- History: `detector.feed` said that output was generated. -/
  detected : Bool
  close : Close
  producer : Producer Chunk
  started : Bool
  /-- `self.producer.cancelling() > 0`. -/
  requested : Bool
  /-- A `CancelledError` is to be thrown into the producer at its next turn. -/
  throwing : Bool
  /-- The done callback `_finished` is to come. -/
  callback : Bool
  /-- The watcher is alive. -/
  watcher : Bool
  /-- The queue, of one slot. -/
  queue : Option Chunk
  reader : Reader Chunk
  consumer : Consumer
  closers : Nat → Closer
  nextCloser : Nat
  /-- History: what the upstream yielded, what pulls returned. -/
  yielded : List Chunk
  got : List Chunk
  /-- History: `aclose()` was called. -/
  closed : Bool
  /-- History: a pull that raised dropped the chunk its reader had. -/
  lost : Bool
  /-- History: a pull raised `StopAsyncIteration` or the upstream's own exception. -/
  ended : Bool

namespace World

/-- `run` just after `acquire` returned and the factory's task was created. -/
def init (hasCancel : Bool) (detector : D) : World D Chunk where
  hasCancel := hasCancel
  event := false
  run := .racing
  factory := none
  lease := ⟨false, 0⟩
  detector := detector
  detected := false
  close := .pending
  producer := .unstarted
  started := false
  requested := false
  throwing := false
  callback := false
  watcher := false
  queue := none
  reader := .none
  consumer := .idle
  closers := fun _ => .unused
  nextCloser := 0
  yielded := []
  got := []
  closed := false
  lost := false
  ended := false

variable (s : World D Chunk)

def release : World D Chunk := { s with lease := s.lease.release }

/-- The upstream's close ends by itself. -/
def closeEnds : World D Chunk :=
  { s with close := if s.close = .interrupted then .interrupted else .completed }

/-- The upstream's close is ended by a `CancelledError`. -/
def closeCut : World D Chunk :=
  { s with close := if s.close = .completed then .completed else .interrupted }

/-- `run` after `_join_cleanup(task)`: a stream that came too late is closed. -/
def afterFactory : World D Chunk :=
  if s.factory = some .stream then { s with run := .discarding } else { s.release with run := .done }

/-- The `finally` of `run` without a hand-off. -/
def unwindRun : World D Chunk :=
  if s.factory.isSome then s.afterFactory else { s with run := .joining }

/-- `run` continues. -/
def proceed : World D Chunk :=
  match s.run with
  | .racing =>
    if !s.event && s.factory = some .stream then
      { s with run := .handedOff, watcher := s.hasCancel }
    else s.unwindRun
  | .joining => s.afterFactory
  | _ => s

/-- A task cancellation reaches `run`; `_join_cleanup` swallows it. -/
def throwRun : World D Chunk :=
  match s.run with
  | .racing => s.unwindRun
  | .discarding => { s.closeCut.release with run := .done }
  | _ => s

/-- `_cancel_once(self.producer)`. -/
def cancelOnce : World D Chunk :=
  if !s.producer.isDone && !s.requested then { s with requested := true, throwing := true } else s

/-- `aclose` call `k` after `_join_cleanup`. -/
def afterJoin (k : Nat) : World D Chunk :=
  if s.started then
    { s.release with closers := update s.closers k .done, watcher := false }
  else { s with closers := update s.closers k .closing }

/-- `aclose()` up to its first suspension. -/
def aclose : World D Chunk :=
  let k := s.nextCloser
  let s := cancelOnce { s with closed := true, nextCloser := k + 1 }
  if s.producer.isDone then s.afterJoin k
  else { s with closers := update s.closers k .joining }

/-- The end of an `aclose` that had to close the upstream itself. -/
def closerEnds (k : Nat) : World D Chunk :=
  { s.release with closers := update s.closers k .done, watcher := false }

/-- `if not self.lease.released and detector.feed(chunk): self.lease.release()`. -/
def observe (feed : D → Chunk → D × Bool) (c : Chunk) : World D Chunk :=
  if s.lease.released then s
  else
    let (d, hit) := feed s.detector c
    if hit then { s.release with detector := d, detected := true } else { s with detector := d }

/-- `queue.put` with room in the queue: a waiting reader is woken. -/
def putNow (c : Chunk) : World D Chunk :=
  { s with
    producer := .pulling
    queue := some c
    reader := match s.reader with
      | .waiting => .scheduled
      | r => r }

/-- `await self.queue.put(chunk)`. -/
def put (c : Chunk) : World D Chunk :=
  match s.queue with
  | none => s.putNow c
  | some _ => { s with producer := .putting c }

/-- The producer's task ends; `_finished` will be called. -/
def finish (o : Outcome) : World D Chunk := { s with producer := .done o, callback := true }

/-- A pull returns `c`. -/
def deliver (c : Chunk) : World D Chunk :=
  { s with got := s.got ++ [c], reader := .none, consumer := .idle }

/-- A pull calls `aclose()` and will raise after it. -/
def raiseAfterClose : World D Chunk := { s.aclose with consumer := .raising s.nextCloser }

/-- A pull comes to `await self.producer` of a producer that is done. -/
def endPull (o : Outcome) : World D Chunk :=
  if o = .cancelled then s.raiseAfterClose
  else { s with reader := .none, consumer := .idle, ended := true }

/-- `__anext__` up to its first suspension. -/
def pull : World D Chunk :=
  if s.event then s.raiseAfterClose
  else
    match s.queue with
    | some c => { s.deliver c with queue := none }
    | none =>
      match s.producer with
      | .done o => s.endPull o
      | _ => { s with reader := .scheduled, consumer := .waiting }

/-- `__anext__` after `asyncio.wait`. -/
def wake : World D Chunk :=
  if s.event then s.raiseAfterClose
  else
    match s.reader with
    | .took c => s.deliver c
    | _ =>
      match s.producer with
      | .done .ok =>
        match s.queue with
        | some c => { s.deliver c with queue := none }
        | none => s.endPull .ok
      | .done o => s.endPull o
      | _ => s

/-- The reader's turn. -/
def read : World D Chunk :=
  match s.queue with
  | some c => { s with queue := none, reader := .took c }
  | none => { s with reader := .waiting }

/-- The `finally` of a pull that raises: a chunk its reader has is dropped. -/
def raised : World D Chunk :=
  { s with
    consumer := .idle
    reader := .none
    lost := s.lost || match s.reader with
      | .took _ => true
      | _ => false }

end World

inductive Label (Chunk : Type*) where
  /-- The factory's task ends. -/
  | dispatched (r : Result)
  | proceed
  | discarded
  | throwRun
  | setEvent
  | start
  | chunk (c : Chunk)
  | clean
  | stop
  | fail (o : Outcome)
  | interrupt
  | put
  /-- The close in the producer's `finally` returns, or raises. -/
  | closeDone (error : Option Outcome)
  | finished
  | watch
  | pull
  | read
  | wake
  | throwPull
  | raised
  | aclose
  | join (k : Nat)
  | closerDone (k : Nat)
  | throwCloser (k : Nat)
  deriving DecidableEq

/-! ## Steps -/

/-- The label needs the stream to be there. -/
def Label.ofStream : Label Chunk → Bool
  | .dispatched _ | .proceed | .discarded | .throwRun | .setEvent => false
  | _ => true

/-- What the task or the environment that takes the label waits for. -/
def ready [DecidableEq Chunk] (s : World D Chunk) : Label Chunk → Bool
  | .dispatched _ => s.factory.isNone
  | .proceed =>
    match s.run with
    | .racing => s.factory.isSome || s.event
    | .joining => s.factory.isSome
    | _ => false
  | .discarded => s.run = .discarding
  | .throwRun => s.run = .racing || s.run = .joining || s.run = .discarding
  | .setEvent => s.hasCancel
  | .start => s.producer = .unstarted
  | .chunk _ => s.producer = .pulling && !s.throwing
  | .clean => s.producer = .pulling && !s.throwing
  | .stop => s.producer.isPulling && !s.throwing
  | .fail o => s.producer.isPulling && !s.throwing && o != .ok
  | .interrupt => (s.producer = .pulling || s.producer.isClosing) && s.throwing
  | .put =>
    match s.producer with
    | .putting _ => s.throwing || s.queue.isNone
    | _ => false
  | .closeDone _ =>
    match s.producer with
    | .closing _ => !s.throwing
    | _ => false
  | .finished => s.callback
  | .watch => s.watcher && s.event && s.producer != .unstarted
  | .pull => s.consumer = .idle
  | .read => s.reader = .scheduled
  | .wake => s.consumer = .waiting &&
    match s.reader with
    | .took _ => true
    | .waiting => s.producer.isDone
    | _ => false
  | .throwPull => s.consumer = .waiting
  | .raised =>
    match s.consumer with
    | .raising k => s.closers k = .done
    | _ => false
  | .aclose => true
  | .join k => s.closers k = .joining && s.producer.isDone
  | .closerDone k => s.closers k = .closing
  | .throwCloser k => s.closers k = .joining || s.closers k = .closing

def enabled [DecidableEq Chunk] (s : World D Chunk) (e : Label Chunk) : Bool :=
  (!e.ofStream || s.run = .handedOff) && ready s e

/-- What a label does. -/
def effect (feed : D → Chunk → D × Bool) (s : World D Chunk) : Label Chunk → World D Chunk
  | .dispatched r => { s with factory := some r }
  | .proceed => s.proceed
  | .discarded => { s.closeEnds.release with run := .done }
  | .throwRun => s.throwRun
  | .setEvent => { s with event := true }
  -- a task cancelled before its first turn runs none of its body
  | .start =>
    if s.throwing then { s.finish .cancelled with throwing := false }
    else { s with producer := .pulling, started := true }
  | .chunk c => ({ s with yielded := s.yielded ++ [c] }.observe feed c).put c
  | .clean => { s with producer := .cleaning }
  | .stop => { s with producer := .closing .ok }
  | .fail o => { s with producer := .closing o }
  | .interrupt =>
    let s := { s with throwing := false }
    if s.producer.isClosing then s.closeCut else s
  | .put =>
    match s.producer with
    | .putting c =>
      if s.throwing then { s with producer := .closing .cancelled, throwing := false }
      else s.putNow c
    | _ => s
  | .closeDone error =>
    match s.producer with
    | .closing o => s.closeEnds.release.finish (error.getD o)
    | _ => s
  | .finished => { s.release with callback := false, watcher := false }
  | .watch => { s.cancelOnce with watcher := false }
  | .pull => s.pull
  | .read => s.read
  | .wake => s.wake
  | .throwPull => s.raiseAfterClose
  | .raised => s.raised
  | .aclose => s.aclose
  | .join k => s.afterJoin k
  | .closerDone k => s.closeEnds.closerEnds k
  -- `_join_cleanup` swallows the cancellation
  | .throwCloser k => if s.closers k = .closing then s.closeCut.closerEnds k else s

def step [DecidableEq Chunk] (feed : D → Chunk → D × Bool) (s : World D Chunk)
    (e : Label Chunk) : Option (World D Chunk) :=
  if enabled s e then some (effect feed s e) else none

/-! ## The condition -/

/-- A first cancel request would reach a producer that has not had its first turn, or interrupt the
upstream's close while the lease is held. -/
def fragile (s : World D Chunk) : Bool :=
  !s.lease.released && !s.requested &&
    match s.producer with
    | .unstarted | .cleaning | .closing _ => true
    | _ => false

/-- The label calls `_cancel_once(self.producer)`. -/
def requests (s : World D Chunk) : Label Chunk → Bool
  | .watch | .aclose | .throwPull => true
  | .pull | .wake => s.event
  | _ => false

/-- No cancel request reaches a fragile producer, no task cancellation reaches `run` while it
closes a stream it does not hand off, and nobody pulls again after a cancelled pull dropped a
chunk. -/
structure Clean (s : World D Chunk) (e : Label Chunk) : Prop where
  request : requests s e = true → fragile s = false
  discard : e = .throwRun → s.run ≠ .discarding
  resume : e = .pull → s.lost → s.event

/-- Nothing of the run is left: it ended without a hand-off, or the producer and its callback
ran. -/
def isOver (s : World D Chunk) : Bool :=
  s.run = .done || s.run = .handedOff && s.producer.isDone && !s.callback

end SparkDeck.PromptGate.Stream
