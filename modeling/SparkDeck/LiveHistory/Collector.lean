import Mathlib.Algebra.GroupWithZero.Nat
import Mathlib.Algebra.Order.Ring.Rat
import SparkDeck.Lib.Assoc
import SparkDeck.Lib.Transition

/-!
# The collector of the live history

Model of `LiveHistory` (`sparkdeck/live_metrics.py`): `start`, `end`, `tick`, `_accumulate`,
`_fold_sample`, `_Series.flush_pending`, `_close_bucket` and `_retire`, with the manager's side of
them: the records of `_active_reqs`, `_track_start`, `_track_output`, `_track_prompt_processing`,
`_track_end`, the pause of a stream that is replayed, and the dashboard, which empties the windows
of old timestamps.

* A serving unit is the key of its group (`_series_key`); the empty key is no unit. `admitted` are
  the keys of the admission's snapshots. A record that is there has an identity (`id(rec)`) that no
  other one has; the identity of a record that has ended may come back.
* A window counts as what it is tested for: whether it is empty.
* `closed` has every closed bucket of a series; the deque keeps the last 3600 of them. What a bucket
  publishes beside its totals (rates, peaks, concurrency, states, wall-clock times) is left out.
* `parts`, `episodes` and `observed` are not the code's: no function of the source reads them. They
  say what a bucket received from whom, which totals of a request have been observed, and which
  measurements.
-/

namespace SparkDeck.LiveHistory

/-! ## Records -/

inductive Session where
  | output
  | thinking
  | prefill
  deriving DecidableEq

/-- A record of `_active_reqs`, of the request with the number `rid`. -/
structure Record where
  rid : ℕ
  id : ℕ
  unit : String
  paused : Bool
  output : Bool
  thinking : Bool
  totalTokens : ℕ
  ppTokens : ℕ
  ppTime : ℚ

/-- `_session_state` -/
def Record.state (r : Record) : Session :=
  if r.output then .output else if r.thinking then .thinking else .prefill

/-- The record has a measurement of its prompt. -/
def Record.measured (r : Record) : Bool := 0 < r.ppTokens && 0 < r.ppTime

/-! ## Buckets -/

/-- Tokens of one request, those after the `first` up to the `last`. -/
structure Part where
  rid : ℕ
  first : ℕ
  last : ℕ

def Part.tokens (p : Part) : ℕ := p.last - p.first

structure Bucket where
  samples : ℕ
  outputTokens : ℕ
  thinkingTokens : ℕ
  promptTokens : ℕ
  promptSeconds : ℚ
  parts : List Part

/-- `reset_open` -/
def Bucket.empty : Bucket := ⟨0, 0, 0, 0, 0, []⟩

/-- Output and thinking tokens. -/
def Bucket.tokens (b : Bucket) : ℕ := b.outputTokens + b.thinkingTokens

/-- The counters of requests that have ended. -/
structure Pending where
  output : ℕ
  thinking : ℕ
  promptTokens : ℕ
  promptSeconds : ℚ

namespace Pending

def empty : Pending := ⟨0, 0, 0, 0⟩

/-- `series.pending[state] += tokens` -/
def capture (state : Session) (tokens : ℕ) (p : Pending) : Pending :=
  match state with
  | .output => { p with output := p.output + tokens }
  | .thinking => { p with thinking := p.thinking + tokens }
  | .prefill => p

/-- The measurement of a record that ends. -/
def prompt (r : Record) (p : Pending) : Pending :=
  { p with
    promptTokens := p.promptTokens + r.ppTokens
    promptSeconds := max p.promptSeconds r.ppTime }

end Pending

/-! ## Series -/

/-- The ticks that have observed a request in a unit, one after another: the total at the first of
them, and the last total observed. -/
structure Episode where
  rid : ℕ
  first : ℕ
  last : ℕ
  current : Bool
  deriving DecidableEq

def Episode.tokens (e : Episode) : ℕ := e.last - e.first

/-- A current episode of the request. -/
def Episode.follows (rid : ℕ) (e : Episode) : Bool := e.current && e.rid = rid

/-- The episode goes on to a total. -/
def Episode.extend (r : Record) (e : Episode) : Episode :=
  if e.follows r.rid then { e with last := r.totalTokens } else e

/-- `_Series` -/
structure Series where
  previous : List (ℕ × Session × ℕ)
  countedPrompt : List (ℕ × ℕ)
  pending : Pending
  openStartedAt : ℚ
  lastSeenAt : ℚ
  /-- The open bucket. -/
  opened : Bucket
  closed : List (ℚ × Bucket)
  episodes : List Episode
  /-- The requests whose measurement has been observed, with its tokens. -/
  observed : List (ℕ × ℕ)

namespace Series

def new (now : ℚ) : Series := ⟨[], [], .empty, now, now, .empty, [], [], []⟩

/-- `flush_pending` -/
def flushPending (s : Series) : Series :=
  { s with
    opened :=
      { s.opened with
        outputTokens := s.opened.outputTokens + s.pending.output
        thinkingTokens := s.opened.thinkingTokens + s.pending.thinking
        promptTokens := s.opened.promptTokens + s.pending.promptTokens
        promptSeconds := max s.opened.promptSeconds s.pending.promptSeconds }
    pending := .empty }

/-- What a record adds to `deltas[state]`. -/
def delta (previous : List (ℕ × Session × ℕ)) (state : Session) (r : Record) : ℕ :=
  match Assoc.get previous r.id with
  | some (_, tokens) => if r.state = state then r.totalTokens - tokens else 0
  | none => 0

/-- `deltas[state]` of `_fold_sample`. -/
def deltas (previous : List (ℕ × Session × ℕ)) (state : Session) (records : List Record) : ℕ :=
  (records.map (delta previous state)).sum

/-- A measurement in `_fold_sample`. -/
def countPrompt (s : Series) (r : Record) : Series :=
  if r.measured = false || (Assoc.get s.countedPrompt r.id).any (r.ppTokens ≤ ·) then s
  else
    { s with
      countedPrompt := Assoc.set s.countedPrompt r.id r.ppTokens
      opened :=
        { s.opened with
          promptTokens := s.opened.promptTokens + r.ppTokens
          promptSeconds := max s.opened.promptSeconds r.ppTime } }

/-- `_fold_sample` -/
def foldSample (records : List Record) (s : Series) : Series :=
  records.foldl countPrompt
    { s with
      previous := records.map fun r => (r.id, r.state, r.totalTokens)
      opened :=
        { s.opened with
          outputTokens := s.opened.outputTokens + deltas s.previous .output records
          thinkingTokens := s.opened.thinkingTokens + deltas s.previous .thinking records } }

/-- `_close_bucket` -/
def closeBucket (closedAt : ℚ) (s : Series) : Series :=
  if s.opened.samples = 0 then s else { s with closed := s.closed ++ [(closedAt, s.opened)] }

/-- The sample of `_accumulate`; there is none for a unit without requests. -/
def gather (entry : Option (List Record)) (s : Series) : Series :=
  let s := s.flushPending
  let s := { s with opened := { s.opened with samples := s.opened.samples + 1 } }
  match entry with
  | some records => s.foldSample records
  | none => s

/-- `_accumulate` -/
def accumulate (entry : Option (List Record)) (now : ℚ) (interval : ℕ) (s : Series) : Series :=
  if interval ≤ now - s.openStartedAt then
    { (s.gather entry).closeBucket (s.openStartedAt + interval) with
      openStartedAt := now
      opened := .empty }
  else s.gather entry

/-- What `tick` does to a series with live requests. -/
def sample (records : List Record) (now : ℚ) (interval : ℕ) (s : Series) : Series :=
  { s with
    lastSeenAt := now
    previous := s.previous.filter fun x => records.any fun r => r.id = x.1 }.accumulate
      (some records) now interval

/-- What `tick` does to a series without. -/
def idle (now : ℚ) (interval : ℕ) (s : Series) : Series :=
  { s with previous := [] }.accumulate none now interval

/-- The counters that `end` captures of a record. -/
def captured (s : Series) (r : Record) : Pending :=
  let pending :=
    match Assoc.get s.previous r.id with
    | some (_, tokens) => s.pending.capture r.state (r.totalTokens - tokens)
    | none => s.pending
  if r.measured then pending.prompt r else pending

/-- What `end` does to the series of a record that is not paused. -/
def finish (r : Record) (s : Series) : Series :=
  let s := s.flushPending
  { s with previous := Assoc.erase s.previous r.id, pending := s.captured r }.flushPending

end Series

/-! ## What is observed -/

namespace Series

/-- The tokens that a record gives to the open bucket. -/
def part (s : Series) (r : Record) : Option Part :=
  match Assoc.get s.previous r.id with
  | some (_, tokens) =>
    if r.state ≠ .prefill ∧ tokens < r.totalTokens then some ⟨r.rid, tokens, r.totalTokens⟩ else none
  | none => none

/-- A measurement is observed. -/
def observe (observed : List (ℕ × ℕ)) (r : Record) : List (ℕ × ℕ) :=
  if r.measured && observed.all (fun x => x.1 ≠ r.rid) then observed ++ [(r.rid, r.ppTokens)]
  else observed

/-- A tick observes a total. -/
def sight (episodes : List Episode) (r : Record) : List Episode :=
  if episodes.any (Episode.follows r.rid) then episodes.map (Episode.extend r)
  else episodes ++ [⟨r.rid, r.totalTokens, r.totalTokens, true⟩]

/-- The current episodes of a request are over. -/
def lapse (gone : ℕ → Bool) (episodes : List Episode) : List Episode :=
  episodes.map fun e => if gone e.rid then { e with current := false } else e

/-- What a tick observes. -/
def note (records : List Record) (s : Series) : Series :=
  { s with
    opened := { s.opened with parts := s.opened.parts ++ records.filterMap s.part }
    episodes :=
      records.foldl sight (lapse (fun rid => !records.any fun r => r.rid = rid) s.episodes)
    observed := records.foldl observe s.observed }

/-- What the end hook observes. -/
def noteEnd (r : Record) (s : Series) : Series :=
  { s with
    opened := { s.opened with parts := s.opened.parts ++ (s.part r).toList }
    episodes := s.episodes.map (Episode.extend r)
    observed := observe s.observed r }

def parts (s : Series) : List Part := (s.closed.flatMap fun b => b.2.parts) ++ s.opened.parts

/-- Output and thinking tokens over all buckets. -/
def tokens (s : Series) : ℕ := (s.closed.map fun b => b.2.tokens).sum + s.opened.tokens

/-- Prompt tokens over all buckets. -/
def promptTokens (s : Series) : ℕ :=
  (s.closed.map fun b => b.2.promptTokens).sum + s.opened.promptTokens

end Series

/-! ## The collector -/

structure History where
  series : List (String × Series)
  live : List (String × ℕ)

namespace History

/-- `start` -/
def start (h : History) (unit : String) : History :=
  if unit = "" then h
  else { h with live := Assoc.set h.live unit ((Assoc.get h.live unit).getD 0 + 1) }

/-- `end` -/
def «end» (h : History) (r : Record) : History :=
  if r.unit = "" then h
  else
    let running := (Assoc.get h.live r.unit).getD 0
    let h : History :=
      { h with
        live :=
          if 1 < running then Assoc.set h.live r.unit (running - 1) else Assoc.erase h.live r.unit }
    match Assoc.get h.series r.unit with
    | some s =>
      if r.paused then h
      else { h with series := Assoc.set h.series r.unit ((s.noteEnd r).finish r) }
    | none => h

/-- The records that a tick observes in a unit. -/
def records (active : List Record) (unit : String) : List Record :=
  active.filter fun r => !r.paused && r.unit = unit

/-- The keys of `observed`. -/
def units (active : List Record) (admitted : List String) : List String :=
  (((active.filter fun r => !r.paused).map Record.unit ++ admitted).filter (· ≠ "")).eraseDups

/-- The key that `min` finds. -/
def oldest : List (String × Series) → Option (String × Series)
  | [] => none
  | x :: rest =>
    match oldest rest with
    | some y => if y.2.lastSeenAt < x.2.lastSeenAt then some y else some x
    | none => some x

/-- `while len(self._series) > MAX_SERIES`, as often as there are too many. -/
def evict : ℕ → List (String × Series) → List (String × Series)
  | 0, series => series
  | n + 1, series =>
    match oldest series with
    | some x => evict n (Assoc.erase series x.1)
    | none => series

/-- `_retire` -/
def retire (now : ℚ) (h : History) : History :=
  let series := h.series.filter fun x =>
    !((Assoc.get h.live x.1).isNone && decide (900 < now - x.2.lastSeenAt))
  { h with series := evict (series.length - 32) series }

/-- `tick` -/
def tick (h : History) (active : List Record) (now : ℚ) (admitted : List String) (interval : ℕ) :
    History :=
  let keys := units active admitted
  let fresh := (keys.filter fun key => (Assoc.get h.series key).isNone).map fun key =>
    (key, Series.new now)
  let series := (h.series ++ fresh).map fun x =>
    (x.1,
      if x.1 ∈ keys then (x.2.note (records active x.1)).sample (records active x.1) now interval
      else (x.2.note []).idle now interval)
  { h with series }.retire now

/-- The episodes of a request that is gone are over. -/
def leave (h : History) (rid : ℕ) : History :=
  { h with
    series := h.series.map fun x =>
      (x.1, { x.2 with episodes := Series.lapse (fun i => i = rid) x.2.episodes }) }

end History

/-! ## Runs -/

structure State where
  active : List Record
  /-- `_req_seq` -/
  next : ℕ
  history : History

/-- A call; `enabled` is the setting that it reads. -/
inductive Label where
  | start (id : ℕ) (unit : String) (enabled : Bool)
  /-- `_track_output` of both kinds. -/
  | emit (rid thinking output : ℕ)
  /-- The dashboard drops the timestamps that are too old. -/
  | drain (rid : ℕ) (thinking output : Bool)
  | measure (rid tokens : ℕ) (seconds : ℚ)
  | pause (rid : ℕ)
  | resume (rid : ℕ) (unit : String)
  | end (rid : ℕ) (enabled : Bool)
  | tick (now : ℚ) (admitted : List String) (interval : ℕ) (enabled : Bool)

namespace State

def find (s : State) (rid : ℕ) : Option Record := s.active.find? fun r => r.rid = rid

/-- The record of a request is written. -/
def write (s : State) (r : Record) : State :=
  { s with active := s.active.map fun x => if x.rid = r.rid then r else x }

/-- `_track_start` -/
def trackStart (s : State) (id : ℕ) (unit : String) (enabled : Bool) : Option State :=
  if s.active.any fun r => r.id = id then none
  else
    some
      { active := s.active ++ [⟨s.next, id, unit, false, false, false, 0, 0, 0⟩]
        next := s.next + 1
        history := if enabled then s.history.start unit else s.history }

/-- `_track_end` -/
def trackEnd (s : State) (rid : ℕ) (enabled : Bool) : Option State := do
  let r ← s.find rid
  some
    { s with
      active := s.active.filter fun x => x.rid ≠ rid
      history := (if enabled then s.history.end r else s.history).leave rid }

end State

def step (s : State) : Label → Option State
  | .start id unit enabled => s.trackStart id unit enabled
  | .emit rid thinking output => do
    let r ← s.find rid
    some (s.write
      { r with
        totalTokens := r.totalTokens + thinking + output
        thinking := r.thinking || 0 < thinking
        output := r.output || 0 < output })
  | .drain rid thinking output => do
    let r ← s.find rid
    some (s.write { r with thinking := r.thinking && thinking, output := r.output && output })
  | .measure rid tokens seconds => do
    let r ← s.find rid
    -- `_track_prompt_processing` writes nothing else; a request has one final measurement
    if tokens = 0 ∨ seconds ≤ 0 then some s
    else if r.measured ∧ (r.ppTokens ≠ tokens ∨ r.ppTime ≠ seconds) then none
    else some (s.write { r with ppTokens := tokens, ppTime := seconds })
  | .pause rid => do
    let r ← s.find rid
    some (s.write { r with paused := true })
  | .resume rid unit => do
    let r ← s.find rid
    -- only a stream that has sent nothing is replayed elsewhere
    if unit = r.unit ∨ (r.totalTokens = 0 ∧ r.measured = false) then
      some (s.write { r with paused := false, unit })
    else none
  | .end rid enabled => s.trackEnd rid enabled
  | .tick now admitted interval enabled =>
    some { s with
      history := if enabled then s.history.tick s.active now admitted interval else s.history }

def init : State := ⟨[], 0, ⟨[], []⟩⟩

end SparkDeck.LiveHistory
