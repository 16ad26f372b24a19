import SparkDeck.Lib.Dict
import SparkDeck.Lib.Sweep

/-!
# The trailing generation speed (`manager.py`)

`_rolling_speed_for_samples` sweeps backward over the starts and ends of the samples and keeps the
last `USAGE_SPEED_WINDOW_TOKENS` tokens. Every float of the source is a rational here, so `deltas`,
the aggregate rate and the cut are exact. `rolling_generation_speed` sweeps the samples of every
origin on their own and adds the speeds.
-/

namespace SparkDeck.Speed

/-- `USAGE_SPEED_WINDOW_TOKENS` -/
def usageSpeedWindowTokens : ℚ := 1000000

/-- A sample of `_rolling_speed_for_samples`: `(ended_at, started_at, tokens)`. Its caller has left
out the others. -/
structure Sample where
  endedAt : ℚ
  startedAt : ℚ
  tokens : ℚ
  ordered : startedAt < endedAt
  positive : 0 < tokens
deriving DecidableEq

/-- The dictionary that is returned. -/
structure RollingSpeed where
  tokens : ℤ
  activeTimeS : ℚ
  tokS : Option ℚ
deriving DecidableEq

def Sample.rate (s : Sample) : ℚ := s.tokens / (s.endedAt - s.startedAt)

/-- `deltas[key] = deltas.get(key, 0.0) + rate` -/
def shift (deltas : Dict ℚ ℚ) (key rate : ℚ) : Dict ℚ ℚ :=
  deltas.insert key ((deltas.get key).getD 0 + rate)

def deltasOf (samples : List Sample) : Dict ℚ ℚ :=
  samples.foldl (fun deltas s => shift (shift deltas s.startedAt s.rate) s.endedAt (-s.rate))
    Dict.empty

/-- `sorted(deltas, reverse=True)` -/
def boundaries (deltas : Dict ℚ ℚ) : List ℚ := deltas.keys.sort (· ≥ ·)

structure Swept where
  selectedTokens : ℚ
  activeTime : ℚ
  aggregateRate : ℚ
deriving DecidableEq

/-- The loop over `boundaries[:-1]`; the list holds `upper` and the boundaries below it. -/
def sweep (deltas : Dict ℚ ℚ) : List ℚ → Swept → Swept
  | upper :: lower :: rest, st =>
    let aggregateRate := st.aggregateRate - (deltas.get upper).getD 0
    if aggregateRate ≤ 0 ∨ upper ≤ lower then
      sweep deltas (lower :: rest) { st with aggregateRate }
    else
      let intervalTokens := aggregateRate * (upper - lower)
      let remaining := usageSpeedWindowTokens - st.selectedTokens
      let usedTokens := min intervalTokens remaining
      let selectedTokens := st.selectedTokens + usedTokens
      let activeTime := st.activeTime + usedTokens / aggregateRate
      if usageSpeedWindowTokens ≤ selectedTokens then
        { selectedTokens, activeTime, aggregateRate }
      else
        sweep deltas (lower :: rest) { selectedTokens, activeTime, aggregateRate }
  | _, st => st

def swept (samples : List Sample) : Swept :=
  let deltas := deltasOf samples
  sweep deltas (boundaries deltas) ⟨0, 0, 0⟩

/-- `int(x)` of a float drops the fraction. -/
def int (x : ℚ) : ℤ := x.num.tdiv x.den

/-- `_rolling_speed_for_samples` -/
def rollingSpeedForSamples (samples : List Sample) : RollingSpeed :=
  if samples = [] then ⟨0, 0, none⟩
  else
    let st := swept samples
    { tokens := int st.selectedTokens
      activeTimeS := st.activeTime
      tokS := if 0 < st.activeTime then some (st.selectedTokens / st.activeTime) else none }

/-! ## `rolling_generation_speed` -/

/-- A stored sample; a field is `none` where `float()` of it raises. -/
structure Raw where
  tokens : Option ℚ
  startedAt : Option ℚ
  endedAt : Option ℚ
deriving DecidableEq

/-- The samples of one origin, by model. -/
abbrev SampleMap := Dict String (List Raw)

/-- An epoch as `_usage_version_key` reads it; `(0, "")` where there is none. -/
abbrev Version := ℕ × String

def epochOf (epochs : Dict String Version) (model : String) : Version :=
  (epochs.get model).getD (0, "")

/-- An origin of `token_usage_sync`. -/
structure Component where
  modelEpochs : Dict String Version
  speedSamples : SampleMap

def readSample (raw : Raw) : Option Sample :=
  match raw.tokens, raw.startedAt, raw.endedAt with
  | some tokens, some startedAt, some endedAt =>
    if h : tokens ≤ 0 ∨ endedAt ≤ startedAt then none
    else some ⟨endedAt, startedAt, tokens, Rat.not_le.mp (h ∘ .inr), Rat.not_le.mp (h ∘ .inl)⟩
  | _, _, _ => none

def samplesOf (models : List String) (sampleMap : SampleMap) : List Sample :=
  models.flatMap fun model => ((sampleMap.get model).getD []).filterMap readSample

/-- The models of an origin whose epoch is the ledger's own. -/
def eligible (globalEpochs : Dict String Version) (component : Component) : SampleMap :=
  component.speedSamples.filter fun model =>
    epochOf component.modelEpochs model = epochOf globalEpochs model

/-- Whether any map holds a sample of one of the models. -/
def anyHeld (models : List String) (sampleMaps : List SampleMap) : Bool :=
  sampleMaps.any fun sampleMap => models.any fun model => (sampleMap.get model).getD [] != []

def sampleMapsOf (models : List String) (globalEpochs : Dict String Version)
    (origins : List Component) (speedSamples : SampleMap) : List SampleMap :=
  let sampleMaps := origins.map (eligible globalEpochs)
  if anyHeld models sampleMaps then sampleMaps else [speedSamples]

/-- The speeds of the origins that have one. -/
def originSpeeds (models : List String) (sampleMaps : List SampleMap) : List RollingSpeed :=
  (sampleMaps.map fun sampleMap => rollingSpeedForSamples (samplesOf models sampleMap)).filter
    fun speed => speed.tokS.isSome

/-- `rolling_generation_speed` -/
def rollingGenerationSpeed (models : List String) (globalEpochs : Dict String Version)
    (origins : List Component) (speedSamples : SampleMap) : RollingSpeed :=
  let speeds := originSpeeds models (sampleMapsOf models globalEpochs origins speedSamples)
  if speeds = [] then ⟨0, 0, none⟩
  else
    let selectedTokens := (speeds.map RollingSpeed.tokens).sum
    let aggregateRate : ℚ := (speeds.map fun speed => speed.tokS.getD 0).sum
    { tokens := selectedTokens
      activeTimeS := if 0 < aggregateRate then selectedTokens / aggregateRate else 0
      tokS := if aggregateRate = 0 then none else some aggregateRate }

end SparkDeck.Speed
