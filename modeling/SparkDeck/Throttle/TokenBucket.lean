import Mathlib.Data.List.Infix
import Mathlib.Tactic.Ring
import SparkDeck.Lib.Schedule

/-!
# The token bucket

Model of `TokenBucket` (`sparkdeck/download_throttle.py`) and of `poll_rate` and `spend` of the
proxy script (`sparkdeck/throttled_image_pull.py`), over exact rationals. The calls of a run are in
the order of their lock sections; `late` is how much longer than asked a thread is away, from the
end of its lock section to its return.

* **`cap_enforced`**: in every run the reservations follow one another, a stretch of them takes at
  least its bytes at their rates, and what returns in a window is within the rate over the window
  and the lateness, and one more reservation.
* `returned_late`: without the lateness that bound fails.
-/

namespace SparkDeck.Throttle

open Schedule

/-- A rate in bytes a second. -/
abbrev Rate := {rate : ℚ // 0 < rate}

structure TokenBucket where
  rate : Rate
  due : ℚ := 0
  unlimited : Bool := false

namespace TokenBucket

/-- `TokenBucket.__init__`; `none` is its `ValueError`. -/
def init (bytesPerSecond : ℚ) : Option TokenBucket :=
  if h : 0 < bytesPerSecond then some { rate := ⟨bytesPerSecond, h⟩ } else none

/-- `TokenBucket.set_rate`, of what `float` makes of its argument; `none` is its exception. -/
def setRate (b : TokenBucket) : Option ℚ → TokenBucket
  | none => b
  | some rate =>
    if h : 0 < rate then { b with rate := ⟨rate, h⟩, unlimited := false }
    else { b with unlimited := true }

/-- `TokenBucket.acquire` at the reading `now` of the clock, with the time that it sleeps; `none`
where it returns without a reservation. -/
def acquire (b : TokenBucket) (now : ℚ) (count : ℤ) : TokenBucket × Option ℚ :=
  if count ≤ 0 then (b, none)
  else if b.unlimited then (b, none)
  else
    let due := max now b.due + count / b.rate.1
    ({ b with due }, some (due - now))

end TokenBucket

/-- The rate and the schedule of the proxy script; `rate = none` is `float("inf")`. -/
structure Proxy where
  rate : Option Rate
  rateFile : Bool
  due : ℚ := 0
  total : ℤ := 0
  lastRatePoll : ℚ := 0

/-- The seconds that `count` bytes take. -/
def charge (count : ℤ) : Option Rate → ℚ
  | none => 0
  | some rate => count / rate.1

namespace Proxy

/-- `poll_rate`; `file = none` is the `OSError` or the `ValueError`. -/
def pollRate (p : Proxy) (now : ℚ) (file : Option ℚ) : Proxy :=
  if !p.rateFile then p
  else if now - p.lastRatePoll < 1 / 2 then p
  else
    let p := { p with lastRatePoll := now }
    match file with
    | none => p
    | some value => { p with rate := if h : 0 < value then some ⟨value, h⟩ else none }

/-- The lock section of `spend`, with the time that it sleeps. -/
def spend (p : Proxy) (now : ℚ) (n : ℤ) : Proxy × Option ℚ :=
  if n ≤ 0 then (p, none)
  else
    let due := max now p.due + charge n p.rate
    ({ p with due, total := p.total + n }, some (due - now))

end Proxy

/-! ## Runs -/

/-- A reservation that was made at `called` and whose call returned at `returned`. -/
structure Reservation where
  called : ℚ
  start : ℚ
  count : ℤ
  rate : Option Rate
  due : ℚ
  returned : ℚ

/-- The reservation of a call that found the due time `before`. -/
def reserved (now before wait : ℚ) (count : ℤ) (rate : Option Rate) (late : ℚ≥0) : Reservation where
  called := now
  start := max now before
  count := count
  rate := rate
  due := now + wait
  returned := now + (if 0 < wait then wait else 0) + late

inductive Call where
  | setRate (bytesPerSecond : Option ℚ)
  | acquire (now : ℚ) (count : ℤ) (late : ℚ≥0)

/-- The reservations of a run. -/
def TokenBucket.run (b : TokenBucket) : List Call → List Reservation
  | [] => []
  | .setRate rate :: calls => (b.setRate rate).run calls
  | .acquire now count late :: calls =>
    match b.acquire now count with
    | (b', none) => b'.run calls
    | (b', some wait) => reserved now b.due wait count (some b.rate) late :: b'.run calls

inductive ProxyCall where
  | pollRate (now : ℚ) (file : Option ℚ)
  | spend (now : ℚ) (n : ℤ) (late : ℚ≥0)

def Proxy.run (p : Proxy) : List ProxyCall → List Reservation
  | [] => []
  | .pollRate now file :: calls => (p.pollRate now file).run calls
  | .spend now n late :: calls =>
    match p.spend now n with
    | (p', none) => p'.run calls
    | (p', some wait) => reserved now p.due wait n p.rate late :: p'.run calls

/-! ## One reservation -/

namespace Reservation

/-- The seconds that a reservation takes at its rate. -/
def cost (r : Reservation) : ℚ := charge r.count r.rate

def slot (r : Reservation) : Slot ℚ := ⟨r.called, r.start, r.cost, r.due⟩

/-- What the code gives a reservation, whatever the run. -/
structure Fair (r : Reservation) : Prop where
  count_pos : 0 < r.count
  due_le : r.due ≤ r.returned

end Reservation

theorem charge_nonneg {count : ℤ} (h : 0 < count) (rate : Option Rate) : 0 ≤ charge count rate := by
  cases rate with
  | none => exact le_rfl
  | some rate => exact div_nonneg (Int.cast_nonneg h.le) rate.2.le

theorem Reservation.Fair.cost_nonneg {r : Reservation} (h : r.Fair) : 0 ≤ r.cost :=
  charge_nonneg h.count_pos r.rate

theorem reserved_fair {now before wait : ℚ} {count : ℤ} (rate : Option Rate) (late : ℚ≥0)
    (h : 0 < count) : (reserved now before wait count rate late).Fair := by
  refine ⟨h, ?_⟩
  have hlate : (0 : ℚ) ≤ late := late.2
  unfold reserved
  split <;> linarith

/-- The specification of `acquire`: it leaves the bucket as it is, or makes a reservation. -/
theorem TokenBucket.acquire_cases (b : TokenBucket) (now : ℚ) (count : ℤ) :
    b.acquire now count = (b, none) ∨ 0 < count ∧ ∃ wait,
      now + wait = max now b.due + charge count (some b.rate) ∧
      b.acquire now count = ({ b with due := now + wait }, some wait) := by
  unfold acquire
  split
  case isTrue => exact Or.inl rfl
  case isFalse hcount =>
    split
    case isTrue => exact Or.inl rfl
    case isFalse =>
      refine Or.inr ⟨not_le.mp hcount, max now b.due + count / b.rate.1 - now, ?_, ?_⟩
      · rw [add_sub_cancel]
        rfl
      · rw [add_sub_cancel]

theorem Proxy.spend_cases (p : Proxy) (now : ℚ) (n : ℤ) :
    p.spend now n = (p, none) ∨ 0 < n ∧ ∃ wait,
      now + wait = max now p.due + charge n p.rate ∧
      p.spend now n = ({ p with due := now + wait, total := p.total + n }, some wait) := by
  unfold spend
  split
  case isTrue => exact Or.inl rfl
  case isFalse hn =>
    refine Or.inr ⟨not_le.mp hn, max now p.due + charge n p.rate - now, ?_, ?_⟩ <;>
      rw [add_sub_cancel]

theorem TokenBucket.setRate_due (b : TokenBucket) (rate : Option ℚ) :
    (b.setRate rate).due = b.due := by
  unfold setRate
  cases rate with
  | none => rfl
  | some rate =>
    dsimp only
    split <;> rfl

theorem Proxy.pollRate_due (p : Proxy) (now : ℚ) (file : Option ℚ) :
    (p.pollRate now file).due = p.due := by
  unfold pollRate
  split
  case isTrue => rfl
  case isFalse =>
    split
    case isTrue => rfl
    case isFalse => cases file <;> rfl

/-! ## A run is a schedule -/

theorem TokenBucket.run_chain (b : TokenBucket) (calls : List Call) :
    Chain b.due ((b.run calls).map Reservation.slot) ∧ ∀ r ∈ b.run calls, r.Fair := by
  induction calls generalizing b with
  | nil => exact ⟨trivial, fun r hr => absurd hr List.not_mem_nil⟩
  | cons c calls ih =>
    cases c with
    | setRate rate =>
      have h := ih (b.setRate rate)
      rw [setRate_due] at h
      exact h
    | acquire now count late =>
      unfold run
      obtain hb | ⟨hcount, wait, hwait, hb⟩ := b.acquire_cases now count
      · rw [hb]
        exact ih b
      · obtain ⟨hchain, hfair⟩ := ih { b with due := now + wait }
        rw [hb]
        refine ⟨⟨rfl, hwait, hchain⟩, ?_⟩
        rintro r (_ | ⟨_, hr⟩)
        · exact reserved_fair _ late hcount
        · exact hfair r hr

theorem Proxy.run_chain (p : Proxy) (calls : List ProxyCall) :
    Chain p.due ((p.run calls).map Reservation.slot) ∧ ∀ r ∈ p.run calls, r.Fair := by
  induction calls generalizing p with
  | nil => exact ⟨trivial, fun r hr => absurd hr List.not_mem_nil⟩
  | cons c calls ih =>
    cases c with
    | pollRate now file =>
      have h := ih (p.pollRate now file)
      rw [pollRate_due] at h
      exact h
    | spend now n late =>
      unfold run
      obtain hp | ⟨hn, wait, hwait, hp⟩ := p.spend_cases now n
      · rw [hp]
        exact ih p
      · obtain ⟨hchain, hfair⟩ := ih { p with due := now + wait, total := p.total + n }
        rw [hp]
        refine ⟨⟨rfl, hwait, hchain⟩, ?_⟩
        rintro r (_ | ⟨_, hr⟩)
        · exact reserved_fair _ late hn
        · exact hfair r hr

/-! ## The cap is enforced -/

/-- The bytes of reservations. -/
def bytes (rs : List Reservation) : ℤ := (rs.map Reservation.count).sum

/-- The seconds that reservations take at their rates. -/
def seconds (rs : List Reservation) : ℚ := (rs.map Reservation.cost).sum

/-- The reservations from the position `i` to the position `j`. -/
def between (rs : List Reservation) (i j : ℕ) : List Reservation := (rs.drop i).take (j + 1 - i)

/-- The reservations whose calls return from `lo` to `hi`. -/
def returnedIn (rs : List Reservation) (lo hi : ℚ) : List Reservation :=
  rs.filter fun r => lo ≤ r.returned ∧ r.returned ≤ hi

/-- The reservations `rs`, from the due time `due` on, keep to their rates. -/
structure Capped (due : ℚ) (rs : List Reservation) : Prop where
  ordered : rs.Pairwise fun r r' => r.due ≤ r'.due
  not_early : ∀ r ∈ rs, r.called ≤ r.due
  first : ∀ r, rs.head? = some r → r.start = max r.called due
  next : ∀ i (h : i + 1 < rs.length), rs[i + 1].start = max rs[i + 1].called rs[i].due
  stretch : ∀ i j (hij : i ≤ j) (hj : j < rs.length),
    seconds (between rs i j) ≤ rs[j].due - rs[i].start
  stretch_at : ∀ (rate : Rate) i j (hij : i ≤ j) (hj : j < rs.length),
    (∀ r ∈ between rs i j, r.rate = some rate) →
    bytes (between rs i j) ≤ rate.1 * (rs[j].due - rs[i].start)
  window : ∀ lo length late largest : ℚ, 0 ≤ length → 0 ≤ late → 0 ≤ largest →
    (∀ r ∈ rs, r.returned ≤ r.due + late ∧ r.cost ≤ largest) →
    seconds (returnedIn rs lo (lo + length)) ≤ length + late + largest
  window_at : ∀ (rate : Rate) (lo length late largest : ℚ),
    0 ≤ length → 0 ≤ late → 0 ≤ largest →
    (∀ r ∈ rs, r.rate = some rate ∧ r.returned ≤ r.due + late ∧ r.count ≤ largest) →
    bytes (returnedIn rs lo (lo + length)) ≤ rate.1 * (length + late) + largest

/-- At one rate the seconds are the bytes over it. -/
theorem bytes_eq {rate : Rate} {rs : List Reservation} (h : ∀ r ∈ rs, r.rate = some rate) :
    (bytes rs : ℚ) = rate.1 * seconds rs := by
  induction rs with
  | nil => simp [bytes, seconds]
  | cons r rs ih =>
    have htail := ih fun r hr => h r (List.mem_cons_of_mem _ hr)
    have hhead : rate.1 * r.cost = r.count := by
      unfold Reservation.cost charge
      rw [h r List.mem_cons_self]
      exact mul_div_cancel₀ _ rate.2.ne'
    unfold bytes seconds at htail ⊢
    rw [List.map_cons, List.sum_cons, List.map_cons, List.sum_cons, Int.cast_add, htail, mul_add,
      hhead]

theorem seconds_eq (rs : List Reservation) :
    seconds rs = ((rs.map Reservation.slot).map Slot.cost).sum := by
  rw [List.map_map]
  rfl

theorem sum_le_sum_of_sublist {rs rs' : List Reservation} (h : rs.Sublist rs')
    (hfair : ∀ r ∈ rs', r.Fair) : seconds rs ≤ seconds rs' := by
  induction h with
  | slnil => exact le_rfl
  | cons r _ ih =>
    have hr := (hfair r List.mem_cons_self).cost_nonneg
    have htail := ih fun r hr => hfair r (List.mem_cons_of_mem _ hr)
    unfold seconds at htail ⊢
    rw [List.map_cons, List.sum_cons]
    linarith
  | cons_cons r _ ih =>
    have htail := ih fun r hr => hfair r (List.mem_cons_of_mem _ hr)
    unfold seconds at htail ⊢
    rw [List.map_cons, List.sum_cons, List.map_cons, List.sum_cons]
    linarith

variable {due : ℚ} {rs : List Reservation}

theorem stretch_of_chain (h : Chain due (rs.map Reservation.slot)) {i j : ℕ} (hij : i ≤ j)
    (hj : j < rs.length) : seconds (between rs i j) ≤ rs[j].due - rs[i].start := by
  have hpart : between rs i j <:+: rs :=
    (List.take_prefix _ _).isInfix.trans (List.drop_suffix _ _).isInfix
  have hi : i < rs.length := Nat.lt_of_le_of_lt hij hj
  have hfirst : (between rs i j).head? = some rs[i] := by
    unfold between
    rw [List.head?_take, if_neg (by omega), List.head?_drop, List.getElem?_eq_getElem hi]
  have hlast : (between rs i j).getLast? = some rs[j] := by
    unfold between
    rw [List.getLast?_take, if_neg (by omega), List.getElem?_drop,
      show i + (j + 1 - i - 1) = j by omega, List.getElem?_eq_getElem hj]
    rfl
  have hfirst' : ((between rs i j).map Reservation.slot).head? = some rs[i].slot := by
    rw [List.head?_map, hfirst]
    rfl
  have hlast' : ((between rs i j).map Reservation.slot).getLast? = some rs[j].slot := by
    rw [List.getLast?_map, hlast]
    rfl
  obtain ⟨due', hchain⟩ := h.stretch (hpart.map Reservation.slot)
  rw [seconds_eq]
  exact hchain.sum_le hfirst' hlast'

theorem window_of_chain (h : Chain due (rs.map Reservation.slot)) (hfair : ∀ r ∈ rs, r.Fair)
    {lo length late largest : ℚ} (hlength : 0 ≤ length) (hlate : 0 ≤ late) (hlargest : 0 ≤ largest)
    (hle : ∀ r ∈ rs, r.returned ≤ r.due + late ∧ r.cost ≤ largest) :
    seconds (returnedIn rs lo (lo + length)) ≤ length + late + largest := by
  -- what returns in the window is due in it, or in the time `late` before it
  let dueIn := rs.filter fun r => lo - late ≤ r.due ∧ r.due ≤ lo + length
  have hsub : (returnedIn rs lo (lo + length)).Sublist dueIn := by
    have hmem : returnedIn rs lo (lo + length) = returnedIn dueIn lo (lo + length) := by
      unfold returnedIn
      rw [List.filter_filter]
      refine List.filter_congr fun r hr => ?_
      have hdue := (hfair r hr).due_le
      have hreturned := (hle r hr).1
      rw [← Bool.decide_and]
      refine decide_eq_decide.mpr ⟨fun hin => ⟨hin, ?_, ?_⟩, And.left⟩ <;> linarith [hin.1, hin.2]
    rw [hmem]
    exact List.filter_sublist
  have hdueIn : seconds dueIn =
      (((rs.map Reservation.slot).filter fun s =>
        lo - late ≤ s.due ∧ s.due ≤ lo + length).map Slot.cost).sum := by
    rw [List.filter_map, ← seconds_eq]
    rfl
  have hcost : ∀ s ∈ rs.map Reservation.slot, 0 ≤ s.cost ∧ s.cost ≤ largest := by
    intro s hs
    obtain ⟨r, hr, rfl⟩ := List.mem_map.mp hs
    exact ⟨(hfair r hr).cost_nonneg, (hle r hr).2⟩
  calc seconds (returnedIn rs lo (lo + length))
      ≤ seconds dueIn :=
        sum_le_sum_of_sublist hsub fun r hr => hfair r (List.mem_of_mem_filter hr)
    _ ≤ lo + length - (lo - late) + largest := by
        rw [hdueIn]
        exact h.window (fun s hs => (hcost s hs).1) (by linarith) hlargest
          fun s hs => (hcost s hs).2
    _ = length + late + largest := by ring

theorem capped_of_chain (h : Chain due (rs.map Reservation.slot)) (hfair : ∀ r ∈ rs, r.Fair) :
    Capped due rs where
  ordered := by
    refine (List.pairwise_map (R := fun s s' : Slot ℚ => s.due ≤ s'.due)).mp
      (h.pairwise_due fun s hs => ?_)
    obtain ⟨r, hr, rfl⟩ := List.mem_map.mp hs
    exact (hfair r hr).cost_nonneg
  not_early r hr := by
    refine h.called_le_due (fun s hs => ?_) r.slot (List.mem_map_of_mem hr)
    obtain ⟨r', hr', rfl⟩ := List.mem_map.mp hs
    exact (hfair r' hr').cost_nonneg
  first r hr := by
    cases rs with
    | nil => cases hr
    | cons r' rs =>
      obtain rfl : r' = r := Option.some.inj hr
      exact h.1
  next i hi := by
    have hnext := h.next (i := i) (by rw [List.length_map]; exact hi)
    rw [List.getElem_map, List.getElem_map] at hnext
    exact hnext
  stretch i j hij hj := stretch_of_chain h hij hj
  stretch_at rate i j hij hj hrate := by
    rw [bytes_eq hrate]
    exact mul_le_mul_of_nonneg_left (stretch_of_chain h hij hj) rate.2.le
  window lo length late largest := window_of_chain h hfair
  window_at rate lo length late largest hlength hlate hlargest hall := by
    have hcost : ∀ r ∈ rs, r.cost ≤ largest / rate.1 := by
      intro r hr
      unfold Reservation.cost charge
      rw [(hall r hr).1]
      exact div_le_div_of_nonneg_right (hall r hr).2.2 rate.2.le
    have hrate : ∀ r ∈ returnedIn rs lo (lo + length), r.rate = some rate := fun r hr =>
      (hall r (List.mem_of_mem_filter hr)).1
    have hwindow : seconds (returnedIn rs lo (lo + length)) ≤ length + late + largest / rate.1 :=
      window_of_chain h hfair hlength hlate (div_nonneg hlargest rate.2.le) fun r hr =>
        ⟨(hall r hr).2.1, hcost r hr⟩
    rw [bytes_eq hrate]
    calc rate.1 * seconds (returnedIn rs lo (lo + length))
        ≤ rate.1 * (length + late + largest / rate.1) :=
          mul_le_mul_of_nonneg_left hwindow rate.2.le
      _ = rate.1 * (length + late) + largest := by
          rw [mul_add, mul_div_cancel₀ _ rate.2.ne']

/-! ## Runs -/

theorem TokenBucket.run_prefix (b : TokenBucket) (calls calls' : List Call) :
    b.run calls <+: b.run (calls ++ calls') := by
  induction calls generalizing b with
  | nil => exact List.nil_prefix
  | cons c calls ih =>
    cases c with
    | setRate rate => exact ih (b.setRate rate)
    | acquire now count late =>
      rw [List.cons_append]
      unfold run
      obtain hb | ⟨_, wait, _, hb⟩ := b.acquire_cases now count
      · rw [hb]
        exact ih b
      · rw [hb]
        exact List.cons_prefix_cons.mpr ⟨rfl, ih _⟩

theorem Proxy.run_prefix (p : Proxy) (calls calls' : List ProxyCall) :
    p.run calls <+: p.run (calls ++ calls') := by
  induction calls generalizing p with
  | nil => exact List.nil_prefix
  | cons c calls ih =>
    cases c with
    | pollRate now file => exact ih (p.pollRate now file)
    | spend now n late =>
      rw [List.cons_append]
      unfold run
      obtain hp | ⟨_, wait, _, hp⟩ := p.spend_cases now n
      · rw [hp]
        exact ih p
      · rw [hp]
        exact List.cons_prefix_cons.mpr ⟨rfl, ih _⟩

/-- When and for how many bytes a call asks. -/
def Call.asks : Call → Option (ℚ × ℤ)
  | .setRate _ => none
  | .acquire now count _ => if 0 < count then some (now, count) else none

/-- Without `set_rate` a limited bucket reserves what the calls ask for, at its rate. -/
theorem TokenBucket.run_fixed (b : TokenBucket) (calls : List Call)
    (h : ∀ rate, Call.setRate rate ∉ calls) (hb : b.unlimited = false) :
    (b.run calls).map (fun r => (r.called, r.count)) = calls.filterMap Call.asks ∧
      ∀ r ∈ b.run calls, r.rate = some b.rate := by
  induction calls generalizing b with
  | nil => exact ⟨rfl, fun r hr => absurd hr List.not_mem_nil⟩
  | cons c calls ih =>
    have htail : ∀ rate, Call.setRate rate ∉ calls := fun rate hrate =>
      h rate (List.mem_cons_of_mem c hrate)
    cases c with
    | setRate rate => exact absurd List.mem_cons_self (h rate)
    | acquire now count late =>
      unfold run acquire
      by_cases hcount : 0 < count
      · obtain ⟨hasks, hrate⟩ :=
          ih { rate := b.rate, due := max now b.due + count / b.rate.1 } htail rfl
        have hsome : (Call.acquire now count late).asks = some (now, count) := if_pos hcount
        rw [if_neg (not_le.mpr hcount), hb, if_neg Bool.false_ne_true,
          List.filterMap_cons_some hsome]
        refine ⟨congrArg ((now, count) :: ·) hasks, ?_⟩
        rintro r (_ | ⟨_, hr⟩)
        · rfl
        · exact hrate r hr
      · have hnone : (Call.acquire now count late).asks = none := if_neg hcount
        rw [if_pos (not_lt.mp hcount), List.filterMap_cons_none hnone]
        exact ih b htail hb

/-- Two calls of one byte each at the rate 1; the first is a second late. -/
theorem returned_late : ¬ ∀ (b : TokenBucket) (calls : List Call) (lo length largest : ℚ),
    (∀ rate, Call.setRate rate ∉ calls) → b.unlimited = false → 0 ≤ length →
    (∀ r ∈ b.run calls, r.count ≤ largest) →
    bytes (returnedIn (b.run calls) lo (lo + length)) ≤ b.rate.1 * length + largest := by
  intro h
  have hlate := h { rate := ⟨1, by decide⟩ } [.acquire 0 1 1, .acquire 0 1 0] 2 0 1
    (fun rate hrate => by simp at hrate) rfl le_rfl (by decide +kernel)
  exact absurd hlate (by decide +kernel)

/-- **The cap is enforced**: in every run of the bucket, and of the proxy script, the reservations
keep to the rates in force when they were made, and later calls leave them as they are. -/
theorem cap_enforced :
    (∀ (b : TokenBucket) (calls : List Call), Capped b.due (b.run calls) ∧
      (∀ calls', b.run calls <+: b.run (calls ++ calls')) ∧
      ((∀ rate, Call.setRate rate ∉ calls) → b.unlimited = false →
        (b.run calls).map (fun r => (r.called, r.count)) = calls.filterMap Call.asks ∧
        ∀ r ∈ b.run calls, r.rate = some b.rate)) ∧
    ∀ (p : Proxy) (calls : List ProxyCall), Capped p.due (p.run calls) ∧
      ∀ calls', p.run calls <+: p.run (calls ++ calls') := by
  refine ⟨fun b calls => ⟨?_, b.run_prefix calls, b.run_fixed calls⟩, fun p calls =>
    ⟨?_, p.run_prefix calls⟩⟩
  · obtain ⟨hchain, hfair⟩ := b.run_chain calls
    exact capped_of_chain hchain hfair
  · obtain ⟨hchain, hfair⟩ := p.run_chain calls
    exact capped_of_chain hchain hfair

end SparkDeck.Throttle
