/-
# The rate limiter of a session

`Timely` computes the sending rate of a session from round-trip times, and `cc_getupdate_tx_tsc`
spaces its packets by their sizes at this rate.  The wheel asserts that a packet is due within its
horizon: the time of `kSessionCredits` packets of `kMTU` bytes at `kMinRate`.  Doubles are rational
numbers here, so the results are in exact arithmetic, and `kPatched` is false.  The bandwidth of the
link is taken to be at least `kMinRate`, the lowest rate that `update_rate` sets.

* A packet that is not due is in the wheel and holds a credit, so there are fewer than
  `kSessionCredits` of them when a packet is sent (`Cc.guard`).
* `enqueue_wheel_req_st` takes the size of the whole message, at most the MTU for one packet; its
  call in `kick_req_st` is commented out.
-/
import HuiRpc.WheelRuns

namespace HuiRpc

open Runs WheelRun

/-! ## `Timely` -/

/-- Bytes per second, as all rates. -/
def kAddRate : ℚ := 5 * 1000 * 1000

/-- Microseconds, as `kTLow` and `kTHigh`. -/
def kMinRTT : ℚ := 2

def kTLow : ℚ := 50

def kTHigh : ℚ := 1000

/-- Falling samples before the increase is fivefold. -/
def kHaiThresh : ℕ := 5

/-- The weight of a new sample. -/
def kEwmaAlpha : ℚ := 46 / 100

def kBeta : ℚ := 26 / 100

/-- The fields that the rate depends on. -/
structure Timely where
  rate : ℚ
  negGradientCount : ℕ
  prevRtt : ℚ
  avgRttDiff : ℚ
  lastUpdateTsc : ℕ
  minRttTsc : ℚ
  tLowTsc : ℚ
  freqGhz : ℚ
  linkBandwidth : ℚ

namespace Timely

/-- A new session sends at the bandwidth of the link. -/
def new (freqGhz linkBandwidth : ℚ) (rdtsc : ℕ) : Timely :=
  ⟨linkBandwidth, 0, kMinRTT, 0, rdtsc, kMinRTT * freqGhz * 1000, kTLow * freqGhz * 1000, freqGhz,
    linkBandwidth⟩

/-- `new_rate`, before it is clamped. -/
def newRate (t : Timely) (sampleRtt deltaFactor avgRttDiff : ℚ) (negGradientCount : ℕ) : ℚ :=
  let aiFactor := kAddRate * deltaFactor
  let mdFactor := deltaFactor * kBeta
  let normGrad := avgRttDiff / kMinRTT
  if sampleRtt < kTLow then t.rate + aiFactor
  else if sampleRtt ≤ kTHigh then
    if normGrad ≤ 0 then t.rate + (if kHaiThresh ≤ negGradientCount then 5 else 1) * aiFactor
    else t.rate * (1 - mdFactor * normGrad)
  else t.rate * (1 - mdFactor * (1 - kTHigh / sampleRtt))

/-- `update_rate`, called at `rdtsc` with a sample in cycles. -/
def updateRate (t : Timely) (rdtsc sampleRttTsc : ℕ) : Timely :=
  if t.rate = t.linkBandwidth ∧ sampleRttTsc ≤ t.tLowTsc then t
  else if sampleRttTsc < t.minRttTsc then t
  else
    let sampleRtt := sampleRttTsc / (t.freqGhz * 1000)
    let rttDiff := sampleRtt - t.prevRtt
    let negGradientCount := if rttDiff < 0 then t.negGradientCount + 1 else 0
    let avgRttDiff := (1 - kEwmaAlpha) * t.avgRttDiff + kEwmaAlpha * rttDiff
    let deltaFactor := min ((rdtsc - t.lastUpdateTsc : ℕ) / t.minRttTsc) 1
    let newRate := t.newRate sampleRtt deltaFactor avgRttDiff negGradientCount
    { t with
      rate := max (min (max newRate (t.rate * (1 / 2))) t.linkBandwidth) kMinRate
      negGradientCount := negGradientCount
      avgRttDiff := avgRttDiff
      prevRtt := sampleRtt
      lastUpdateTsc := rdtsc }

variable {t : Timely} {f : TscFreq} {link : ℚ}

/-- The additive increase is at most five times `kAddRate`, and the other branches decrease. -/
theorem newRate_le (hrate : 0 ≤ t.rate) {d : ℚ} (hd : 0 ≤ d) (hd1 : d ≤ 1) (rtt g : ℚ) (n : ℕ) :
    t.newRate rtt d g n ≤ t.rate + 5 * kAddRate := by
  have hadd : kAddRate * d ≤ kAddRate := mul_le_of_le_one_right (by decide +kernel) hd1
  have hadd0 : 0 ≤ kAddRate * d := mul_nonneg (by decide +kernel) hd
  have hdec : ∀ x, 0 ≤ x → t.rate * (1 - d * kBeta * x) ≤ t.rate + 5 * kAddRate := by
    intro x hx
    have hx' : 0 ≤ d * kBeta * x := mul_nonneg (mul_nonneg hd (by decide +kernel)) hx
    linarith [mul_nonneg hrate hx']
  unfold newRate
  dsimp only
  split_ifs with hlow hhigh hgrad hhai
  · linarith
  · linarith
  · linarith
  · exact hdec _ (le_of_not_ge hgrad)
  · refine hdec _ (sub_nonneg.mpr (div_le_one_of_le₀ (le_of_not_ge hhigh) ?_))
    exact le_trans (by decide +kernel) (le_of_not_ge hhigh)

/-- The constants of the session, and a rate within its bounds. -/
structure Ok (t : Timely) (f : TscFreq) (link : ℚ) : Prop where
  freq : t.freqGhz = f.ghz
  bandwidth : t.linkBandwidth = link
  minRtt : 0 ≤ t.minRttTsc
  rateMin : kMinRate ≤ t.rate
  rateMax : t.rate ≤ link

/-- The clamp, and how far one update moves the rate. -/
theorem Ok.updateRate_rate (h : t.Ok f link) (rdtsc rttTsc : ℕ) :
    kMinRate ≤ (t.updateRate rdtsc rttTsc).rate ∧ (t.updateRate rdtsc rttTsc).rate ≤ link ∧
      t.rate / 2 ≤ (t.updateRate rdtsc rttTsc).rate ∧
      (t.updateRate rdtsc rttTsc).rate ≤ t.rate + 5 * kAddRate := by
  obtain ⟨-, rfl, hrtt, hmin, hmax⟩ := h
  have hpos : 0 < kMinRate ∧ 0 < kAddRate := by decide +kernel
  unfold updateRate
  split_ifs
  · exact ⟨hmin, hmax, by linarith, by linarith⟩
  · exact ⟨hmin, hmax, by linarith, by linarith⟩
  · refine ⟨le_max_right _ _, max_le (min_le_right _ _) (hmin.trans hmax), ?_, ?_⟩
    · exact le_max_of_le_left (le_min (le_max_of_le_right (by linarith)) (by linarith))
    · refine max_le (min_le_of_left_le (max_le ?_ (by linarith))) (by linarith)
      refine newRate_le (by linarith) (le_min ?_ zero_le_one) (min_le_right _ _) _ _ _
      exact div_nonneg (Nat.cast_nonneg _) hrtt

theorem Ok.updateRate (h : t.Ok f link) (rdtsc rttTsc : ℕ) :
    (t.updateRate rdtsc rttTsc).Ok f link := by
  obtain ⟨hmin, hmax, -⟩ := h.updateRate_rate rdtsc rttTsc
  refine ⟨?_, ?_, ?_, hmin, hmax⟩ <;> unfold Timely.updateRate <;> split_ifs
  all_goals first | exact h.freq | exact h.bandwidth | exact h.minRtt

end Timely

/-! ## Pacing -/

/-- `ns_to_cycles` returns a `size_t`. -/
def nsToCycles (ns freqGhz : ℚ) : ℕ := ⌊ns * freqGhz⌋₊

/-- The congestion control of a client session, the desired times of its packets, and the time of
the last one. -/
structure Cc where
  timely : Timely
  prevDesiredTxTsc : ℕ
  paced : List ℕ
  now : ℕ

/-- An acknowledged packet gives a sample, and a packet is paced. -/
inductive CcAct
  | ack (rxTsc rttTsc : ℕ)
  | send (refTsc pktSize : ℕ)

namespace Cc

/-- After `handle_connect_resp_st`, for a session made at `made`. -/
def start (f : TscFreq) (linkBandwidth : ℚ) (made rdtsc : ℕ) : Cc :=
  ⟨Timely.new f.ghz linkBandwidth made, rdtsc, [], rdtsc⟩

/-- The sum is exact here.  The source adds a `size_t` and a double, which rounds from 2^53 on. -/
def ccGetupdateTxTsc (s : Cc) (refTsc pktSize : ℕ) : ℕ :=
  max (s.prevDesiredTxTsc +
    nsToCycles (1000000000 * (pktSize / s.timely.rate)) s.timely.freqGhz) refTsc

def step (s : Cc) : CcAct → Option Cc
  | .ack rxTsc rttTsc => some { s with timely := s.timely.updateRate rxTsc rttTsc }
  | .send refTsc pktSize =>
      let desired := s.ccGetupdateTxTsc refTsc pktSize
      some ⟨s.timely, desired, s.paced ++ [desired], refTsc⟩

/-- The packets that are in the wheel at `tsc`. -/
def notDue (s : Cc) (tsc : ℕ) : ℕ := s.paced.countP (tsc < ·)

/-- The clock does not go back, and a packet is sent with a credit and fits the MTU. -/
def guard (mtu : ℕ) (s : Cc) : CcAct → Prop
  | .ack rxTsc _ => s.timely.lastUpdateTsc ≤ rxTsc
  | .send refTsc pktSize => s.now ≤ refTsc ∧ pktSize ≤ mtu ∧ s.notDue refTsc < kSessionCredits

abbrev CcRun (f : TscFreq) (link : ℚ) (mtu made base : ℕ) : List CcAct → Cc → Prop :=
  Run (guard mtu) step (start f link made base)

/-- Cycles between two packets at the lowest rate. -/
def widest (f : TscFreq) (mtu : ℕ) : ℕ := nsToCycles (1000000000 * (mtu / kMinRate)) f.ghz

variable {f : TscFreq} {link : ℚ} {mtu made base refTsc size : ℕ} {s s' : Cc} {a : CcAct}
  {as : List CcAct}

/-- The last packet is as far ahead of any time as the packets not due then can make it. -/
structure PaceInv (f : TscFreq) (link : ℚ) (mtu : ℕ) (s : Cc) : Prop where
  timely : s.timely.Ok f link
  last : ∀ t ∈ s.paced, t ≤ s.prevDesiredTxTsc
  ahead : ∀ tsc, s.now ≤ tsc → s.prevDesiredTxTsc ≤ tsc + s.notDue tsc * widest f mtu

theorem PaceInv.start (hlink : kMinRate ≤ link) : PaceInv f link mtu (start f link made base) := by
  have hf := f.lower
  refine ⟨⟨rfl, rfl, ?_, hlink, le_rfl⟩, fun t ht => absurd ht List.not_mem_nil, fun tsc h => ?_⟩
  · show 0 ≤ kMinRTT * f.ghz * 1000
    unfold kMinRTT
    linarith
  · exact Nat.le_add_right_of_le h

/-- No gap is wider than at the lowest rate. -/
theorem PaceInv.delta_le (h : PaceInv f link mtu s) (hsize : size ≤ mtu) :
    nsToCycles (1000000000 * (size / s.timely.rate)) s.timely.freqGhz ≤ widest f mtu := by
  have hf := f.lower
  have hsize' : (size : ℚ) ≤ mtu := Nat.cast_le.mpr hsize
  rw [h.timely.freq]
  apply Nat.floor_le_floor
  refine mul_le_mul_of_nonneg_right (mul_le_mul_of_nonneg_left ?_ (by norm_num)) (by linarith)
  exact div_le_div₀ (Nat.cast_nonneg mtu) hsize' (by decide +kernel) h.timely.rateMin

/-- The packet of a call counts as one more that is not due. -/
theorem PaceInv.desired_le (h : PaceInv f link mtu s) (hg : guard mtu s (.send refTsc size))
    {tsc : ℕ} (htsc : refTsc ≤ tsc) :
    s.ccGetupdateTxTsc refTsc size ≤ tsc + (s.notDue tsc + 1) * widest f mtu := by
  obtain ⟨hnow, hsize, -⟩ := hg
  have hahead := h.ahead tsc (hnow.trans htsc)
  have hdelta := h.delta_le hsize
  rw [Nat.succ_mul]
  exact max_le (by omega) (by omega)

/-- Only a packet changes the desired times. -/
theorem PaceInv.step (h : PaceInv f link mtu s) (hg : guard mtu s a) (hs : s.step a = some s') :
    PaceInv f link mtu s' := by
  cases a with
  | ack rxTsc rttTsc =>
    obtain rfl := Option.some.inj hs
    exact ⟨h.timely.updateRate rxTsc rttTsc, h.last, h.ahead⟩
  | send refTsc size =>
    obtain rfl := Option.some.inj hs
    refine ⟨h.timely, ?_, fun tsc htsc => ?_⟩
    · intro t ht
      rcases List.mem_append.mp ht with ht | ht
      · exact le_max_of_le_left (Nat.le_add_right_of_le (h.last t ht))
      · exact (List.mem_singleton.mp ht).le
    · show s.ccGetupdateTxTsc refTsc size ≤ tsc +
        (s.paced ++ [s.ccGetupdateTxTsc refTsc size]).countP (tsc < ·) * widest f mtu
      rw [List.countP_append, List.countP_singleton]
      by_cases hdue : tsc < s.ccGetupdateTxTsc refTsc size
      · rw [if_pos (decide_eq_true hdue)]
        exact h.desired_le hg htsc
      · omega

theorem PaceInv.run (hlink : kMinRate ≤ link) (h : CcRun f link mtu made base as s) :
    PaceInv f link mtu s :=
  h.invariant (PaceInv.start hlink) fun _ _ _ hinv hg hs => hinv.step hg hs

/-- **The rate.**  In exact arithmetic, on a link of at least `kMinRate`, it stays between
`kMinRate` and the bandwidth of the link, and an update at most halves it and raises it by at most
five times `kAddRate`. -/
theorem rate_bounded (hlink : kMinRate ≤ link) (h : CcRun f link mtu made base as s) :
    kMinRate ≤ s.timely.rate ∧ s.timely.rate ≤ link ∧ ∀ rxTsc rttTsc,
      s.timely.rate / 2 ≤ (s.timely.updateRate rxTsc rttTsc).rate ∧
      (s.timely.updateRate rxTsc rttTsc).rate ≤ s.timely.rate + 5 * kAddRate := by
  have hok := (PaceInv.run hlink h).timely
  exact ⟨hok.rateMin, hok.rateMax, fun rxTsc rttTsc => (hok.updateRate_rate rxTsc rttTsc).2.2⟩

theorem rate_bounded_sample : ∃ s, CcRun oddFreq 1000000000 1024 3 5 [.ack 7 1000000] s ∧
    s.timely.rate ≤ 1000000000 := by
  have hrun : CcRun oddFreq 1000000000 1024 3 5 ([] ++ [.ack 7 1000000]) _ :=
    Run.nil.snoc (show 3 ≤ 7 by decide) rfl
  exact ⟨_, hrun, (rate_bounded (by decide +kernel) hrun).2.1⟩

/-- The horizon has room for all the credits. -/
theorem widest_mul_le (f : TscFreq) (mtu : ℕ) :
    kSessionCredits * widest f mtu ≤ (f.wheelConf mtu).horizon := by
  have hf := f.lower
  apply Nat.le_floor
  have hfloor : (widest f mtu : ℚ) ≤ 1000000000 * (mtu / kMinRate) * f.ghz := by
    refine Nat.floor_le (mul_nonneg (mul_nonneg (by norm_num) (div_nonneg ?_ ?_)) (by linarith))
    · exact Nat.cast_nonneg mtu
    · decide +kernel
  rw [Nat.cast_mul]
  refine (mul_le_mul_of_nonneg_left hfloor (Nat.cast_nonneg _)).trans_eq ?_
  unfold wheelHorizonUs
  rw [Nat.cast_mul]
  ring

/-- **Packets of a session and the wheel.**  In exact arithmetic, on a link of at least `kMinRate`,
a packet that is sent with a credit is due no earlier than the packets before it and the time of the
call, and within the horizon of the wheel. -/
theorem paced_within_horizon (hlink : kMinRate ≤ link) (h : CcRun f link mtu made base as s)
    (hg : guard mtu s (.send refTsc size)) :
    (∀ t ∈ s.paced, t ≤ s.ccGetupdateTxTsc refTsc size) ∧
      refTsc ≤ s.ccGetupdateTxTsc refTsc size ∧
      s.ccGetupdateTxTsc refTsc size - refTsc ≤ (f.wheelConf mtu).horizon := by
  have hinv := PaceInv.run hlink h
  refine ⟨fun t ht => ?_, le_max_right _ _, ?_⟩
  · exact le_max_of_le_left (Nat.le_add_right_of_le (hinv.last t ht))
  · have hle := hinv.desired_le hg le_rfl
    have hmul : (s.notDue refTsc + 1) * widest f mtu ≤ kSessionCredits * widest f mtu :=
      Nat.mul_le_mul_right _ hg.2.2
    have := widest_mul_le f mtu
    omega

theorem paced_within_horizon_sample : ∃ s, CcRun oddFreq 1000000000 1024 3 5 [.send 7 1000] s ∧
    guard 1024 s (.send 9 1000) ∧
      s.ccGetupdateTxTsc 9 1000 - 9 ≤ (oddFreq.wheelConf 1024).horizon := by
  have hrun : CcRun oddFreq 1000000000 1024 3 5 ([] ++ [.send 7 1000]) _ :=
    Run.nil.snoc ⟨by decide, by decide, by decide⟩ rfl
  refine ⟨_, hrun, ?hg, (paced_within_horizon (by decide +kernel) hrun ?hg).2.2⟩
  exact ⟨by decide, by decide, by decide +kernel⟩

end Cc

end HuiRpc
