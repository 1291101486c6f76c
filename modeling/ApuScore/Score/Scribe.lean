import ApuScore.Score.Replay
/-
  The scribe — a parameter log that plays a raw score.

  The log opens by shutting all voices, putting pulses and noise at a constant
  halted volume, setting the pulses' sweep shift to 7 so that no low note is
  muted, and filling the triangle's linear counter. Each frame then becomes the
  writes that lead to it from the frame before, and a wait. At the sample rate
  the wait is one sample; otherwise it reaches to the start of the next frame, at
  most to the end of the score. What is left of the score is one last wait.

  A volume is written only while it is above zero, so no envelope restarts by
  accident. Sweeps are not found again: a swept note comes back in steps.
-/

namespace ApuScore

def enableWrite (v : Voice) (on : Bool) : ParamWrite :=
  ParamWrite.place .status v.enable (if on then 1 else 0) 0

/-- The writes of a high period byte; the register loads the length counter too. -/
def highWrites (c : Channel) (high : UInt8) : List ParamWrite :=
  [.place c .timerHigh high 0, .place c .lengthLoad 0 0]

/-- The opening writes of a pulse, from atom `atom` on. -/
def openPulse (c : Channel) (atom : Nat) : List ParamWrite :=
  [.place c .duty 0 atom, .place c .lengthHalt 1 atom, .place c .constantVolume 1 atom,
   .place c .volume 0 atom, .place c .sweepShift 7 (atom + 1)]

/-- The writes that every score opens with. -/
def opening : List ParamWrite :=
  Voice.all.map (enableWrite · false) ++ openPulse .pulse1 1 ++ openPulse .pulse2 3 ++
    [.place .triangle .lengthHalt 1 5, .place .triangle .linearReload 127 5,
     .place .noise .lengthHalt 1 6, .place .noise .constantVolume 1 6,
     .place .noise .volume 0 6]

/-- The enable write when a voice falls silent or starts, given whether it sounds
before and after. -/
def gateWrites (v : Voice) (before after : Bool) : List ParamWrite :=
  if before == after then [] else [enableWrite v after]

def whenNeeded (needed : Bool) (writes : List ParamWrite) : List ParamWrite :=
  if needed then writes else []

/-- The writes that take a pulse from one slot to the next. -/
def pulseWrites (v : Voice) (before after : Slot) : List ParamWrite :=
  let c := v.channel
  let starts := before.period = 0 ∧ after.period ≠ 0
  gateWrites v (before.period != 0) (after.period != 0) ++
    whenNeeded (after.timbre != before.timbre) [.place c .duty after.timbre 0] ++
    whenNeeded (after.volume != 0 && after.volume != before.volume)
      [.place c .volume after.volume 0] ++
    whenNeeded (after.low != before.low) [.place c .timerLow after.low 0] ++
    whenNeeded (starts || after.high != before.high) (highWrites c after.high)

def triangleWrites (before after : Slot) : List ParamWrite :=
  gateWrites .triangle (before.period != 0) (after.period != 0) ++
    whenNeeded (after.period != before.period)
      (.place .triangle .timerLow after.low 0 :: highWrites .triangle after.high)

/-- The period that a noise slot stands for. -/
def noisePeriodOf (low : UInt8) : UInt8 := if low ≤ 16 then 16 - low else 0

def noiseWrites (before after : Slot) : List ParamWrite :=
  gateWrites .noise (before.low != 0) (after.low != 0) ++
    whenNeeded (after.volume != 0 && after.volume != before.volume)
      [.place .noise .volume after.volume 0] ++
    whenNeeded (after.timbre != before.timbre) [.place .noise .noiseLoop after.timbre 0] ++
    whenNeeded (after.low != 0 && after.low != before.low)
      [.place .noise .noisePeriod (noisePeriodOf after.low) 0, .place .noise .lengthLoad 0 0]

/-- The writes that take the chip from one frame to the next. -/
def frameWrites (before after : Frame) : List ParamWrite :=
  pulseWrites .pulse1 before.pulse1 after.pulse1 ++
    pulseWrites .pulse2 before.pulse2 after.pulse2 ++
    triangleWrites before.triangle after.triangle ++
    noiseWrites before.noise after.noise

/-- The waits that reach from each end to the next, none past `total`, and the
sample that they reach. -/
def waitsTo (total : Nat) (ends : List Nat) : List Nat × Nat :=
  let r := ends.foldl (fun (s : Nat × List Nat) stop =>
    let wait := min stop total - s.1
    (s.1 + wait, wait :: s.2)) (0, [])
  (r.2.reverse, r.1)

/-- The waits of a score's frames, and the sample that they reach. -/
def RawScore.waits (s : RawScore) : List Nat × Nat :=
  let count := s.frames.length
  if isSampleRate s.rate then (List.replicate count 1, count)
  else waitsTo s.sampleCount ((List.range count).map fun i => frameStart s.rate (i + 1))

/-- A wait as it is written: a 32-bit number. -/
def waitStep (n : Nat) : Step ParamWrite := .wait (n % 0x100000000)

/-- The steps of a score behind the opening writes. -/
def RawScore.frameSteps (s : RawScore) : List (Step ParamWrite) :=
  let (waits, reached) := s.waits
  let writes := List.zipWith frameWrites (Frame.zero :: s.frames) s.frames
  (List.zipWith (fun ws n => ws.map .act ++ [waitStep n]) writes waits).flatten ++
    if reached < s.sampleCount then [waitStep (s.sampleCount - reached)] else []

/-- The parameter log that plays a score. -/
def RawScore.scribe (s : RawScore) : ParamLog :=
  Timeline.toEvents ⟨s.clock, opening.map .act ++ s.frameSteps⟩

end ApuScore
