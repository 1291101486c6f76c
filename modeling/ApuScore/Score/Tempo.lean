import ApuScore.Score.Expressive
/-
  Tempo — the frame rate that best divides the intervals between onsets.

  A note starts wherever the pitch is not zero and differs from the pitch just
  before. Every candidate rate is charged, for each interval between onsets of a
  voice, with what the interval leaves over on the candidate's grid. The lowest
  charge wins, the slower rate on a tie.
-/

namespace ApuScore

/-- The onsets in `pitches`, which start at `index`, behind those already found,
latest first; `last` is the pitch just before. -/
def onsetsFrom (index : Nat) (last : UInt8) (found : List Nat) : List UInt8 → List Nat
  | [] => found.reverse
  | p :: rest =>
    onsetsFrom (index + 1) p (if p ≠ 0 ∧ p ≠ last then index :: found else found) rest

namespace ExpressiveScore

def pitches (s : ExpressiveScore) (v : Voice) : List UInt8 :=
  s.frames.map fun c => (c.get v).pitch

/-- The frames at which each voice starts a note. -/
def onsets (s : ExpressiveScore) : Voices (List Nat) :=
  Voices.ofFn fun v => onsetsFrom 0 0 [] (s.pitches v)

/-- The distances from each onset to the next. -/
def intervals (s : ExpressiveScore) : List Nat :=
  s.onsets.toList.flatMap fun xs => List.zipWith (fun a b => b - a) xs (xs.drop 1)

end ExpressiveScore

/-- The values of an ascending list with how often each occurs, latest first. -/
def countRuns (xs : List Nat) : List (Nat × Nat) :=
  xs.foldl (fun found x =>
    match found with
    | (y, n) :: rest => if x = y then (y, n + 1) :: rest else (x, 1) :: found
    | [] => [(x, 1)]) []

/-- The values of a list in ascending order with how often each occurs. -/
def histogram (xs : List Nat) : List (Nat × Nat) :=
  (countRuns (xs.mergeSort (fun a b => a ≤ b))).reverse

/-- What `seconds` leaves over on a grid of `rate` frames per second. -/
def leftOver (seconds rate : Float) : Float :=
  let frames := (seconds * rate + 1e-8).floor
  let rest := seconds - frames / rate
  if 0.0 < rest then rest else 0.0

/-- The charge of a candidate rate for intervals, in seconds, and their counts. -/
def charge (intervals : List (Float × Float)) (rate : Float) : Float :=
  intervals.foldl (fun sum i => sum + leftOver i.1 rate * i.2) 0.0

/-- The number of candidate rates. A grid too long for a 64-bit count has none. -/
def Settings.candidates (s : Settings) : Nat :=
  (((s.rateMax - s.rateMin) / s.rateStep).round.toUInt64.toNat + 1) % 0x10000000000000000

def Settings.candidate (s : Settings) (k : Nat) : Float :=
  s.rateMin + floatOf k * s.rateStep

/-- The best of `best`, whose charge is `least`, and the `count` candidates from
number `k` on. -/
def bestRate (s : Settings) (intervals : List (Float × Float)) :
    Nat → Nat → Float → Float → Float
  | 0, _, best, _ => best
  | count + 1, k, best, least =>
    let rate := s.candidate k
    let cost := charge intervals rate
    if cost < least then bestRate s intervals count (k + 1) rate cost
    else bestRate s intervals count (k + 1) best least

def ExpressiveScore.estimateRate (settings : Settings) (s : ExpressiveScore) :
    Except Error Float := do
  settings.check
  let long := s.intervals.filter (fun n => settings.minInterval < n)
  if long.length < settings.minIntervals then
    .error (.tooFewIntervals long.length settings.minIntervals)
  else
    let seconds := (histogram long).map fun r => (floatOf r.1 / floatOf sampleRate, floatOf r.2)
    .ok (bestRate settings seconds settings.candidates 0 settings.rateMin (1.0 / 0.0))

end ApuScore
