import ApuScore.Score.Tempo
/-
  Resampling — an expressive score brought down to a lower frame rate.

  Each new frame sums up the window of samples it covers. If a voice sounds in
  the window, each part of its tone is the commonest among the sounding samples;
  otherwise the voice is silent and keeps the commonest timbre of the window. Of
  values that are equally common the smallest is taken.
-/

namespace ApuScore

/-- Whether `a` is commoner in `xs` than `b`, or as common and smaller. -/
def beats (xs : List UInt8) (a b : UInt8) : Bool :=
  xs.count b < xs.count a || (xs.count b == xs.count a && a < b)

/-- The commonest value of a list, the smallest of several; zero if there is none. -/
def mode (xs : List UInt8) : UInt8 :=
  xs.eraseDups.foldl (fun best x => if beats xs x best then x else best) (xs.headD 0)

/-- The tone that sums up the tones of a window. -/
def summary (window : List Tone) : Tone :=
  match window.filter (fun t => t.pitch != 0) with
  | [] => { Tone.zero with timbre := mode (window.map Tone.timbre) }
  | sounding =>
    ⟨mode (sounding.map Tone.pitch), mode (sounding.map Tone.velocity),
     mode (sounding.map Tone.timbre)⟩

def summarize (window : List Chord) : Chord :=
  Voices.ofFn fun v => summary (window.map fun c => c.get v)

def stretch (frames : Array Chord) (lo hi : Nat) : List Chord :=
  (frames.extract lo hi).toList

def ExpressiveScore.resample (s : ExpressiveScore) (rate : Float) : ExpressiveScore :=
  let count := countBelow (floatOf s.sampleCount * rate / floatOf sampleRate)
  let frames := s.frames.toArray
  { rate := rate
    sampleCount := s.sampleCount
    frames := (List.range count).map fun i =>
      summarize (stretch frames (frameStart rate i) (frameStart rate (i + 1))) }

/-- The score at the given rate, or at the estimated one. The sample rate leaves
it as it is. -/
def ExpressiveScore.downsample (rate : Option Float) (settings : Settings)
    (s : ExpressiveScore) : Except Error ExpressiveScore := do
  liftProtocol (requireSampleRate s.rate)
  settings.check
  match rate with
  | some r =>
    if isSampleRate r then .ok s
    else if r.isFinite && 0.0 < r then .ok (s.resample r)
    else .error (.badSetting .frameRate)
  | none => (s.estimateRate settings).map s.resample

end ApuScore
