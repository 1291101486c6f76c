import ApuScore.Score.Expressive
/-
  Sheets — scores as notes and controls.

  A note is a stretch of constant pitch on a voice. Controller 11 carries a
  velocity change inside a note and controller 12 a timbre change. Positions are
  frames. Triangle notes are written with velocity 1, as a note cannot have
  none, and read back with velocity 0.

  Reading a sheet, each frame first ends notes, then starts notes, then applies
  controls. What lies at or past the length is left out.
-/

namespace ApuScore

/-- A note; `stop` is the first frame after it. -/
structure Note where
  channel : Channel
  pitch : UInt8
  velocity : UInt8
  /-- The timbre when the note starts. -/
  timbre : UInt8
  start : Nat
  stop : Nat
  deriving DecidableEq, Repr

/-- A change of a controller's value. -/
structure Control where
  channel : Channel
  position : Nat
  controller : UInt8
  value : UInt8
  deriving DecidableEq, Repr

/-- A score as notes and controls. -/
structure Sheet where
  /-- Frames per second. -/
  rate : Float
  sampleCount : Nat
  /-- The length in frames. -/
  length : Nat
  notes : List Note
  controls : List Control
  deriving Repr

def velocityController : UInt8 := 11

def timbreController : UInt8 := 12

def Sheet.seconds (s : Sheet) (position : Nat) : Float := floatOf position / s.rate

/-! ## Writing -/

/-- The state of writing one voice. -/
structure Quill where
  position : Nat := 0
  /-- The tone just before. -/
  last : Tone
  /-- The note that has started and not ended. -/
  opened : Option Note := none
  /-- Ended notes, latest first. -/
  notes : List Note := []
  /-- Controls, latest first. -/
  controls : List Control := []

namespace Quill

/-- The velocity that a voice writes. -/
def velocityOf (v : Voice) (t : Tone) : UInt8 :=
  if v = .triangle then 1 else t.velocity

def start (v : Voice) : Quill :=
  { last := { Tone.zero with velocity := if v = .triangle then 1 else 0 } }

/-- Ends the open note here. -/
def close (q : Quill) : Quill :=
  match q.opened with
  | some n => { q with opened := none, notes := { n with stop := q.position } :: q.notes }
  | none => q

/-- Ends the open note and starts one with the tone's pitch, unless it is silent. -/
def turn (v : Voice) (t : Tone) (q : Quill) : Quill :=
  let q := q.close
  if t.pitch = 0 then q
  else
    let note : Note := ⟨v.channel, t.pitch, t.velocity, t.timbre, q.position, q.position⟩
    { q with opened := some note }

/-- Writes a control if its value changes. -/
def control (v : Voice) (controller value : UInt8) (changes : Bool) (q : Quill) : Quill :=
  if changes then
    { q with controls := ⟨v.channel, q.position, controller, value⟩ :: q.controls }
  else q

/-- The state after one more frame. -/
def take (v : Voice) (q : Quill) (t : Tone) : Quill :=
  let t := { t with velocity := velocityOf v t }
  let last := q.last
  let q := if t.pitch ≠ last.pitch then q.turn v t
    else q.control v velocityController t.velocity
      (t.pitch != 0 && t.velocity != last.velocity)
  let q := q.control v timbreController t.timbre (t.timbre != last.timbre)
  { q with position := q.position + 1, last := t }

def write (v : Voice) (tones : List Tone) : List Note × List Control :=
  let q := (tones.foldl (take v) (start v)).close
  (q.notes.reverse, q.controls.reverse)

end Quill

def ExpressiveScore.sheet (s : ExpressiveScore) : Sheet :=
  let parts := Voice.all.map fun v => Quill.write v (s.frames.map fun c => c.get v)
  { rate := s.rate, sampleCount := s.sampleCount, length := s.frames.length
    notes := parts.flatMap (·.1), controls := parts.flatMap (·.2) }

/-! ## Reading -/

/-- What happens to a voice at a frame. -/
inductive Cue where
  | off
  | on (pitch velocity : UInt8)
  | velocity (value : UInt8)
  | timbre (value : UInt8)
  deriving DecidableEq, Repr

namespace Cue

/-- The order of cues at one frame. -/
def rank : Cue → Nat
  | .off => 0
  | .on _ _ => 1
  | .velocity _ => 2
  | .timbre _ => 2

/-- The tone after a cue. The timbre outlives the note. -/
def apply (t : Tone) : Cue → Tone
  | .off => { t with pitch := 0, velocity := 0 }
  | .on p v => { t with pitch := p, velocity := v }
  | .velocity v => { t with velocity := v }
  | .timbre v => { t with timbre := v }

def ofControl? (c : Control) : Option Cue :=
  if c.controller = velocityController then some (.velocity c.value)
  else if c.controller = timbreController then some (.timbre c.value)
  else none

/-- Whether the first cue, at its frame, comes no later than the second. -/
def before (a b : Nat × Cue) : Bool :=
  a.1 < b.1 || (a.1 == b.1 && a.2.rank ≤ b.2.rank)

end Cue

def Note.cues (v : Voice) (n : Note) : List (Nat × Cue) :=
  if n.channel = v.channel then
    [(n.start, .on n.pitch (if v = .triangle then 0 else n.velocity)), (n.stop, .off)]
  else []

def Control.cues (v : Voice) (c : Control) : List (Nat × Cue) :=
  if c.channel = v.channel then ((Cue.ofControl? c).map fun cue => (c.position, cue)).toList
  else []

namespace Sheet

/-- Refuses notes and controls off the voices, and unknown controllers. -/
def check (s : Sheet) : Except ProtocolError Unit := do
  s.notes.forM fun n =>
    if n.channel.voice?.isSome then .ok () else .error (.notAVoice n.channel)
  s.controls.forM fun c =>
    if c.channel.voice?.isNone then .error (.notAVoice c.channel)
    else if (Cue.ofControl? c).isNone then .error (.unknownController c.channel c.controller)
    else .ok ()

/-- The cues of a voice in the order in which they apply. -/
def cues (s : Sheet) (v : Voice) : List (Nat × Cue) :=
  (s.notes.flatMap (Note.cues v) ++ s.controls.flatMap (Control.cues v)).mergeSort Cue.before

end Sheet

/-- The tones of `count` frames from `position` on, behind those already found,
latest first; `t` is the tone just before and `cues` are the cues to come. -/
def playFrom : Nat → Nat → Tone → List (Nat × Cue) → List Tone → List Tone
  | 0, _, _, _, found => found.reverse
  | count + 1, position, t, cues, found =>
    let (now, later) := cues.span (fun c => c.1 == position)
    let t := now.foldl (fun t c => c.2.apply t) t
    playFrom count (position + 1) t later (t :: found)

/-- The rows of four columns, as long as the shortest column. -/
def Voices.rows {α : Type} (x : Voices (List α)) : List (Voices α) :=
  List.zipWith (fun (p : α × α) (q : α × α) => ⟨p.1, p.2, q.1, q.2⟩)
    (x.pulse1.zip x.pulse2) (x.triangle.zip x.noise)

def Sheet.express (s : Sheet) : Except ProtocolError ExpressiveScore := do
  s.check
  let columns := Voices.ofFn fun v => playFrom s.length 0 Tone.zero (s.cues v) []
  return { rate := s.rate, sampleCount := s.sampleCount, frames := columns.rows }

end ApuScore
