/-
  Channels and voices.

  The chip has five sound channels and two control registers that are addressed
  like channels. Four of the channels are voices: they carry notes and have a
  column in every score. Each channel owns a block of registers; 0x14, 0x16 and
  everything above 0x17 belong to none.
-/

namespace ApuScore

/-- A block of registers: a sound channel, the channel-enable register or the
frame counter. -/
inductive Channel where
  | pulse1
  | pulse2
  | triangle
  | noise
  | dmc
  | status
  | frameCounter
  deriving DecidableEq, Repr

/-- A channel that carries notes. -/
inductive Voice where
  | pulse1
  | pulse2
  | triangle
  | noise
  deriving DecidableEq, Repr

namespace Channel

def all : List Channel :=
  [.pulse1, .pulse2, .triangle, .noise, .dmc, .status, .frameCounter]

/-- The first register of the block. -/
def base : Channel → UInt8
  | .pulse1 => 0x00
  | .pulse2 => 0x04
  | .triangle => 0x08
  | .noise => 0x0C
  | .dmc => 0x10
  | .status => 0x15
  | .frameCounter => 0x17

def size : Channel → Nat
  | .status => 1
  | .frameCounter => 1
  | _ => 4

/-- The block a register lies in. -/
def owner? (register : UInt8) : Option Channel :=
  if register < 0x04 then some .pulse1
  else if register < 0x08 then some .pulse2
  else if register < 0x0C then some .triangle
  else if register < 0x10 then some .noise
  else if register < 0x14 then some .dmc
  else if register = 0x15 then some .status
  else if register = 0x17 then some .frameCounter
  else none

/-- The channel that owns a register, and the register's offset in its block. -/
def ofRegister? (register : UInt8) : Option (Channel × UInt8) :=
  (owner? register).map fun c => (c, register - c.base)

/-- The two-letter code of a channel in listings and messages. -/
def code : Channel → String
  | .pulse1 => "p1"
  | .pulse2 => "p2"
  | .triangle => "tr"
  | .noise => "no"
  | .dmc => "dm"
  | .status => "ch"
  | .frameCounter => "fc"

def voice? : Channel → Option Voice
  | .pulse1 => some .pulse1
  | .pulse2 => some .pulse2
  | .triangle => some .triangle
  | .noise => some .noise
  | _ => none

end Channel

namespace Voice

def all : List Voice := [.pulse1, .pulse2, .triangle, .noise]

def channel : Voice → Channel
  | .pulse1 => .pulse1
  | .pulse2 => .pulse2
  | .triangle => .triangle
  | .noise => .noise

theorem voice?_channel (v : Voice) : v.channel.voice? = some v := by
  cases v <;> rfl

theorem channel_ne_status (v : Voice) : v.channel ≠ .status := by
  cases v <;> decide

/-- The column of a voice in a score. -/
def index : Voice → Nat
  | .pulse1 => 0
  | .pulse2 => 1
  | .triangle => 2
  | .noise => 3

def ofIndex? : Nat → Option Voice
  | 0 => some .pulse1
  | 1 => some .pulse2
  | 2 => some .triangle
  | 3 => some .noise
  | _ => none

end Voice

/-- One thing per voice. -/
structure Voices (α : Type) where
  pulse1 : α
  pulse2 : α
  triangle : α
  noise : α
  deriving DecidableEq, Repr

namespace Voices

variable {α β : Type}

def get (x : Voices α) : Voice → α
  | .pulse1 => x.pulse1
  | .pulse2 => x.pulse2
  | .triangle => x.triangle
  | .noise => x.noise

def ofFn (f : Voice → α) : Voices α :=
  ⟨f .pulse1, f .pulse2, f .triangle, f .noise⟩

@[simp] theorem get_ofFn (f : Voice → α) (v : Voice) : (ofFn f).get v = f v := by
  cases v <;> rfl

theorem ext_get {x y : Voices α} (h : ∀ v, x.get v = y.get v) : x = y := by
  cases x; cases y
  simp only [mk.injEq]
  exact ⟨h .pulse1, h .pulse2, h .triangle, h .noise⟩

def const (a : α) : Voices α := ⟨a, a, a, a⟩

def map (f : α → β) (x : Voices α) : Voices β :=
  ⟨f x.pulse1, f x.pulse2, f x.triangle, f x.noise⟩

@[simp] theorem get_map (f : α → β) (x : Voices α) (v : Voice) :
    (x.map f).get v = f (x.get v) := by
  cases v <;> rfl

def toList (x : Voices α) : List α := [x.pulse1, x.pulse2, x.triangle, x.noise]

end Voices

end ApuScore
