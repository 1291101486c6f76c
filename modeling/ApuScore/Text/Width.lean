import ApuScore.Text.Wide
import ApuScore.Text.Emoji
import ApuScore.Text.Ligature
/-
  The columns that a text takes.

  A text is read from its end. Each character adds its columns in the light of what
  stands at its right: in a ligature or an emoji sequence it may add none, and a
  variation selector decides whether the character before it is drawn as emoji.
-/

namespace ApuScore.Width

/-- The sequence that stands at the right of a character. -/
inductive Follower where
  | other
  /-- The end of a ligature, with or without a joiner in front. -/
  | ligature (l : Ligature) (joined : Bool)
  | emoji (tail : Emoji.Tail)
  deriving DecidableEq, Repr

/-- What a variation selector asks for. -/
inductive Style where
  | unset
  | text
  | emoji
  deriving DecidableEq, Repr

/-- What stands at the right of a character. -/
structure Context where
  follower : Follower := .other
  style : Style := .unset
  deriving DecidableEq, Repr

namespace Follower

/-- The sequence that a character begins. -/
def start (n : Nat) : Follower :=
  match Emoji.Tail.start? n with
  | some tail => .emoji tail
  | none =>
    match Ligature.ending? n with
    | some l => .ligature l false
    | none => .other

/-- Behind a selector without effect: only ligatures outlast it. -/
def passed : Follower → Follower
  | .ligature l joined => .ligature l joined
  | _ => .other

/-- Whether a character in front continues an emoji that is counted already. -/
def isJoined : Follower → Bool
  | .emoji .joined | .emoji .keycap => true
  | _ => false

/-- With a selector in front. -/
def selected (f : Follower) (style : Style) : Context :=
  ⟨if style = .emoji && f.isJoined then f else f.passed, style⟩

/-- The columns that a character adds to a sequence, and the sequence with it, if it
belongs there. -/
def step? (n : Nat) : Follower → Option (Int × Follower)
  | .other => none
  | .ligature l joined =>
    if l.isTransparent && n = Emoji.joiner then some (0, .ligature l true)
    else if l.isTransparent && ZeroWidth.ignorableMarks.has n then some (0, .ligature l joined)
    else
      (l.letter? n joined).map fun (columns, rest) =>
        (columns, rest.elim .other fun l => .ligature l false)
  | .emoji tail => (tail.step? n).map fun (columns, t) => (columns, .emoji t)

end Follower

/-- The context without a style that did not apply. -/
def Context.unstyled (next : Context) (style : Style) : Context :=
  if next.style = style then ⟨next.follower.passed, .unset⟩ else next

/-- The columns of a character that no selector applies to, and its own context. -/
def plainStep (n : Nat) (next : Context) : Int × Context :=
  match next.follower.step? n with
  | some (columns, follower) => (columns, { follower })
  | none => (Wide.width n, { follower := .start n })

/-- The columns of a character in front of a context, and the context that it makes. -/
def step (n : Nat) (next : Context) : Int × Context :=
  if next.style = .emoji && Emoji.selectable.has n then
    (if next.follower.isJoined then 0 else 2, { follower := .emoji .emoji })
  else
    let next := next.unstyled .emoji
    if n ≤ 0xA0 then (1, {})
    else if n = 0xFE0F then (0, next.follower.selected .emoji)
    else if n = 0xFE0E then (0, next.follower.selected .text)
    else if next.style = .text && Emoji.hasText n then (1, {})
    else plainStep n (next.unstyled .text)

/-- The columns of a text, and the context that it makes. -/
def scan : List Char → Int × Context
  | [] => (0, {})
  | c :: rest =>
    let (columns, next) := scan rest
    let (more, here) := step c.toNat next
    (columns + more, here)

def ofText (text : String) : Nat := (scan text.toList).1.toNat

end ApuScore.Width
