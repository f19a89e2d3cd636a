import Diachrony.Journal.Event

/-!
# Logs

A log lets events of sufficient urgency through and records them.  A recording keeps the
latest events only: when it is full, the oldest makes room.  It is a queue of two lists, so
that recording takes constant time on average; `events` is its view.
-/

namespace Diachrony

/-- The latest events: `oldest` in order, then `newest` from the last one backwards. -/
structure Recording where
  oldest : List Event
  newest : List Event
  count : Nat
  deriving Repr, Inhabited

namespace Recording

def empty : Recording :=
  ⟨[], [], 0⟩

def events (recording : Recording) : List Event :=
  recording.oldest ++ recording.newest.reverse

def dropOldest (recording : Recording) : Recording :=
  match recording.oldest with
  | _ :: rest => ⟨rest, recording.newest, recording.count - 1⟩
  | [] => ⟨recording.newest.reverse.drop 1, [], recording.count - 1⟩

/-- Record an event; a full recording gives up its oldest one. -/
def record [Limits] (recording : Recording) (event : Event) : Recording :=
  let kept :=
    if recording.count ≥ Limits.recordedEvents then recording.dropOldest else recording
  ⟨kept.oldest, event :: kept.newest, kept.count + 1⟩

theorem events_empty : empty.events = [] := rfl

theorem events_dropOldest (recording : Recording) :
    recording.dropOldest.events = recording.events.drop 1 := by
  unfold dropOldest events
  cases recording.oldest <;> simp

theorem events_record [Limits] (recording : Recording) (event : Event) :
    (recording.record event).events =
      (if recording.count ≥ Limits.recordedEvents then recording.events.drop 1
        else recording.events) ++ [event] := by
  have added : ∀ kept : Recording,
      (⟨kept.oldest, event :: kept.newest, kept.count + 1⟩ : Recording).events =
        kept.events ++ [event] := by
    intro kept
    simp [events]
  simp only [record, added]
  split
  · rw [events_dropOldest]
  · rfl

def atLevel (recording : Recording) (level : Level) : List Event :=
  recording.events.filter (·.level == level)

def inCategory (recording : Recording) (category : String) : List Event :=
  recording.events.filter (·.code.category == category)

def has (recording : Recording) (level : Level) (code : Code) : Bool :=
  (recording.atLevel level).any (·.code == code)

end Recording

structure Summary where
  total : Nat
  errors : Nat
  warnings : Nat
  infos : Nat
  debugs : Nat
  deriving DecidableEq, Repr

def Recording.summary (recording : Recording) : Summary :=
  let count (level : Level) := (recording.atLevel level).length
  ⟨recording.events.length, count .error, count .warning, count .info, count .debug⟩

/-- A recording behind a filter by level. -/
structure Log where
  /-- The least urgent level let through. -/
  least : Level
  recording : Recording
  deriving Repr, Inhabited

namespace Log

def opened (least : Level) : Log :=
  ⟨least, Recording.empty⟩

def admits (log : Log) (level : Level) : Bool :=
  level.isWithin log.least

def add [Limits] (log : Log) (event : Event) : Log :=
  if log.admits event.level then { log with recording := log.recording.record event } else log

def setLeast (log : Log) (least : Level) : Log :=
  { log with least }

def clear (log : Log) : Log :=
  { log with recording := Recording.empty }

end Log

end Diachrony
