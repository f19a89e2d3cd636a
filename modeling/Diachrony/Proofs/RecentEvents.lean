import Diachrony.Journal.Log
import Mathlib.Data.List.DropRight

/-!
# The events a log holds

A log is asked to record events, to change the level it lets through and to forget what it has
recorded.  Whatever it has been asked, it holds the latest of the events it has let through since
it last forgot: all of them, or as many as a recording keeps.  Its queue never differs from a plain
list that gives up as many of its oldest events as it needs to.
-/

namespace Diachrony

/-- A log lets through the levels from the most urgent to its own. -/
theorem Level.isWithin_iff_mem_take {level least : Level} :
    level.isWithin least = true ↔ level ∈ all.take (all.idxOf least + 1) := by
  cases level <;> cases least <;> decide

/-- The latest elements of a list that grows by one: the oldest makes room if they are as many as
are kept. -/
theorem rtake_concat {α : Type} (history : List α) (a : α) {limit : Nat} (hlimit : 0 < limit) :
    (history ++ [a]).rtake limit =
      (if (history.rtake limit).length ≥ limit then (history.rtake limit).drop 1
        else history.rtake limit) ++ [a] := by
  obtain ⟨spare, rfl⟩ := Nat.exists_eq_succ_of_ne_zero (Nat.ne_of_gt hlimit)
  rw [List.rtake_concat_succ]
  congr 1
  simp only [List.rtake, List.length_drop]
  split
  · rw [List.drop_drop]
    congr 1
    omega
  · congr 1
    omega

namespace Recording

variable {recording : Recording} {history : List Event}

/-- Whether a recording holds the latest of some events, and counts what it holds. -/
structure Holds [Limits] (recording : Recording) (history : List Event) : Prop where
  events_eq : recording.events = history.rtake Limits.recordedEvents
  count_eq : recording.count = recording.events.length

theorem holds_empty [Limits] : empty.Holds [] := by
  refine ⟨?_, rfl⟩
  rw [events_empty, List.rtake_nil]

theorem count_dropOldest (recording : Recording) :
    recording.dropOldest.count = recording.count - 1 := by
  unfold dropOldest
  cases recording.oldest <;> rfl

theorem count_record [Limits] (recording : Recording) (event : Event) :
    (recording.record event).count =
      (if recording.count ≥ Limits.recordedEvents then recording.count - 1
        else recording.count) + 1 := by
  unfold record
  split
  · rw [← count_dropOldest]
  · rfl

theorem Holds.record [Limits] (h : recording.Holds history) (event : Event) :
    (recording.record event).Holds (history ++ [event]) := by
  constructor
  · rw [events_record, rtake_concat history event Limits.recordedEvents_pos, ← h.events_eq,
      ← h.count_eq]
  · rw [count_record, events_record, List.length_append, List.length_singleton, h.count_eq]
    split
    · rw [List.length_drop]
    · rfl

theorem Holds.length_le [Limits] (h : recording.Holds history) :
    recording.events.length ≤ Limits.recordedEvents := by
  rw [h.events_eq, List.rtake, List.length_drop]
  omega

/-- Every event has one of the four levels. -/
theorem summary_total (recording : Recording) :
    recording.summary.errors + recording.summary.warnings + recording.summary.infos +
      recording.summary.debugs = recording.summary.total := by
  simp only [summary, atLevel]
  induction recording.events with
  | nil => rfl
  | cons event events ih =>
      cases hlevel : event.level <;> simp [hlevel] <;> omega

end Recording

namespace Log

inductive Call where
  | add (event : Event)
  | setLeast (least : Level)
  | clear
  deriving DecidableEq, Repr

def call [Limits] (log : Log) : Call → Log
  | .add event => log.add event
  | .setLeast least => log.setLeast least
  | .clear => log.clear

def afterCalls [Limits] (log : Log) (calls : List Call) : Log :=
  calls.foldl call log

/-- The events of a run of calls that are let through at the level in force when they are added,
and not cleared away later in the run; `least` is in force at its start. -/
def accepted (least : Level) : List Call → List Event
  | [] => []
  | .add event :: calls =>
      if event.level.isWithin least ∧ .clear ∉ calls then event :: accepted least calls
      else accepted least calls
  | .setLeast least :: calls => accepted least calls
  | .clear :: calls => accepted least calls

theorem holds_add [Limits] {log : Log} {history : List Event} (h : log.recording.Holds history)
    (event : Event) :
    (log.add event).recording.Holds
      (history ++ if event.level.isWithin log.least then [event] else []) := by
  unfold add admits
  split
  · exact h.record event
  · rwa [List.append_nil]

theorem holds_afterCalls [Limits] {log : Log} {history : List Event}
    (h : log.recording.Holds history) (calls : List Call) :
    (log.afterCalls calls).recording.Holds
      (if .clear ∈ calls then accepted log.least calls
        else history ++ accepted log.least calls) := by
  induction calls generalizing log history with
  | nil => simpa [afterCalls, accepted] using h
  | cons first calls ih =>
      cases first with
      | add event =>
          have hleast : (log.add event).least = log.least := by
            unfold add
            split <;> rfl
          have hrest := ih (holds_add h event)
          rw [hleast] at hrest
          by_cases hclear : .clear ∈ calls
          · simpa [afterCalls, call, accepted, hclear] using hrest
          · by_cases hwithin : event.level.isWithin log.least = true <;>
              simpa [afterCalls, call, accepted, hclear, hwithin] using hrest
      | setLeast least =>
          have hset : (log.setLeast least).recording.Holds history := h
          simpa [afterCalls, call, accepted, setLeast] using ih hset
      | clear =>
          have hcleared : log.clear.recording.Holds [] := Recording.holds_empty
          have hrest := ih hcleared
          rw [List.nil_append, ite_self] at hrest
          rw [if_pos List.mem_cons_self]
          exact hrest

/-! ## A plain list of events -/

structure Buffer where
  least : Level
  events : List Event
  deriving DecidableEq, Repr

/-- Record an event; if there is no room, all events go that stand in its way. -/
def Buffer.record [Limits] (buffer : Buffer) (event : Event) : Buffer :=
  let kept :=
    if buffer.events.length ≥ Limits.recordedEvents then
      buffer.events.drop (buffer.events.length - Limits.recordedEvents + 1)
    else buffer.events
  { buffer with events := kept ++ [event] }

def Buffer.call [Limits] (buffer : Buffer) : Call → Buffer
  | .add event => if event.level.isWithin buffer.least then buffer.record event else buffer
  | .setLeast least => { buffer with least }
  | .clear => { buffer with events := [] }

def view (log : Log) : Buffer :=
  ⟨log.least, log.recording.events⟩

theorem holds_call [Limits] {log : Log} (h : ∃ history, log.recording.Holds history) (call : Call) :
    ∃ history, (log.call call).recording.Holds history := by
  obtain ⟨history, h⟩ := h
  cases call with
  | add event => exact ⟨_, holds_add h event⟩
  | setLeast least => exact ⟨history, h⟩
  | clear => exact ⟨[], Recording.holds_empty⟩

/-- A call does to the queue what it does to the list: there is never more than one event in the
way of another. -/
theorem view_call [Limits] {log : Log} (h : ∃ history, log.recording.Holds history) (call : Call) :
    (log.call call).view = log.view.call call := by
  obtain ⟨history, h⟩ := h
  cases call with
  | add event =>
      have hevents : (log.recording.record event).events = (log.view.record event).events := by
        have hlength := h.length_le
        rw [Recording.events_record, h.count_eq, Buffer.record]
        by_cases hfull : log.recording.events.length ≥ Limits.recordedEvents
        · have hone : log.recording.events.length - Limits.recordedEvents + 1 = 1 := by
            rw [Nat.le_antisymm hlength hfull, Nat.sub_self]
          rw [view, if_pos hfull, if_pos hfull, hone]
        · rw [view, if_neg hfull, if_neg hfull]
      by_cases hwithin : event.level.isWithin log.least = true
      · have hview : log.view.call (.add event) = log.view.record event := if_pos hwithin
        rw [Log.call, add, admits, if_pos hwithin, hview, view, hevents]
        rfl
      · have hview : log.view.call (.add event) = log.view := if_neg hwithin
        rw [Log.call, add, admits, if_neg hwithin, hview]
  | setLeast least => rfl
  | clear => rfl

theorem view_afterCalls [Limits] {log : Log} (h : ∃ history, log.recording.Holds history)
    (calls : List Call) : (log.afterCalls calls).view = calls.foldl Buffer.call log.view := by
  induction calls generalizing log with
  | nil => rfl
  | cons call calls ih =>
      have hrun : log.afterCalls (call :: calls) = (log.call call).afterCalls calls := rfl
      rw [hrun, ih (holds_call h call), view_call h call, List.foldl_cons]

/-- Whatever a log has been asked to do, it holds the latest of the events it has let through
since it was last cleared, as many as a recording keeps, as a plain list does, and the summary
counts each once. -/
theorem events_afterCalls [Limits] (least : Level) (calls : List Call) :
    let log := (opened least).afterCalls calls
    let recording := log.recording
    recording.events = (accepted least calls).rtake Limits.recordedEvents ∧
      recording.count = recording.events.length ∧
      log.view = calls.foldl Buffer.call ⟨least, []⟩ ∧
      recording.summary.total = recording.events.length ∧
      recording.summary.errors + recording.summary.warnings + recording.summary.infos +
        recording.summary.debugs = recording.summary.total := by
  intro log recording
  have hopened : (opened least).recording.Holds [] := Recording.holds_empty
  have hholds := holds_afterCalls hopened calls
  rw [List.nil_append, ite_self] at hholds
  exact ⟨hholds.events_eq, hholds.count_eq, view_afterCalls ⟨[], hopened⟩ calls, rfl,
    recording.summary_total⟩

/-- A warning that came before the log was cleared is gone, a note comes below the level that is
let through then, and an error stays. -/
example :
    let warning := Event.plain .warning Code.plainWarning "early"
    let note := Event.plain .info Code.plainInfo "note"
    let failure := Event.plain .error Code.internalError "late"
    let log := (opened .debug).afterCalls
      [.add warning, .clear, .setLeast .warning, .add note, .add failure]
    log.recording.events = [failure] ∧ log.recording.summary = ⟨1, 1, 0, 0, 0⟩ := by
  decide

end Log

end Diachrony
