import Diachrony.Journal.Event

/-!
# Reports from nested sources

Work on a source may contain work on other sources.  An event that is attributed takes the
name of the innermost source it happens in; an event that is noted goes out as it is.
-/

namespace Diachrony

inductive Report where
  /-- An event that goes out as it is. -/
  | noted (event : Event)
  /-- An event that takes the name of the source around it. -/
  | attributed (event : Event)
  | within (source : String) (reports : List Report)

namespace Report

mutual

/-- The events of a report, in order; `source` is the innermost source around it. -/
def events (source : Option String) : Report → List Event
  | noted event => [event]
  | attributed event => [source.elim event fun source => event.underSource source]
  | within inner reports => allEvents (some inner) reports

def allEvents (source : Option String) : List Report → List Event
  | [] => []
  | report :: rest => events source report ++ allEvents source rest

end

/-- The report of a failure met inside nested sources, the outermost first.  It is noted on
the way in, at every source and once at the end; on the way out every source attributes it
to the source around, with its own name and the number of sources inside it. -/
def ofFailure [Limits] (code : Code) (message : String) : List String → List Report
  | [] => [noted (Event.error code message [])]
  | source :: inner =>
      let failure := (Event.error code message [("depth", source)]).atLine inner.length
      [noted (Event.error code message []), within source (ofFailure code message inner),
       attributed failure]

end Report

end Diachrony
