import RegexMachine.Captures
import RegexMachine.Scan

/-!
# Search — the matches of a program in an input, one after the other

A `Search` makes one scan per match. `Search.next` finds the next match and moves past it, an empty
match counting as one unit, so that matches never overlap and none is found twice. Once it has found
no more, or failed, a search is finished and stays so. `Search.fill` writes matches into an array
of registers until the array is full.
-/

namespace RegexMachine

/-- The state of a search: the machine between two scans, and whether no scan is to follow. -/
structure Search where
  machine : Machine
  finished : Bool
  deriving DecidableEq, Repr

namespace Search

variable {α : Type} [CodeUnit α]

/-- A search that begins at a unit of the input, or at its end. From past the end nothing is
found. -/
def start (q : Query α) (position : Nat) : Search where
  machine := .idle q (min position q.input.size)
  finished := q.input.size < position

def position (s : Search) : Nat := s.machine.position

def stats (s : Search) : Stats := s.machine.stats

/-- What is found by asking once: the registers of a match, the end, or an error. -/
abbrev Outcome := Except SearchError (Option Registers)

/-- Ends a search that failed. -/
def fail (m : Machine) : Search := { machine := m.clear, finished := true }

/-- **Ends or goes on after a match** — behind the match, one unit further if it is empty, and not
at all after an empty match at the end of the input. -/
def passMatch (q : Query α) (m : Machine) (span : Span) : Search :=
  let atEnd := span.stop == q.input.size
  { machine := { m with position := if span.isEmpty && !atEnd then span.stop + 1 else span.stop }
    finished := span.isEmpty && atEnd }

/-- What the best match of a scan amounts to. Registers 0 and 1 have to bound a span of the
input. -/
def conclude (q : Query α) (m : Machine) : Outcome × Search :=
  match m.best with
  | none => (.ok none, { machine := m, finished := true })
  | some registers =>
    match registers.span?.filter (·.stop ≤ q.input.size) with
    | some span => (.ok (some registers), passMatch q m span)
    | none =>
      (.error (.malformedMatch (registers.position? 0) (registers.position? 1)), fail m)

/-- **Finds the next match** and returns all its registers. -/
def next (q : Query α) (s : Search) (host : Host) : Outcome × Search × Host :=
  if s.finished then (.ok none, s, host)
  else
    match s.machine.scan q host with
    | (some error, m, host) => (.error error, fail m, host)
    | (none, m, host) =>
      let (outcome, s) := conclude q m
      (outcome, s, host)

/-! ## Several matches at once -/

/-- Matches found one after the other, and the error that ended them, if one did. -/
structure Batch where
  found : List Registers := []
  error? : Option SearchError := none
  deriving DecidableEq, Repr

/-- Finds at most `limit` matches. -/
def collect (q : Query α) : Nat → Search → Host → Batch × Search × Host
  | 0, s, host => ({}, s, host)
  | limit + 1, s, host =>
    match s.next q host with
    | (.ok none, s, host) => ({}, s, host)
    | (.error error, s, host) => ({ error? := some error }, s, host)
    | (.ok (some registers), s, host) =>
      let (rest, s, host) := collect q limit s host
      ({ rest with found := registers :: rest.found }, s, host)

namespace Batch

/-- The number of matches, if there was no error. -/
def result (b : Batch) : Except SearchError Nat :=
  match b.error? with
  | some error => .error error
  | none => .ok b.found.length

/-- Writes the registers of all matches over the beginning of an array. -/
def writeOver (b : Batch) (output : Array (Option Nat)) : Array (Option Nat) :=
  let written := (b.found.map Array.toList).flatten
  written.toArray ++ output.extract written.length output.size

end Batch

/-- **Fills an array with matches** — as many as there are, or as fit in whole, one after the other
from the beginning. Returns their number and the array; behind them, and behind the matches found
before an error, it is left as it was. -/
def fill (q : Query α) (s : Search) (host : Host) (output : Array (Option Nat)) :
    Except SearchError Nat × Array (Option Nat) × Search × Host :=
  let (batch, s, host) := collect q (output.size / q.registerCount) s host
  (batch.result, batch.writeOver output, s, host)

end Search

end RegexMachine
