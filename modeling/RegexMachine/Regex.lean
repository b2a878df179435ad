import RegexMachine.Search
import RegexMachine.Subject

/-!
# Regex — a program ready to be matched against subjects of either width

A `Regex` fixes what does not depend on the subject: the program, the number of registers and how
often the host is polled. `Regex.find`, `Regex.findCaptures` and `Regex.isMatch` look at the first
match, `Regex.fill` writes all of them into an array, and `Regex.findAll` gives a `Cursor` that
finds them one by one.
-/

namespace RegexMachine

/-- A program with as many registers as it needs, or more. -/
structure Regex where
  program : Program
  registerCount : Nat
  /-- Every register the program writes is there. -/
  enough : program.registerFault? registerCount = none
  pollInterval : Nat

/-- What a caller may choose about a regex. -/
structure Options where
  /-- Registers per match; as many as the program writes, if not given. -/
  registerCount? : Option Nat := none
  pollInterval : Nat := defaultPollInterval
  deriving DecidableEq, Repr

namespace Regex

/-- Makes a regex, if the registers suffice for the program. -/
def ofProgram (program : Program) (options : Options) : Except RegisterError Regex :=
  let registerCount := options.registerCount?.getD program.minRegisterCount
  match h : program.registerFault? registerCount with
  | none => .ok ⟨program, registerCount, h, options.pollInterval⟩
  | some fault => .error fault

variable (re : Regex)

/-- The number of groups of every match, group 0 included. -/
def captureCount : Nat := re.registerCount / 2

/-- The query for the matches of a regex in an input of either width. -/
def query {α : Type} (units : Array α) : Query α :=
  ⟨re.program, re.registerCount, re.enough, units, re.pollInterval⟩

end Regex

/-! ## One match after the other -/

/-- The matches of a regex in a subject, found as they are asked for. -/
structure Cursor where
  regex : Regex
  subject : Subject
  search : Search

namespace Cursor

/-- Finds the next match, under a host. -/
def next (c : Cursor) (host : Host) : Search.Outcome × Cursor × Host :=
  let (outcome, search, host) :=
    match c.subject with
    | .oneByte units => c.search.next (c.regex.query units) host
    | .twoByte units => c.search.next (c.regex.query units) host
  (outcome, { c with search }, host)

/-- Fills an array with matches, under a host. -/
def fill (c : Cursor) (host : Host) (output : Array (Option Nat)) :
    Except SearchError Nat × Array (Option Nat) × Cursor × Host :=
  let (result, output, search, host) :=
    match c.subject with
    | .oneByte units => c.search.fill (c.regex.query units) host output
    | .twoByte units => c.search.fill (c.regex.query units) host output
  (result, output, { c with search }, host)

def stats (c : Cursor) : Stats := c.search.stats

/-- The next item of an iteration, whose end is `none`. An error is an item. -/
def item? {β : Type} : Except SearchError (Option β) → Option (Except SearchError β)
  | .ok found => found.map .ok
  | .error error => some (.error error)

/-- The span of the next match. -/
def nextSpan? (c : Cursor) : Option (Except SearchError Span) × Cursor :=
  let (outcome, c, _) := c.next .quiet
  (item? (outcome.map (·.bind Registers.span?)), c)

/-- The groups of the next match. -/
def nextCaptures? (c : Cursor) : Option (Except SearchError Captures) × Cursor :=
  let (outcome, c, _) := c.next .quiet
  (item? (outcome.map (·.map Captures.ofRegisters)), c)

end Cursor

/-! ## Entry points -/

namespace Regex

variable (re : Regex)

/-- The matches in a subject from a unit on, none of them found yet. -/
def findAll (input : Input) : Cursor where
  regex := re
  subject := input.subject
  search :=
    match input.subject with
    | .oneByte units => .start (re.query units) input.start
    | .twoByte units => .start (re.query units) input.start

/-- The span of the first match. -/
def find (input : Input) : Except SearchError (Option Span) :=
  ((re.findAll input).next .quiet).1.map (·.bind Registers.span?)

/-- The groups of the first match. -/
def findCaptures (input : Input) : Except SearchError (Option Captures) :=
  ((re.findAll input).next .quiet).1.map (·.map Captures.ofRegisters)

/-- Whether there is a match. -/
def isMatch (input : Input) : Except SearchError Bool := (re.find input).map Option.isSome

/-- Fills an array with the registers of the matches, one match after the other. Returns their
number, the array, and the host as the search leaves it. -/
def fill (input : Input) (host : Host) (output : Array (Option Nat)) :
    Except SearchError Nat × Array (Option Nat) × Host :=
  let (result, output, _, host) := (re.findAll input).fill host output
  (result, output, host)

end Regex

end RegexMachine
