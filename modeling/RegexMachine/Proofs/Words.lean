import Mathlib
import RegexMachine.Proofs.EntryPoints
import RegexMachine.Proofs.Resume

/-!
# Proofs/Words — bytes are searched as the words they stand for

The machine asks a unit for its value as a word, and for nothing else. So a query over units of any
width makes the same steps as the query over their values (`Query.words`): every operation of the
machine, of searches and of cursors has one lemma that says so. A regex therefore gives the same
answers for bytes and for the same values held in words, whichever entry point is used
(`Regex.words_agree`).
-/

namespace RegexMachine

/-! ## Values of units -/

/-- The query over the values of the units. -/
def Query.words {α : Type} [CodeUnit α] (q : Query α) : Query UInt16 :=
  { q with input := q.input.map CodeUnit.word }

namespace Subject

/-- The same values, held in words. -/
def words : Subject → Subject
  | oneByte units => twoByte (units.map UInt8.toUInt16)
  | twoByte units => twoByte units

end Subject

/-- The same values and the same start. -/
def Input.words (input : Input) : Input := { input with subject := input.subject.words }

/-- The same search, in the same values. -/
def Cursor.words (c : Cursor) : Cursor := { c with subject := c.subject.words }

variable {α : Type} [CodeUnit α]

@[simp] theorem Query.size_words (q : Query α) : q.words.input.size = q.input.size :=
  Array.size_map

theorem unitBefore?_map_word (input : Array α) (position : Nat) :
    unitBefore? (input.map CodeUnit.word) position =
      (unitBefore? input position).map CodeUnit.word := by
  rw [unitBefore?, unitBefore?, Array.getElem?_map]
  split <;> rfl

/-- **An assertion says of a unit what it says of its value.** -/
theorem Assertion.holds_map_word (kind : Assertion) (input : Array α) (position : Nat) :
    kind.holds (input.map CodeUnit.word) position = kind.holds input position := by
  have hboundary :
      isWordBoundary (input.map CodeUnit.word) position = isWordBoundary input position := by
    rw [isWordBoundary, isWordBoundary, unitBefore?_map_word, Array.getElem?_map]
    rcases unitBefore? input position with _ | before <;> rcases input[position]? with _ | after <;>
      rfl
  cases kind with
  | startOfInput => rfl
  | endOfInput => rw [holds, holds, Array.size_map]
  | startOfLine =>
    rw [holds, holds, unitBefore?_map_word]
    cases unitBefore? input position <;> rfl
  | endOfLine =>
    rw [holds, holds, Array.size_map, Array.getElem?_map]
    cases input[position]? <;> rfl
  | wordBoundary => exact hboundary
  | notWordBoundary => exact congrArg not hboundary

/-! ## Scans -/

namespace Machine

variable (q : Query α) (m : Machine)

theorem execute_words (t : Thread) (i : Instruction) :
    m.execute q.words t i = m.execute q t i := by
  cases i with
  | assert kind => rw [execute, execute, Query.words, Assertion.holds_map_word]
  | _ => rfl

/-- **A step is the same over the values of the units.** -/
theorem step_words : m.step q.words = m.step q := by
  simp only [step, execute_words]
  rfl

theorem drain_words : m.drain q.words = m.drain q := by
  fun_induction drain q m with
  | case1 m hidle => exact drain_of_isIdle _ hidle
  | case2 m hbusy ih =>
    rw [drain_of_busy _ (Bool.eq_false_iff.mpr hbusy), step_words, ih]

theorem read_words (hlt : m.position < q.input.size) (hlt' : m.position < q.words.input.size) :
    m.read q.words hlt' = m.read q hlt := by
  have hunit : q.words.input[m.position] = CodeUnit.word q.input[m.position] :=
    Array.getElem_map ..
  rw [read, read, hunit]
  rfl

/-- **Reading the input is the same over the values of the units.** -/
theorem run_words (host : Host) : m.run q.words host = m.run q host := by
  induction m, host using run_induction q with
  | settled m host hsettled => rw [run_of_settled q hsettled, run_of_settled q.words hsettled]
  | ends m host hunsettled hend =>
    rw [run_of_end q hunsettled hend, run_of_end q.words hunsettled (by rwa [q.size_words])]
  | interrupt m host error later hunsettled hlt hpoll =>
    rw [run_of_interrupt q hunsettled hlt hpoll,
      run_of_interrupt q.words hunsettled (by rwa [q.size_words]) hpoll]
  | proceed m host later hunsettled hlt hpoll ih =>
    rw [run_of_proceed q hunsettled hlt hpoll,
      run_of_proceed q.words hunsettled (by rwa [q.size_words]) hpoll, read_words q m hlt,
      drain_words, ih]

theorem scan_words (host : Host) : m.scan q.words host = m.scan q host := by
  rw [scan, scan, drain_words, run_words]
  rfl

end Machine

/-! ## Searches -/

namespace Search

variable (q : Query α)

theorem start_words (position : Nat) : start q.words position = start q position := by
  rw [start, start, Query.size_words]
  rfl

theorem passMatch_words (m : Machine) (span : Span) :
    passMatch q.words m span = passMatch q m span := by
  rw [passMatch, passMatch, Query.size_words]

theorem conclude_words (m : Machine) : conclude q.words m = conclude q m := by
  simp only [conclude, Query.size_words, passMatch_words]

theorem next_words (s : Search) (host : Host) : s.next q.words host = s.next q host := by
  simp only [next, Machine.scan_words, conclude_words]

theorem collect_words (limit : Nat) (s : Search) (host : Host) :
    collect q.words limit s host = collect q limit s host := by
  induction limit generalizing s host with
  | zero => rfl
  | succ limit ih => simp only [collect, next_words, ih]

theorem fill_words (s : Search) (host : Host) (output : Array (Option Nat)) :
    s.fill q.words host output = s.fill q host output := by
  rw [fill, fill, collect_words]
  rfl

/-- **A series of calls comes to the same over the values of the units.** -/
theorem replies_words (s : Search) (calls : List Call) :
    s.replies q.words calls = s.replies q calls ∧ s.after q.words calls = s.after q calls := by
  induction calls generalizing s with
  | nil => exact ⟨rfl, rfl⟩
  | cons call calls ih =>
    cases call with
    | next host =>
      obtain ⟨hreplies, hafter⟩ := ih (s.next q host).2.1
      simp only [replies, after, List.foldl_cons, perform, next_words] at hafter ⊢
      exact ⟨congrArg _ hreplies, hafter⟩
    | fill host output =>
      obtain ⟨hreplies, hafter⟩ := ih (s.fill q host output).2.2.1
      simp only [replies, after, List.foldl_cons, perform, fill_words] at hafter ⊢
      exact ⟨congrArg _ hreplies, hafter⟩

end Search

/-! ## Cursors -/

namespace Cursor

variable (c : Cursor)

/-- The cursor of a regex over words. -/
def overWords (re : Regex) (units : Array UInt16) (search : Search) : Cursor :=
  { regex := re, subject := .twoByte units, search }

/-- **A cursor finds the same over the values of the units.** -/
theorem next_words (host : Host) :
    c.words.next host = ((c.next host).1, (c.next host).2.1.words, (c.next host).2.2) := by
  obtain ⟨re, units | units, search⟩ := c
  · exact congrArg (fun x => (x.1, overWords re (units.map UInt8.toUInt16) x.2.1, x.2.2))
      (Search.next_words (re.query units) search host)
  · rfl

theorem fill_words (host : Host) (output : Array (Option Nat)) :
    c.words.fill host output =
      ((c.fill host output).1, (c.fill host output).2.1, (c.fill host output).2.2.1.words,
        (c.fill host output).2.2.2) := by
  obtain ⟨re, units | units, search⟩ := c
  · exact congrArg
      (fun x => (x.1, x.2.1, overWords re (units.map UInt8.toUInt16) x.2.2.1, x.2.2.2))
      (Search.fill_words (re.query units) search host output)
  · rfl

theorem nextSpan?_words : c.words.nextSpan? = (c.nextSpan?.1, c.nextSpan?.2.words) := by
  rw [nextSpan?, next_words]
  rfl

theorem nextCaptures?_words :
    c.words.nextCaptures? = (c.nextCaptures?.1, c.nextCaptures?.2.words) := by
  rw [nextCaptures?, next_words]
  rfl

/-- **Two iterations stay side by side**, as long as they are asked. -/
theorem iterate_words (times : Nat) :
    (fun c => c.nextSpan?.2)^[times] c.words = ((fun c => c.nextSpan?.2)^[times] c).words ∧
      (fun c => c.nextCaptures?.2)^[times] c.words =
        ((fun c => c.nextCaptures?.2)^[times] c).words := by
  have hspans : Function.Semiconj Cursor.words (fun c => c.nextSpan?.2) (fun c => c.nextSpan?.2) :=
    fun c => congrArg Prod.snd c.nextSpan?_words.symm
  have hcaptures : Function.Semiconj Cursor.words (fun c => c.nextCaptures?.2)
      (fun c => c.nextCaptures?.2) :=
    fun c => congrArg Prod.snd c.nextCaptures?_words.symm
  exact ⟨(hspans.iterate_right times c).symm, (hcaptures.iterate_right times c).symm⟩

theorem items_words (times : Nat) :
    c.words.spanAfter times = c.spanAfter times ∧
      c.words.capturesAfter times = c.capturesAfter times := by
  obtain ⟨hspans, hcaptures⟩ := c.iterate_words times
  rw [spanAfter, capturesAfter, hspans, hcaptures, nextSpan?_words, nextCaptures?_words]
  exact ⟨rfl, rfl⟩

end Cursor

namespace Regex

theorem findAll_words (re : Regex) (input : Input) :
    re.findAll input.words = (re.findAll input).words := by
  obtain ⟨units | units, start⟩ := input
  · exact congrArg (Cursor.overWords re (units.map UInt8.toUInt16))
      (Search.start_words (re.query units) start)
  · rfl

/-- **Bytes are searched as the words they stand for**, whatever ranges and assertions the program
has.

* Searches of the bytes, and of the same values held in words, go through the same states under
  every series of calls, and every call gives the same answer, with the same output and the same
  polls.
* So every entry point of a regex gives the same answer, and an iteration gives the same items and
  counters, for as long as it is asked. -/
theorem words_agree (re : Regex) (units : Array UInt8) (start : Nat) :
    let wide := units.map UInt8.toUInt16
    (∀ calls,
        (Search.start (re.query wide) start).replies (re.query wide) calls =
            (Search.start (re.query units) start).replies (re.query units) calls ∧
          (Search.start (re.query wide) start).after (re.query wide) calls =
            (Search.start (re.query units) start).after (re.query units) calls) ∧
      let bytes : Input := { subject := .oneByte units, start }
      let words : Input := { subject := .twoByte wide, start }
      re.isMatch words = re.isMatch bytes ∧ re.find words = re.find bytes ∧
        re.findCaptures words = re.findCaptures bytes ∧
        (∀ host output, re.fill words host output = re.fill bytes host output) ∧
        ∀ times,
          (re.findAll words).spanAfter times = (re.findAll bytes).spanAfter times ∧
            (re.findAll words).capturesAfter times = (re.findAll bytes).capturesAfter times ∧
            ((fun c => c.nextSpan?.2)^[times] (re.findAll words)).stats =
              ((fun c => c.nextSpan?.2)^[times] (re.findAll bytes)).stats := by
  intro wide
  refine ⟨fun calls => ?_, ?_⟩
  · have hstart : Search.start (re.query wide) start = Search.start (re.query units) start :=
      Search.start_words (re.query units) start
    rw [hstart]
    exact Search.replies_words (re.query units) _ calls
  · intro bytes words
    have hcursor : re.findAll words = (re.findAll bytes).words := re.findAll_words bytes
    have hfind : re.find words = re.find bytes := by
      rw [find, find, hcursor, Cursor.next_words]
    refine ⟨?_, hfind, ?_, fun host output => ?_, fun times => ?_⟩
    · rw [isMatch, isMatch, hfind]
    · rw [findCaptures, findCaptures, hcursor, Cursor.next_words]
    · rw [fill, fill, hcursor, Cursor.fill_words]
    · rw [hcursor, ((re.findAll bytes).iterate_words times).1]
      exact ⟨((re.findAll bytes).items_words times).1, ((re.findAll bytes).items_words times).2,
        rfl⟩

end Regex

end RegexMachine
