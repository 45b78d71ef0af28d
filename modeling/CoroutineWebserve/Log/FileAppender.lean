import Mathlib.Data.UInt
import Mathlib.Tactic.Common

/-!
# `FileLogAppender`

The appender opens its file anew every three seconds, and whenever it is asked to. `open`
truncates the file: what has been logged is kept as long as nothing is opened behind it.
-/
namespace CoroutineWebserve.Log

abbrev Bytes := List UInt8

/-- `LogLevel::Level`. -/
inductive LogLevel
  | UNKNOW | DEBUG | INFO | WARN | ERROR | FATAL
deriving Repr, DecidableEq

namespace LogLevel

def toNat : LogLevel → ℕ
  | UNKNOW => 0
  | DEBUG => 1
  | INFO => 2
  | WARN => 3
  | ERROR => 4
  | FATAL => 5

instance : LE LogLevel := ⟨fun l m => l.toNat ≤ m.toNat⟩

instance (l m : LogLevel) : Decidable (l ≤ m) := inferInstanceAs (Decidable (l.toNat ≤ m.toNat))

end LogLevel

/-- What an appender and its formatter read of a `LogEvent`. -/
structure LogEvent where
  time : UInt64
  content : Bytes
deriving Repr, DecidableEq

/-- `LogFormatter::format`. -/
abbrev Format := LogLevel → LogEvent → Bytes

/-- A `std::ofstream`, with what the file holds once the stream is flushed; `failed` is the
negation of `operator bool`. -/
structure Ofstream where
  isOpen : Bool
  failed : Bool
  file : Bytes
deriving Repr, DecidableEq

namespace Ofstream

/-- `close()`: it fails when there is nothing to close. -/
def close (s : Ofstream) : Ofstream :=
  if s.isOpen then { s with isOpen := false } else { s with failed := true }

/-- `open(name)`: it fails on an open stream, and truncates the file otherwise. -/
def openFile (s : Ofstream) : Ofstream :=
  if s.isOpen then { s with failed := true } else ⟨true,false,[]⟩

/-- `operator<<`. -/
def write (s : Ofstream) (text : Bytes) : Ofstream :=
  if s.isOpen && !s.failed then { s with file := s.file++text } else { s with failed := true }

end Ofstream

structure FileLogAppender where
  level : LogLevel
  formatter : Format
  filestream : Ofstream
  lastTime : UInt64

namespace FileLogAppender

def reopen (a : FileLogAppender) : FileLogAppender :=
  { a with
    filestream := (if a.filestream.failed then a.filestream else a.filestream.close).openFile }

/-- The constructor; the level and the formatter are set behind it. -/
def new (level : LogLevel) (formatter : Format) (file : Bytes) : FileLogAppender :=
  reopen ⟨level,formatter,⟨false,false,file⟩,0⟩

def log (a : FileLogAppender) (level : LogLevel) (event : LogEvent) : FileLogAppender :=
  if a.level ≤ level then
    let a := if a.lastTime+3 ≤ event.time then { a.reopen with lastTime := event.time } else a
    { a with filestream := a.filestream.write (a.formatter level event) }
  else a

/-- What is called on an appender. -/
inductive Call
  | log (level : LogLevel) (event : LogEvent)
  | reopen

def step (a : FileLogAppender) : Call → FileLogAppender
  | .log level event => a.log level event
  | .reopen => a.reopen

def run (a : FileLogAppender) (calls : List Call) : FileLogAppender := calls.foldl step a

/-- What a call should add to the file. -/
def text (level : LogLevel) (formatter : Format) : Call → Bytes
  | .log l event => if level ≤ l then formatter l event else []
  | .reopen => []

/-- The call opens the file. -/
def Reopens (a : FileLogAppender) : Call → Prop
  | .log level event => a.level ≤ level ∧ a.lastTime+3 ≤ event.time
  | .reopen => True

instance (a : FileLogAppender) : DecidablePred a.Reopens := fun call => by
  cases call <;> unfold Reopens <;> infer_instance

/-! ### One call -/

/-- The stream is open, and no operation on it has failed. -/
def Writable (a : FileLogAppender) : Prop :=
  a.filestream.isOpen = true ∧ a.filestream.failed = false

theorem new_writable (level : LogLevel) (formatter : Format) (file : Bytes) :
    (new level formatter file).Writable := ⟨rfl,rfl⟩

theorem Writable.reopen {a : FileLogAppender} (h : a.Writable) :
    a.reopen.Writable ∧ a.reopen.filestream.file = [] := by
  simp [FileLogAppender.reopen, Writable, Ofstream.close, Ofstream.openFile, h.1, h.2]

theorem Writable.write {a : FileLogAppender} (h : a.Writable) (text : Bytes) :
    a.filestream.write text = { a.filestream with file := a.filestream.file++text } := by
  simp [Ofstream.write, h.1, h.2]

/-- A call keeps the stream writable; it adds its text to the file, or to nothing. -/
theorem Writable.step {a : FileLogAppender} (h : a.Writable) (call : Call) :
    (a.step call).Writable ∧ (a.step call).level = a.level ∧
      (a.step call).formatter = a.formatter ∧
      (a.step call).filestream.file =
        (if a.Reopens call then [] else a.filestream.file)++text a.level a.formatter call := by
  cases call with
  | reopen => exact ⟨h.reopen.1,rfl,rfl,by simp [FileLogAppender.step, Reopens, text, h.reopen.2]⟩
  | log level event =>
    simp only [FileLogAppender.step, log, Reopens, text]
    by_cases hlevel : a.level ≤ level
    · simp only [hlevel, true_and, if_true]
      by_cases htime : a.lastTime+3 ≤ event.time
      · have hw : { a.reopen with lastTime := event.time }.Writable := h.reopen.1
        simp only [if_pos htime, hw.write]
        exact ⟨h.reopen.1,rfl,rfl,by rw [h.reopen.2]; rfl⟩
      · simp only [if_neg htime, h.write]
        exact ⟨h,trivial,trivial,trivial⟩
    · simp only [hlevel, false_and, if_false, List.append_nil]
      exact ⟨h,trivial,trivial,trivial⟩

/-! ### Runs -/

/-- What the calls should add to the file. -/
def texts (level : LogLevel) (formatter : Format) (calls : List Call) : Bytes :=
  calls.flatMap (text level formatter)

/-- Whenever a call opens the file, nothing has been written to it. -/
def OpensEmpty (a : FileLogAppender) (written : Bytes) (calls : List Call) : Prop :=
  ∀ before call after, calls = before++call :: after → (a.run before).Reopens call →
    written++texts a.level a.formatter before = []

theorem opensEmpty_cons {a : FileLogAppender} (h : a.Writable) (written : Bytes) (call : Call)
    (calls : List Call) : a.OpensEmpty written (call :: calls) ↔
      (a.Reopens call → written = []) ∧
        (a.step call).OpensEmpty (written++text a.level a.formatter call) calls := by
  obtain ⟨-,hlevel,hformatter,-⟩ := h.step call
  constructor
  · intro hempty
    refine ⟨fun hr => ?_,fun before c after hcalls hr => ?_⟩
    · simpa [texts] using hempty [] call calls rfl hr
    · rw [hlevel, hformatter, List.append_assoc]
      exact hempty (call :: before) c after (by rw [hcalls, List.cons_append]) hr
  · rintro ⟨hhere,hrest⟩ before c after hcalls hr
    cases before with
    | nil =>
      cases hcalls
      rw [hhere hr]
      rfl
    | cons d before =>
      cases hcalls
      have hempty := hrest before c after rfl hr
      rwa [hlevel, hformatter, List.append_assoc] at hempty

/-- No call writes more than its text. -/
theorem length_run_le {a : FileLogAppender} (h : a.Writable) (calls : List Call) :
    (a.run calls).filestream.file.length ≤
      a.filestream.file.length+(texts a.level a.formatter calls).length := by
  induction calls generalizing a with
  | nil => simp [run, texts]
  | cons call calls ih =>
    obtain ⟨hw,hlevel,hformatter,hfile⟩ := h.step call
    have hstep : (a.step call).filestream.file.length ≤
        a.filestream.file.length+(text a.level a.formatter call).length := by
      rw [hfile, List.length_append]
      split <;> simp
    have hrest := ih hw
    rw [hlevel, hformatter] at hrest
    simp only [run, List.foldl_cons, texts, List.flatMap_cons, List.length_append] at hrest ⊢
    omega

theorem run_file_iff {a : FileLogAppender} (h : a.Writable) (calls : List Call) :
    (a.run calls).filestream.file = a.filestream.file++texts a.level a.formatter calls ↔
      a.OpensEmpty a.filestream.file calls := by
  induction calls generalizing a with
  | nil => exact iff_of_true (by simp [run, texts]) (by rintro (_ | _) _ _ ⟨⟩)
  | cons call calls ih =>
    obtain ⟨hw,hlevel,hformatter,hfile⟩ := h.step call
    rw [opensEmpty_cons h, run, List.foldl_cons, texts, List.flatMap_cons, ← List.append_assoc]
    by_cases hlost : a.Reopens call ∧ a.filestream.file ≠ []
    · -- the text that is lost is not made up for
      refine iff_of_false (fun heq => ?_) fun hempty => hlost.2 (hempty.1 hlost.1)
      have hle := length_run_le hw calls
      rw [hfile, if_pos hlost.1, hlevel, hformatter, List.nil_append] at hle
      have hlen := congrArg List.length heq
      have hpos := List.length_pos_iff.mpr hlost.2
      simp only [run, texts, List.length_append] at hle hlen
      omega
    · have hkept : (a.step call).filestream.file =
          a.filestream.file++text a.level a.formatter call := by
        rw [hfile]
        split
        · next hr => rw [not_not.mp fun hne => hlost ⟨hr,hne⟩]
        · rfl
      rw [and_iff_right fun hr => not_not.mp fun hne => hlost ⟨hr,hne⟩, ← hkept, ← ih hw, hlevel,
        hformatter]
      rfl

/-- The file holds all that has been logged exactly if it is not opened, by a caller or because
three seconds have passed, once there is something in it. -/
theorem run_keeps_iff (level : LogLevel) (formatter : Format) (file : Bytes)
    (calls : List Call) :
    ((new level formatter file).run calls).filestream.file =
        (new level formatter file).filestream.file++texts level formatter calls ↔
      ∀ before call after, calls = before++call :: after →
        ((new level formatter file).run before).Reopens call →
          texts level formatter before = [] :=
  run_file_iff (new_writable level formatter file) calls

/-- Two lines, three seconds apart. -/
theorem run_loses_line : ¬∀ (level : LogLevel) (formatter : Format) (file : Bytes)
    (calls : List Call),
    (calls.filterMap fun | .log _ event => some event.time | .reopen => none).Pairwise (· ≤ ·) →
    (∀ l event, .log l event ∈ calls → level ≤ l) →
    ((new level formatter file).run calls).filestream.file =
      (new level formatter file).filestream.file++texts level formatter calls := by
  intro h
  have hlines := h .DEBUG (fun _ event => event.content) []
    [.log .INFO ⟨10,[97,10]⟩,.log .INFO ⟨13,[98,10]⟩] (by decide) (by
      intro l event hmem
      simp only [List.mem_cons, Call.log.injEq, List.not_mem_nil, or_false] at hmem
      rcases hmem with ⟨rfl,-⟩ | ⟨rfl,-⟩
      all_goals decide)
  exact absurd hlines (by decide)

end FileLogAppender
end CoroutineWebserve.Log
