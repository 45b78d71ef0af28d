import CoroutineWebserve.Containers.OrderedSet
import CoroutineWebserve.Log.Formatter
import Mathlib.Logic.Function.Basic

/-!
# The configuration of the loggers

The listener of the variable `logs` brings the loggers of the `LoggerManager` from the old set of
definitions to the new one. It looks for the definition of the same name in the old set, and leaves
the logger alone when the two compare equal.
-/
namespace CoroutineWebserve.Log

/-! ### Loggers and appenders -/

/-- The classes derived from `LogAppender`. -/
inductive AppenderType
  | file (filename : Bytes)
  | stdout
deriving Repr, DecidableEq

/-- What the configuration sets of a `LogAppender`. -/
structure LogAppender where
  type : AppenderType
  level : LogLevel
  formatter : Option LogFormatter
  hasFormatter : Bool
deriving Repr, DecidableEq

namespace LogAppender

def new (type : AppenderType) : LogAppender := ⟨type,.DEBUG,none,false⟩

def setFormatter (ap : LogAppender) (val : Option LogFormatter) : LogAppender :=
  { ap with formatter := val, hasFormatter := val.isSome }

/-- What `Logger::setFormatter` does to an appender of the logger. -/
def inherit (val : Option LogFormatter) (ap : LogAppender) : LogAppender :=
  if ap.hasFormatter then ap else { ap with formatter := val }

/-- The formatter that the appender does not have from its logger. -/
def own (ap : LogAppender) : Option LogFormatter := if ap.hasFormatter then ap.formatter else none

end LogAppender

/-- A `Logger`; its appenders are numbered in the order of their creation. -/
structure Logger where
  level : LogLevel
  appenders : List ℕ
  formatter : Option LogFormatter
deriving Repr, DecidableEq

def Logger.new : Logger where
  level := .DEBUG
  appenders := []
  formatter := some (.new (bytes "%d{%Y-%m-%d %H:%M:%S}%T%t%T%N%T%F%T[%p]%T[%c]%T%f:%l%T%m%n"))

/-- The loggers by their names, and all the appenders that there are. -/
structure LoggerManager where
  loggers : Bytes → Option Logger
  appenders : List LogAppender

namespace LoggerManager

def setLogger (m : LoggerManager) (name : Bytes) (logger : Logger) : LoggerManager :=
  { m with loggers := Function.update m.loggers name (some logger) }

/-- `getLogger(name)`; afterwards there is a logger of this name. -/
def getLogger (m : LoggerManager) (name : Bytes) : LoggerManager :=
  match m.loggers name with
  | some _ => m
  | none => m.setLogger name .new

/-- A member function is called on the logger of this name. -/
def call (m : LoggerManager) (name : Bytes) (f : Logger → LoggerManager → LoggerManager) :
    LoggerManager :=
  match m.loggers name with
  | some logger => f logger m
  | none => m

theorem call_eq {m : LoggerManager} {name : Bytes} {logger : Logger}
    (h : m.loggers name = some logger) (f : Logger → LoggerManager → LoggerManager) :
    m.call name f = f logger m := by
  rw [call, h]

theorem call_none {m : LoggerManager} {name : Bytes} (h : m.loggers name = none)
    (f : Logger → LoggerManager → LoggerManager) : m.call name f = m := by
  rw [call, h]

def setLevel (m : LoggerManager) (name : Bytes) (val : LogLevel) : LoggerManager :=
  m.call name fun logger m => m.setLogger name { logger with level := val }

def setFormatter (m : LoggerManager) (name : Bytes) (val : Option LogFormatter) :
    LoggerManager :=
  m.call name fun logger m => { m.setLogger name { logger with formatter := val } with
    appenders := logger.appenders.foldl (fun l a => l.modify a (.inherit val)) m.appenders }

/-- The overload that takes a pattern. -/
def setFormatterPattern (m : LoggerManager) (name val : Bytes) : LoggerManager :=
  let new_val := LogFormatter.new val
  if new_val.error then m else m.setFormatter name (some new_val)

def addAppender (m : LoggerManager) (name : Bytes) (appender : ℕ) : LoggerManager :=
  m.call name fun logger m =>
    { m.setLogger name { logger with appenders := logger.appenders++[appender] } with
      appenders := m.appenders.modify appender fun ap =>
        if ap.formatter.isNone then { ap with formatter := logger.formatter } else ap }

def clearAppenders (m : LoggerManager) (name : Bytes) : LoggerManager :=
  m.call name fun logger m => m.setLogger name { logger with appenders := [] }

end LoggerManager

/-! ### Definitions -/

structure LogAppenderDefine where
  type : ℤ
  level : LogLevel
  formatter : Bytes
  file : Bytes
deriving Repr, DecidableEq

structure LogDefine where
  name : Bytes
  level : LogLevel
  formatter : Bytes
  appenders : List LogAppenderDefine
deriving Repr, DecidableEq

namespace LogDefine

/-- `operator==`, which compares the appenders with themselves. -/
def eq (d oth : LogDefine) : Bool :=
  d.name == oth.name && d.level == oth.level && d.formatter == oth.formatter &&
    d.appenders == d.appenders

/-- `operator<`. -/
def Before (d oth : LogDefine) : Prop := d.name < oth.name

instance : DecidableRel Before := fun _ _ => inferInstanceAs (Decidable (_ < _))

end LogDefine

/-- A `std::set<LogDefine>`. -/
structure LogDefines where
  defines : List LogDefine
  sorted : defines.Pairwise LogDefine.Before

namespace LogDefines

def find (v : LogDefines) (i : LogDefine) : Option LogDefine :=
  OrderedSet.find LogDefine.Before i v.defines

/-- `operator==` of the sets. -/
def eq (v w : LogDefines) : Bool :=
  v.defines.length == w.defines.length && (v.defines.zipWith LogDefine.eq w.defines).all id

end LogDefines

/-! ### The listener -/

/-- The listener sets the level and the formatter of an appender. -/
def LogAppenderDefine.setUp (a : LogAppenderDefine) (ap : LogAppender) : LogAppender :=
  let ap := { ap with level := a.level }
  if a.formatter ≠ [] then
    let fmt := LogFormatter.new a.formatter
    if ¬fmt.error then ap.setFormatter (some fmt) else ap
  else ap

/-- The appender that the listener makes; `none` where it calls a function on a null pointer. -/
def LogAppenderDefine.make (a : LogAppenderDefine) : Option LogAppender :=
  (if a.type = 1 then some (LogAppender.new (.file a.file))
    else if a.type = 2 then some (LogAppender.new .stdout)
    else none).map a.setUp

namespace LoggerManager

def addDefine (name : Bytes) (m : LoggerManager) (a : LogAppenderDefine) :
    Option LoggerManager :=
  a.make.map fun ap =>
    { m with appenders := m.appenders++[ap] }.addAppender name m.appenders.length

/-- What the listener does for a logger that is new or modified. -/
def configure (m : LoggerManager) (i : LogDefine) : Option LoggerManager :=
  let m := (m.getLogger i.name).setLevel i.name i.level
  let m := if i.formatter ≠ [] then m.setFormatterPattern i.name i.formatter else m
  i.appenders.foldlM (addDefine i.name) (m.clearAppenders i.name)

/-- What the listener does for a logger that is deleted. -/
def delete (m : LoggerManager) (i : LogDefine) : LoggerManager :=
  ((m.getLogger i.name).setLevel i.name .UNKNOW).clearAppenders i.name

/-- The body of the first loop. -/
def define (old_value : LogDefines) (m : LoggerManager) (i : LogDefine) : Option LoggerManager :=
  match old_value.find i with
  | none => m.configure i
  | some it => if ¬i.eq it then m.configure i else some m

/-- The body of the second loop. -/
def retire (new_value : LogDefines) (m : LoggerManager) (i : LogDefine) : LoggerManager :=
  match new_value.find i with
  | none => m.delete i
  | some _ => m

/-- The listener that `LogIniter` adds. -/
def listener (m : LoggerManager) (old_value new_value : LogDefines) : Option LoggerManager :=
  (new_value.defines.foldlM (define old_value) m).map fun m =>
    old_value.defines.foldl (retire new_value) m

end LoggerManager

/-- The variable `logs` and the loggers. -/
structure LogConfig where
  val : LogDefines
  manager : LoggerManager

/-- `ConfigVar::setValue` with the one listener. -/
def LogConfig.setValue (s : LogConfig) (v : LogDefines) : Option LogConfig :=
  if v.eq s.val then some s
  else (s.manager.listener s.val v).map fun manager => ⟨v,manager⟩

end CoroutineWebserve.Log
