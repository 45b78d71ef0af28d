import CoroutineWebserve.Log.Definition
import CoroutineWebserve.Yaml.Node

/-!
# Log definitions as YAML

A `LogDefine` is written as a mapping and read from one. Fields that have their default values are
left out.
-/
namespace CoroutineWebserve.Log
open Yaml (Node)

namespace LogLevel

def ToString : LogLevel → Bytes
  | DEBUG => bytes "DEBUG"
  | INFO => bytes "INFO"
  | WARN => bytes "WARN"
  | ERROR => bytes "ERROR"
  | FATAL => bytes "FATAL"
  | UNKNOW => bytes "UNKNOW"

def FromString (str : Bytes) : LogLevel :=
  if str = bytes "debug" then DEBUG
  else if str = bytes "info" then INFO
  else if str = bytes "warn" then WARN
  else if str = bytes "error" then ERROR
  else if str = bytes "fatal" then FATAL
  else if str = bytes "DEBUG" then DEBUG
  else if str = bytes "INFO" then INFO
  else if str = bytes "WARN" then WARN
  else if str = bytes "ERROR" then ERROR
  else if str = bytes "FATAL" then FATAL
  else UNKNOW

theorem FromString_ToString (level : LogLevel) : FromString level.ToString = level := by
  cases level <;> decide

end LogLevel

/-! ### `LexicalCast<LogDefine, std::string>` -/

/-- An entry that is left out when its value is the default one. -/
def entry (key : String) (present : Bool) (value : Bytes) : List (Bytes × Node) :=
  if present then [(bytes key,.scalar value)] else []

def LogAppenderDefine.node (a : LogAppenderDefine) : Node :=
  .ofEntries (
    (if a.type = 1 then
      [(bytes "type",.scalar (bytes "FileLogAppender")),(bytes "file",.scalar a.file)]
    else if a.type = 2 then [(bytes "type",.scalar (bytes "StdoutLogAppender"))]
    else [])++
    entry "level" (a.level ≠ .UNKNOW) a.level.ToString++
    entry "formatter" (a.formatter ≠ []) a.formatter)

def LogDefine.node (i : LogDefine) : Node :=
  .ofEntries ((bytes "name",.scalar i.name) ::
    (entry "level" (i.level ≠ .UNKNOW) i.level.ToString++
    entry "formatter" (i.formatter ≠ []) i.formatter++
    if i.appenders = [] then [] else
      [(bytes "appenders",.seq (i.appenders.map LogAppenderDefine.node))]))

/-- `emit` is the output of a node to a stream. -/
def LogDefine.toString (emit : Node → Bytes) (i : LogDefine) : Bytes := emit i.node

/-! ### `LexicalCast<std::string, LogDefine>` -/

inductive LogConfigError
  | nameIsNull
  | yaml (e : Node.Error)
deriving Repr, DecidableEq

/-- The text under a key, if there is any. -/
def textAt (n : Node) (key : String) : Except Node.Error (Option Bytes) := do
  match ← n.subscript (bytes key) with
  | none => return none
  | some value => return some (← value.asString)

/-- The body of the loop over the appenders; `none` where it goes on with the next one. -/
def appenderDefine (a : Node) : Except Node.Error (Option LogAppenderDefine) := do
  match ← textAt a "type" with
  | none => return none
  | some type =>
    if type = bytes "FileLogAppender" then
      match ← textAt a "file" with
      | none => return none
      | some file =>
        let formatter ← textAt a "formatter"
        return some ⟨1,.UNKNOW,formatter.getD [],file⟩
    else if type = bytes "StdoutLogAppender" then
      let formatter ← textAt a "formatter"
      return some ⟨2,.UNKNOW,formatter.getD [],[]⟩
    else return none

/-- A round of the loop. -/
def pushAppender (appenders : List LogAppenderDefine) (a : Node) :
    Except Node.Error (List LogAppenderDefine) := do
  match ← appenderDefine a with
  | none => return appenders
  | some lad => return appenders++[lad]

/-- What is read behind the check of the name. -/
def logDefine (n : Node) (name : Bytes) : Except Node.Error LogDefine := do
  let level ← textAt n "level"
  let formatter ← textAt n "formatter"
  let appenders ← match ← n.subscript (bytes "appenders") with
    | none => pure []
    | some nodes => nodes.items.foldlM pushAppender []
  return ⟨name,LogLevel.FromString (level.getD []),formatter.getD [],appenders⟩

/-- `Load` is `YAML::Load`. -/
def LogDefine.fromString (Load : Bytes → Except Node.Error Node) (v : Bytes) :
    Except LogConfigError LogDefine := do
  let n ← (Load v).mapError .yaml
  match ← (textAt n "name").mapError .yaml with
  | none => throw .nameIsNull
  | some name => (logDefine n name).mapError .yaml

/-! ### What comes back -/

/-- An appender that `LogDefine` is defined to describe. -/
def LogAppenderDefine.Describes (a : LogAppenderDefine) : Prop :=
  a.type = 1 ∨ a.type = 2 ∧ a.file = []

/-- The level of an appender is written, and not read. -/
def LogAppenderDefine.received (a : LogAppenderDefine) : LogAppenderDefine :=
  { a with level := .UNKNOW }

def LogDefine.received (i : LogDefine) : LogDefine :=
  { i with appenders := i.appenders.map LogAppenderDefine.received }

theorem appenderDefine_node {a : LogAppenderDefine} (h : a.Describes) :
    appenderDefine a.node = .ok (some a.received) := by
  obtain ⟨type,level,formatter,file⟩ := a
  rcases h with rfl | ⟨rfl,rfl⟩
  · cases level <;> cases formatter <;> rfl
  · cases level <;> cases formatter <;> rfl

theorem foldlM_pushAppender {l : List LogAppenderDefine} (h : ∀ a ∈ l, a.Describes)
    (appenders : List LogAppenderDefine) :
    (l.map LogAppenderDefine.node).foldlM pushAppender appenders =
      .ok (appenders++l.map LogAppenderDefine.received) := by
  induction l generalizing appenders with
  | nil => simp [pure, Except.pure]
  | cons a l ih =>
    have ha : pushAppender appenders a.node = .ok (appenders++[a.received]) := by
      rw [pushAppender, appenderDefine_node (h a List.mem_cons_self)]
      rfl
    have hl := ih (fun b hb => h b (List.mem_cons_of_mem a hb)) (appenders++[a.received])
    rw [List.map_cons, List.foldlM_cons, ha]
    exact hl.trans (congrArg _ (List.append_assoc ..))

theorem logDefine_node {i : LogDefine} (h : ∀ a ∈ i.appenders, a.Describes) :
    logDefine i.node i.name = .ok i.received := by
  have happenders := foldlM_pushAppender h []
  obtain ⟨name,level,formatter,appenders⟩ := i
  cases appenders with
  | nil => cases level <;> cases formatter <;> rfl
  | cons a l =>
    have hitems : logDefine (LogDefine.node ⟨name,level,formatter,a :: l⟩) name =
        (((a :: l).map LogAppenderDefine.node).foldlM pushAppender []).map
          fun appenders => ⟨name,level,formatter,appenders⟩ := by
      cases level <;> cases formatter <;> rfl
    rw [hitems, happenders]
    rfl

theorem fromString_toString {Load : Bytes → Except Node.Error Node} {emit : Node → Bytes}
    {i : LogDefine} (h : ∀ a ∈ i.appenders, a.Describes)
    (hLoad : Load (emit i.node) = .ok i.node) :
    LogDefine.fromString Load (i.toString emit) = .ok i.received := by
  have hname : textAt i.node "name" = .ok (some i.name) := rfl
  have hread : LogDefine.fromString Load (i.toString emit) =
      (logDefine i.node i.name).mapError .yaml := by
    rw [LogDefine.fromString, LogDefine.toString, hLoad]
    rfl
  rw [hread, logDefine_node h]
  rfl

/-- A definition comes back as it was exactly if none of its appenders has a level. -/
theorem fromString_toString_iff {Load : Bytes → Except Node.Error Node} {emit : Node → Bytes}
    {i : LogDefine} (h : ∀ a ∈ i.appenders, a.Describes)
    (hLoad : Load (emit i.node) = .ok i.node) :
    LogDefine.fromString Load (i.toString emit) = .ok i ↔
      ∀ a ∈ i.appenders, a.level = .UNKNOW := by
  rw [fromString_toString h hLoad, Except.ok.injEq]
  obtain ⟨name,level,formatter,appenders⟩ := i
  simp only [LogDefine.received, LogDefine.mk.injEq, true_and]
  have hsame := List.map_inj_left (f := LogAppenderDefine.received) (g := id) (l := appenders)
  rw [List.map_id] at hsame
  refine hsame.trans (forall₂_congr fun a _ => ?_)
  obtain ⟨type,level,formatter,file⟩ := a
  simp only [LogAppenderDefine.received, id, LogAppenderDefine.mk.injEq, and_true, true_and]
  exact eq_comm

/-- A definition with both kinds of appenders, as it is written. -/
theorem fromString_toString_two :
    let i : LogDefine := ⟨bytes "http",.INFO,[],[⟨1,.UNKNOW,bytes "%m%n",bytes "http.log"⟩,
      ⟨2,.UNKNOW,[],[]⟩]⟩
    let text := bytes "name: http
level: INFO
appenders:
  - type: FileLogAppender
    file: http.log
    formatter: \"%m%n\"
  - type: StdoutLogAppender"
    let Load := fun v => if v = text then .ok i.node else .error .badConversion
    LogDefine.fromString Load (i.toString fun _ => text) = .ok i :=
  (fromString_toString_iff (by simp [LogAppenderDefine.Describes]) (if_pos rfl)).mpr (by simp)

/-- The level of an appender does not come back. -/
theorem fromString_toString_level :
    let i : LogDefine := ⟨bytes "http",.INFO,[],[⟨2,.ERROR,[],[]⟩]⟩
    LogDefine.fromString (fun _ => .ok i.node) (i.toString fun _ => []) =
      .ok ⟨bytes "http",.INFO,[],[⟨2,.UNKNOW,[],[]⟩]⟩ ∧
    LogDefine.fromString (fun _ => .ok i.node) (i.toString fun _ => []) ≠ .ok i := by
  decide

end CoroutineWebserve.Log
