import CoroutineWebserve.Log.Definition
import Mathlib.Data.List.Chain

/-!
# Loggers and their definitions

After an assignment to the variable `logs` the loggers are as their definitions say, as long as no
definition changes its appenders alone.
-/
namespace CoroutineWebserve.Log

/-- What a definition says of an appender: its type and file, its level and its own formatter. -/
abbrev AppenderView := AppenderType × LogLevel × Option LogFormatter

def LogAppender.view (ap : LogAppender) : AppenderView := (ap.type,ap.level,ap.own)

def LogAppenderDefine.view (a : LogAppenderDefine) : AppenderView :=
  (if a.type = 1 then .file a.file else .stdout,a.level,
    if a.formatter = [] then none else some (.new a.formatter))

/-- The type is one of the two that there are, and the pattern of the formatter can be read. -/
structure LogAppenderDefine.Valid (a : LogAppenderDefine) : Prop where
  type : a.type = 1 ∨ a.type = 2
  formatter : a.formatter ≠ [] → (LogFormatter.new a.formatter).error = false

structure LogDefine.Valid (d : LogDefine) : Prop where
  formatter : d.formatter ≠ [] → (LogFormatter.new d.formatter).error = false
  appenders : ∀ a ∈ d.appenders, a.Valid

/-- What `operator==` compares. -/
def LogDefine.key (d : LogDefine) : Bytes × LogLevel × Bytes := (d.name,d.level,d.formatter)

theorem LogDefine.eq_iff {d e : LogDefine} : d.eq e ↔ d.key = e.key := by
  simp [LogDefine.eq, LogDefine.key, and_assoc]

namespace LogAppender

theorem view_inherit (val : Option LogFormatter) (ap : LogAppender) :
    (ap.inherit val).view = ap.view := by
  unfold inherit
  split_ifs with hown
  · rfl
  · simp [view, own, hown]

end LogAppender

namespace LogAppenderDefine
variable {a : LogAppenderDefine}

theorem Valid.setUp (h : a.Valid) (type : AppenderType) :
    (a.setUp (.new type)).view =
      (type,a.level,if a.formatter = [] then none else some (.new a.formatter)) ∧
    ((a.setUp (.new type)).formatter = none → (a.setUp (.new type)).hasFormatter = false) := by
  unfold LogAppenderDefine.setUp
  by_cases hempty : a.formatter = []
  · rw [if_neg (not_not_intro hempty), if_pos hempty]
    exact ⟨rfl,fun _ => rfl⟩
  · rw [if_pos hempty, if_neg hempty, if_pos (by simp [h.formatter hempty])]
    exact ⟨rfl,nofun⟩

/-- The appender that is made for a definition is as it says. -/
theorem Valid.make (h : a.Valid) :
    ∃ ap, a.make = some ap ∧ ap.view = a.view ∧ (ap.formatter = none → ap.hasFormatter = false) := by
  unfold LogAppenderDefine.make LogAppenderDefine.view
  rcases h.type with htype | htype
  · rw [if_pos htype, if_pos htype]
    exact ⟨_,rfl,h.setUp _⟩
  · have hne : a.type ≠ 1 := by omega
    rw [if_neg hne, if_pos htype, if_neg hne]
    exact ⟨_,rfl,h.setUp _⟩

end LogAppenderDefine

namespace LoggerManager
variable {m m' m'' : LoggerManager} {n name : Bytes} {logger : Logger}

def view? (m : LoggerManager) (a : ℕ) : Option AppenderView := m.appenders[a]?.map LogAppender.view

/-- The appenders that there are keep what definitions say of them. -/
def Keeps (m m' : LoggerManager) : Prop := ∀ a, ∀ v ∈ m.view? a, m'.view? a = some v

/-- Nothing happens to the logger of this name. -/
structure Away (n : Bytes) (m m' : LoggerManager) : Prop where
  logger : m'.loggers n = m.loggers n
  keeps : m.Keeps m'

theorem Keeps.refl (m : LoggerManager) : m.Keeps m := fun _ _ => id

theorem Keeps.trans (h : m.Keeps m') (h' : m'.Keeps m'') : m.Keeps m'' :=
  fun a v hv => h' a v (h a v hv)

theorem Away.refl (n : Bytes) (m : LoggerManager) : Away n m m := ⟨rfl,.refl m⟩

theorem Away.trans (h : Away n m m') (h' : Away n m' m'') : Away n m m'' :=
  ⟨h'.logger.trans h.logger,h.keeps.trans h'.keeps⟩

/-- Calls on the logger `name` have made it `logger`. -/
structure Became (name : Bytes) (logger : Logger) (m m' : LoggerManager) : Prop where
  logger : m'.loggers name = some logger
  keeps : m.Keeps m'
  other : ∀ n, n ≠ name → m'.loggers n = m.loggers n

theorem Became.trans {logger' : Logger} (h : Became name logger m m')
    (h' : Became name logger' m' m'') : Became name logger' m m'' :=
  ⟨h'.logger,h.keeps.trans h'.keeps,fun n hn => (h'.other n hn).trans (h.other n hn)⟩

theorem Became.away (h : Became name logger m m') (hn : n ≠ name) : Away n m m' :=
  ⟨h.other n hn,h.keeps⟩

theorem setLogger_became (m : LoggerManager) (name : Bytes) (logger : Logger) :
    Became name logger m (m.setLogger name logger) :=
  ⟨Function.update_self ..,.refl m,fun _ hn => Function.update_of_ne hn ..⟩

theorem getLogger_became (m : LoggerManager) (name : Bytes) :
    ∃ logger, Became name logger m (m.getLogger name) := by
  unfold getLogger
  cases h : m.loggers name with
  | some logger => exact ⟨logger,h,.refl m,fun _ _ => rfl⟩
  | none => exact ⟨_,setLogger_became ..⟩

theorem setLevel_became (h : m.loggers name = some logger) (val : LogLevel) :
    Became name { logger with level := val } m (m.setLevel name val) := by
  rw [setLevel, call_eq h]
  exact setLogger_became ..

theorem clearAppenders_became (h : m.loggers name = some logger) :
    Became name { logger with appenders := [] } m (m.clearAppenders name) := by
  rw [clearAppenders, call_eq h]
  exact setLogger_became ..

/-- The appenders of a logger inherit its new formatter. -/
theorem keeps_foldl_inherit (val : Option LogFormatter) (l : List ℕ) (m : LoggerManager) :
    m.Keeps { m with appenders := l.foldl (fun l a => l.modify a (.inherit val)) m.appenders } := by
  induction l generalizing m with
  | nil => exact .refl m
  | cons b l ih =>
    refine Keeps.trans (fun a v hv => ?_) (ih { m with appenders := m.appenders.modify b _ })
    obtain ⟨ap,hap,rfl⟩ := Option.map_eq_some_iff.mp hv
    unfold view?
    rw [List.getElem?_modify, hap, Option.map_eq_map, Option.map_some, Option.map_some]
    split_ifs
    · rw [LogAppender.view_inherit]
    · rfl

theorem setFormatter_became (h : m.loggers name = some logger) (val : Option LogFormatter) :
    Became name { logger with formatter := val } m (m.setFormatter name val) := by
  rw [setFormatter, call_eq h]
  have hset := setLogger_became m name { logger with formatter := val }
  exact ⟨hset.logger,keeps_foldl_inherit val logger.appenders m,hset.other⟩

/-- One appender of a definition. -/
theorem addDefine_became {a : LogAppenderDefine} (ha : a.Valid)
    (h : m.loggers name = some logger) : ∃ m', addDefine name m a = some m' ∧
      Became name { logger with appenders := logger.appenders++[m.appenders.length] } m m' ∧
      m'.view? m.appenders.length = some a.view := by
  obtain ⟨ap,hmake,hview,hown⟩ := ha.make
  let inherits (ap : LogAppender) : LogAppender :=
    if ap.formatter.isNone then { ap with formatter := logger.formatter } else ap
  have hinherits : (inherits ap).view = a.view := by
    rw [← hview]
    unfold inherits
    split_ifs with hnone
    · have hno := hown (Option.isNone_iff_eq_none.mp hnone)
      simp [LogAppender.view, LogAppender.own, hno]
    · rfl
  have hset := setLogger_became m name
    { logger with appenders := logger.appenders++[m.appenders.length] }
  have hadd : addDefine name m a = some { m.setLogger name
      { logger with appenders := logger.appenders++[m.appenders.length] } with
        appenders := (m.appenders++[ap]).modify m.appenders.length inherits } := by
    rw [addDefine, hmake, Option.map_some, addAppender,
      call_eq (m := { m with appenders := m.appenders++[ap] }) h]
    rfl
  refine ⟨_,hadd,⟨hset.logger,?_,hset.other⟩,?_⟩
  · intro b v hv
    obtain ⟨bp,hbp,rfl⟩ := Option.map_eq_some_iff.mp hv
    have hlt := (List.getElem?_eq_some_iff.mp hbp).1
    change ((m.appenders++[ap]).modify m.appenders.length inherits)[b]?.map _ = _
    rw [List.getElem?_modify_ne _ _ hlt.ne', List.getElem?_append_left hlt, hbp, Option.map_some]
  · change ((m.appenders++[ap]).modify m.appenders.length inherits)[m.appenders.length]?.map _ = _
    rw [List.getElem?_modify_eq, List.getElem?_concat_length, Option.map_eq_map, Option.map_some,
      Option.map_some, hinherits]

/-- The appenders of a definition. -/
theorem foldlM_addDefine {l : List LogAppenderDefine} (hl : ∀ a ∈ l, a.Valid)
    (h : m.loggers name = some logger) : ∃ m', l.foldlM (addDefine name) m = some m' ∧
      ∃ ids, Became name { logger with appenders := logger.appenders++ids } m m' ∧
        ids.map m'.view? = (l.map LogAppenderDefine.view).map some := by
  induction l generalizing m logger with
  | nil => exact ⟨m,rfl,[],⟨by rw [h, List.append_nil],.refl m,fun _ _ => rfl⟩,rfl⟩
  | cons a l ih =>
    obtain ⟨m₁,hadd,hbecame,hview⟩ := addDefine_became (hl a List.mem_cons_self) h
    obtain ⟨m',hfold,ids,hbecame',hids⟩ :=
      ih (fun b hb => hl b (List.mem_cons_of_mem a hb)) hbecame.logger
    refine ⟨m',?_,m.appenders.length :: ids,?_,?_⟩
    · rw [List.foldlM_cons, hadd]
      exact hfold
    · rw [List.append_cons]
      exact hbecame.trans hbecame'
    · rw [List.map_cons, List.map_cons, List.map_cons, hids, hbecame'.keeps _ _ hview]

/-- The logger is as its definition says. -/
structure Has (m : LoggerManager) (d : LogDefine) (logger : Logger) : Prop where
  found : m.loggers d.name = some logger
  level : logger.level = d.level
  appenders : logger.appenders.map m.view? = (d.appenders.map LogAppenderDefine.view).map some
  formatter : d.formatter ≠ [] → logger.formatter = some (.new d.formatter)

theorem configure_spec {d : LogDefine} (hd : d.Valid) (m : LoggerManager) :
    ∃ m', m.configure d = some m' ∧ (∃ logger, m'.Has d logger) ∧
      ∀ n, n ≠ d.name → Away n m m' := by
  obtain ⟨logger₀,h₀⟩ := getLogger_became m d.name
  have h₁ := h₀.trans (setLevel_became h₀.logger d.level)
  obtain ⟨logger₂,h₂,hlevel,hformatter⟩ : ∃ logger, Became d.name logger m
      (if d.formatter ≠ [] then
        ((m.getLogger d.name).setLevel d.name d.level).setFormatterPattern d.name d.formatter
      else (m.getLogger d.name).setLevel d.name d.level) ∧ logger.level = d.level ∧
      (d.formatter ≠ [] → logger.formatter = some (.new d.formatter)) := by
    split_ifs with hempty
    · have h₂ := h₁.trans (setFormatter_became h₁.logger (some (.new d.formatter)))
      rw [setFormatterPattern, if_neg (by simp [hd.formatter hempty])]
      exact ⟨_,h₂,rfl,fun _ => rfl⟩
    · exact ⟨_,h₁,rfl,fun h => absurd h hempty⟩
  have h₃ := h₂.trans (clearAppenders_became h₂.logger)
  obtain ⟨m',hfold,ids,h₄,hids⟩ := foldlM_addDefine hd.appenders h₃.logger
  exact ⟨m',hfold,⟨_,h₄.logger,hlevel,hids,hformatter⟩,fun n hn => (h₃.trans h₄).away hn⟩

theorem delete_spec (d : LogDefine) (m : LoggerManager) :
    (∃ logger, (m.delete d).loggers d.name = some logger ∧ logger.appenders = []) ∧
      ∀ n, n ≠ d.name → Away n m (m.delete d) := by
  obtain ⟨logger₀,h₀⟩ := getLogger_became m d.name
  have h₁ := h₀.trans (setLevel_became h₀.logger .UNKNOW)
  have h₂ := h₁.trans (clearAppenders_became h₁.logger)
  exact ⟨⟨_,h₂.logger,rfl⟩,fun n hn => h₂.away hn⟩

/-- A logger to which nothing happens stays as its definition says. -/
theorem Has.away {d : LogDefine} (h : m.Has d logger) (haway : Away d.name m m') :
    m'.Has d logger := by
  refine ⟨haway.logger.trans h.found,h.level,?_,h.formatter⟩
  rw [← h.appenders]
  refine List.map_congr_left fun a ha => ?_
  obtain ⟨v,hv⟩ : ∃ v, m.view? a = some v := by
    have hmem := List.mem_map_of_mem (f := m.view?) ha
    rw [h.appenders] at hmem
    obtain ⟨b,-,hb⟩ := List.mem_map.mp hmem
    exact ⟨_,hb.symm⟩
  rw [hv]
  exact haway.keeps a v hv

end LoggerManager

/-! ### Sets of definitions -/

instance : IsStrictOrder LogDefine LogDefine.Before where
  irrefl d := List.lt_irrefl d.name
  trans _ _ _ := List.lt_trans

namespace LogDefines
variable {v w : LogDefines} {d e : LogDefine}

/-- Definitions are looked up by their names. -/
theorem find_eq_some_iff : v.find d = some e ↔ e ∈ v.defines ∧ e.name = d.name := by
  constructor
  · intro h
    obtain ⟨hmem,hed,hde⟩ := OrderedSet.mem_of_find h
    exact ⟨hmem,List.le_antisymm (List.not_lt.mp hde) (List.not_lt.mp hed)⟩
  · rintro ⟨hmem,hname⟩
    rw [find, OrderedSet.find_congr e, OrderedSet.find_of_mem v.sorted hmem]
    intro x
    simp only [LogDefine.Before, hname, iff_self, and_self]

theorem eq_of_name (hd : d ∈ v.defines) (he : e ∈ v.defines) (hname : d.name = e.name) :
    d = e :=
  Option.some.inj
    ((find_eq_some_iff.mpr ⟨hd,rfl⟩).symm.trans (find_eq_some_iff.mpr ⟨he,hname.symm⟩))

theorem eq_iff : v.eq w ↔ v.defines.map LogDefine.key = w.defines.map LogDefine.key := by
  obtain ⟨v,hv⟩ := v
  obtain ⟨w,hw⟩ := w
  unfold LogDefines.eq
  dsimp only
  clear hv hw
  induction v generalizing w with
  | nil => cases w <;> simp
  | cons d v ih =>
    cases w with
    | nil => simp
    | cons e w =>
      simp only [List.map_cons, List.cons.injEq, ← ih, ← LogDefine.eq_iff]
      simp
      tauto

/-- The definition compares equal to one of the set. -/
def Skips (v : LogDefines) (d : LogDefine) : Prop := ∃ e ∈ v.defines, d.eq e

theorem skips_iff : v.Skips d ↔ d.key ∈ v.defines.map LogDefine.key := by
  simp only [Skips, LogDefine.eq_iff, List.mem_map]
  exact exists_congr fun e => and_congr_right fun _ => eq_comm

/-- The set has a definition of this name. -/
def Names (v : LogDefines) (n : Bytes) : Prop := ∃ e ∈ v.defines, e.name = n

theorem names_iff {n : Bytes} :
    v.Names n ↔ n ∈ (v.defines.map LogDefine.key).map Prod.fst := by
  rw [List.map_map, List.mem_map]
  rfl

theorem Skips.names (h : v.Skips d) : v.Names d.name := by
  obtain ⟨e,he,heq⟩ := h
  exact ⟨e,he,(congrArg Prod.fst (LogDefine.eq_iff.mp heq)).symm⟩

end LogDefines

namespace LoggerManager
variable {m m' : LoggerManager} {old new : LogDefines} {d : LogDefine}

/-! ### The listener -/

theorem define_spec (old : LogDefines) (hd : d.Valid) (m : LoggerManager) :
    ∃ m', define old m d = some m' ∧ (old.Skips d → m' = m) ∧
      (¬old.Skips d → ∃ logger, m'.Has d logger) ∧ ∀ n, n ≠ d.name → Away n m m' := by
  obtain ⟨m₁,hconfigure,hhas,haway⟩ := configure_spec hd m
  have hskips : ∀ it, old.find d = some it → (old.Skips d ↔ d.eq it) := by
    intro it hfind
    obtain ⟨hmem,hname⟩ := LogDefines.find_eq_some_iff.mp hfind
    refine ⟨fun ⟨e,he,heq⟩ => ?_,fun heq => ⟨it,hmem,heq⟩⟩
    have hename : d.name = e.name := congrArg Prod.fst (LogDefine.eq_iff.mp heq)
    rwa [LogDefines.eq_of_name hmem he (hname.trans hename)]
  unfold define
  cases hfind : old.find d with
  | none =>
    refine ⟨m₁,hconfigure,fun ⟨e,he,heq⟩ => ?_,fun _ => hhas,haway⟩
    have hename : d.name = e.name := congrArg Prod.fst (LogDefine.eq_iff.mp heq)
    rw [LogDefines.find_eq_some_iff.mpr ⟨he,hename.symm⟩] at hfind
    cases hfind
  | some it =>
    have hiff := hskips it hfind
    dsimp only
    split_ifs with heq
    · exact ⟨m,rfl,fun _ => rfl,fun h => absurd (hiff.mpr heq) h,fun _ _ => .refl ..⟩
    · exact ⟨m₁,hconfigure,fun h => absurd (hiff.mp h) heq,fun _ => hhas,haway⟩

/-- The first loop. -/
theorem foldlM_define (old : LogDefines) {l : List LogDefine} (hvalid : ∀ d ∈ l, d.Valid)
    (hl : l.Pairwise LogDefine.Before) (m : LoggerManager) :
    ∃ m', l.foldlM (define old) m = some m' ∧
      (∀ n, (∀ d ∈ l, d.name = n → old.Skips d) → Away n m m') ∧
      ∀ d ∈ l, ¬old.Skips d → ∃ logger, m'.Has d logger := by
  induction l generalizing m with
  | nil => exact ⟨m,rfl,fun n _ => .refl n m,nofun⟩
  | cons d l ih =>
    obtain ⟨hbefore,hl⟩ := List.pairwise_cons.mp hl
    obtain ⟨m₁,hdefine,hskip,hhas,hother⟩ := define_spec old (hvalid d List.mem_cons_self) m
    obtain ⟨m',hfold,haway,hhas'⟩ := ih (fun e he => hvalid e (List.mem_cons_of_mem d he)) hl m₁
    refine ⟨m',by rw [List.foldlM_cons, hdefine]; exact hfold,fun n hn => ?_,fun e he hno => ?_⟩
    · refine Away.trans ?_ (haway n fun e he => hn e (List.mem_cons_of_mem d he))
      by_cases hname : n = d.name
      · rw [hskip (hn d List.mem_cons_self hname.symm)]
        exact .refl n m
      · exact hother n hname
    · rcases List.mem_cons.mp he with rfl | he
      · obtain ⟨logger,hlogger⟩ := hhas hno
        refine ⟨logger,hlogger.away (haway e.name fun e' he' hname => ?_)⟩
        have hlt : e.name < e'.name := hbefore e' he'
        rw [hname] at hlt
        exact absurd hlt (List.lt_irrefl _)
      · exact hhas' e he hno

theorem retire_spec (new : LogDefines) (d : LogDefine) (m : LoggerManager) :
    (new.Names d.name → retire new m d = m) ∧ (¬new.Names d.name →
      ∃ logger, (retire new m d).loggers d.name = some logger ∧ logger.appenders = []) ∧
      ∀ n, n ≠ d.name → Away n m (retire new m d) := by
  unfold retire
  cases hfind : new.find d with
  | none =>
    refine ⟨fun ⟨e,he,hname⟩ => ?_,fun _ => (delete_spec d m).1,(delete_spec d m).2⟩
    rw [LogDefines.find_eq_some_iff.mpr ⟨he,hname⟩] at hfind
    cases hfind
  | some e =>
    obtain ⟨he,hname⟩ := LogDefines.find_eq_some_iff.mp hfind
    exact ⟨fun _ => rfl,fun h => absurd ⟨e,he,hname⟩ h,fun _ _ => .refl ..⟩

/-- The second loop. -/
theorem foldl_retire (new : LogDefines) {l : List LogDefine} (hl : l.Pairwise LogDefine.Before)
    (m : LoggerManager) :
    (∀ n, (∀ d ∈ l, d.name = n → new.Names n) → Away n m (l.foldl (retire new) m)) ∧
    ∀ d ∈ l, ¬new.Names d.name → ∃ logger,
      (l.foldl (retire new) m).loggers d.name = some logger ∧ logger.appenders = [] := by
  induction l generalizing m with
  | nil => exact ⟨fun n _ => .refl n m,nofun⟩
  | cons d l ih =>
    obtain ⟨hbefore,hl⟩ := List.pairwise_cons.mp hl
    obtain ⟨haway,hcleared⟩ := ih hl (retire new m d)
    obtain ⟨hkeep,hclear,hother⟩ := retire_spec new d m
    constructor
    · intro n hn
      refine Away.trans ?_ (haway n fun e he => hn e (List.mem_cons_of_mem d he))
      by_cases hname : n = d.name
      · rw [hkeep (hname ▸ hn d List.mem_cons_self hname.symm)]
        exact .refl n m
      · exact hother n hname
    · intro e he hno
      rcases List.mem_cons.mp he with rfl | he
      · obtain ⟨logger,hlogger,happenders⟩ := hclear hno
        refine ⟨logger,(haway e.name fun e' he' hname => ?_).logger.trans hlogger,happenders⟩
        have hlt : e.name < e'.name := hbefore e' he'
        rw [hname] at hlt
        exact absurd hlt (List.lt_irrefl _)
      · exact hcleared e he hno

end LoggerManager

/-! ### Assignments -/

namespace LogConfig

/-- Definitions that compare equal to one of the old value are not looked at any further, the
others are put into force, and the loggers that are not named any more lose their appenders. -/
theorem setValue_spec (s : LogConfig) {v : LogDefines} (hv : ∀ d ∈ v.defines, d.Valid) :
    ∃ t, s.setValue v = some t ∧
      t.val.defines.map LogDefine.key = v.defines.map LogDefine.key ∧
      (∀ d ∈ v.defines, s.val.Skips d → LoggerManager.Away d.name s.manager t.manager) ∧
      (∀ d ∈ v.defines, ¬s.val.Skips d → ∃ logger, t.manager.Has d logger) ∧
      (∀ n, ¬s.val.Names n → ¬v.Names n → LoggerManager.Away n s.manager t.manager) ∧
      ∀ n, s.val.Names n → ¬v.Names n →
        ∃ logger, t.manager.loggers n = some logger ∧ logger.appenders = [] := by
  unfold setValue
  split_ifs with heq
  · have hkeys := LogDefines.eq_iff.mp heq
    refine ⟨s,rfl,hkeys.symm,fun _ _ _ => .refl ..,fun d hd hno => ?_,fun _ _ _ => .refl ..,
      fun n hn hno => ?_⟩
    · rw [LogDefines.skips_iff, ← hkeys] at hno
      exact absurd (List.mem_map_of_mem hd) hno
    · rw [LogDefines.names_iff, ← hkeys, ← LogDefines.names_iff] at hn
      exact absurd hn hno
  · obtain ⟨m,hfold,haway,hhas⟩ :=
      LoggerManager.foldlM_define s.val hv v.sorted s.manager
    obtain ⟨haway',hcleared⟩ := LoggerManager.foldl_retire v s.val.sorted m
    have hstay : ∀ d ∈ v.defines, LoggerManager.Away d.name m
        (s.val.defines.foldl (LoggerManager.retire v) m) := fun d hd =>
      haway' d.name fun _ _ _ => ⟨d,hd,rfl⟩
    refine ⟨⟨v,s.val.defines.foldl (LoggerManager.retire v) m⟩,?_,rfl,fun d hd hskips => ?_,
      fun d hd hno => ?_,fun n hold hnew => ?_,fun n hold hnew => ?_⟩
    · rw [LoggerManager.listener, hfold]
      rfl
    · refine (haway d.name fun e he hname => ?_).trans (hstay d hd)
      rwa [LogDefines.eq_of_name he hd hname]
    · obtain ⟨logger,hlogger⟩ := hhas d hd hno
      exact ⟨logger,hlogger.away (hstay d hd)⟩
    · refine (haway n fun d hd hname => absurd ⟨d,hd,hname⟩ hnew).trans (haway' n fun d hd hname => ?_)
      exact absurd ⟨d,hd,hname⟩ hold
    · obtain ⟨d,hd,rfl⟩ := hold
      exact hcleared d hd hnew

/-- The loggers are as the last value says, and those of earlier values that it does not name have
no appenders. -/
structure Converged (s : LogConfig) (earlier : List LogDefines) (v : LogDefines) : Prop where
  configured : ∀ d ∈ v.defines, ∃ logger, s.manager.Has d logger
  cleared : ∀ w ∈ earlier, ∀ n, w.Names n → ¬v.Names n →
    ∃ logger, s.manager.loggers n = some logger ∧ logger.appenders = []

/-- A definition that keeps its name, its level and its formatter keeps its appenders. -/
def Steady (v w : LogDefines) : Prop :=
  ∀ d ∈ w.defines, ∀ e ∈ v.defines, d.eq e →
    d.appenders.map LogAppenderDefine.view = e.appenders.map LogAppenderDefine.view

/-- The value compares equal to `v`, and the loggers are as `v` says. -/
structure Holds (s : LogConfig) (earlier : List LogDefines) (v : LogDefines) : Prop where
  keys : s.val.defines.map LogDefine.key = v.defines.map LogDefine.key
  converged : s.Converged earlier v

variable {s t : LogConfig} {earlier : List LogDefines} {v w : LogDefines}

theorem Holds.skips_iff (h : s.Holds earlier v) {d : LogDefine} : s.val.Skips d ↔ v.Skips d := by
  rw [LogDefines.skips_iff, LogDefines.skips_iff, h.keys]

theorem Holds.names_iff (h : s.Holds earlier v) {n : Bytes} : s.val.Names n ↔ v.Names n := by
  rw [LogDefines.names_iff, LogDefines.names_iff, h.keys]

theorem Holds.setValue (h : s.Holds earlier v) (hw : ∀ d ∈ w.defines, d.Valid)
    (hsteady : Steady v w) : ∃ t, s.setValue w = some t ∧ t.Holds (earlier++[v]) w := by
  obtain ⟨t,hset,hkeys,haway,hhas,hother,hcleared⟩ := s.setValue_spec hw
  refine ⟨t,hset,hkeys,⟨fun d hd => ?_,fun u hu n hn hno => ?_⟩⟩
  · by_cases hskips : s.val.Skips d
    · obtain ⟨e,he,heq⟩ := h.skips_iff.mp hskips
      obtain ⟨logger,hlogger⟩ := h.converged.configured e he
      have hkey := LogDefine.eq_iff.mp heq
      have hname : d.name = e.name := congrArg Prod.fst hkey
      have hlevel : d.level = e.level := congrArg (·.2.1) hkey
      have hformatter : d.formatter = e.formatter := congrArg (·.2.2) hkey
      have hsame : s.manager.Has d logger := by
        refine ⟨hname ▸ hlogger.found,hlogger.level.trans hlevel.symm,?_,?_⟩
        · rw [hlogger.appenders, hsteady d hd e he heq]
        · rw [hformatter]
          exact hlogger.formatter
      exact ⟨logger,hsame.away (haway d hd hskips)⟩
    · exact hhas d hd hskips
  · by_cases hold : s.val.Names n
    · exact hcleared n hold hno
    · have haway := hother n hold hno
      rcases List.mem_append.mp hu with hu | hu
      · obtain ⟨logger,hlogger,hnil⟩ := h.converged.cleared u hu n hn (mt h.names_iff.mpr hold)
        exact ⟨logger,haway.logger.trans hlogger,hnil⟩
      · rw [List.mem_singleton] at hu
        exact absurd (h.names_iff.mpr (hu ▸ hn)) hold

/-- When the loggers are as the next value says, no definition has changed its appenders alone. -/
theorem Holds.steady (h : s.Holds earlier v) (hw : ∀ d ∈ w.defines, d.Valid)
    (hset : s.setValue w = some t) (ht : ∀ d ∈ w.defines, ∃ logger, t.manager.Has d logger) :
    Steady v w := by
  intro d hd e he heq
  obtain ⟨t',hset',-,haway,-⟩ := s.setValue_spec hw
  cases hset.symm.trans hset'
  have hname : d.name = e.name := congrArg Prod.fst (LogDefine.eq_iff.mp heq)
  obtain ⟨logger,hlogger⟩ := h.converged.configured e he
  obtain ⟨logger',hlogger'⟩ := ht d hd
  have hlogger := hlogger.away (hname ▸ haway d hd (h.skips_iff.mpr ⟨e,he,heq⟩))
  have hfound := hlogger'.found
  rw [hname, hlogger.found] at hfound
  cases hfound
  exact List.map_injective_iff.mpr (Option.some_injective _)
    (hlogger'.appenders.symm.trans hlogger.appenders)

/-- The value at the start, and the loggers that there are then. -/
def initial (manager : LoggerManager) : LogConfig := ⟨⟨[],.nil⟩,manager⟩

def run (s : LogConfig) (vs : List LogDefines) : Option LogConfig := vs.foldlM setValue s

/-- From the start on, no value changes the appenders of a definition alone. -/
def AllSteady (vs : List LogDefines) : Prop := (⟨[],.nil⟩ :: vs).IsChain Steady

theorem run_append (s : LogConfig) (vs : List LogDefines) (v : LogDefines) :
    s.run (vs++[v]) = (s.run vs).bind fun t => t.setValue v := by
  rw [run, List.foldlM_append]
  refine congrArg (Option.bind (s.run vs)) (funext fun t => ?_)
  rw [List.foldlM_cons]
  exact bind_pure (t.setValue v)

theorem allSteady_append {vs : List LogDefines} : AllSteady (vs++[v]) ↔
    AllSteady vs ∧ Steady (vs.getLastD ⟨[],.nil⟩) v := by
  rw [AllSteady, ← List.cons_append, List.isChain_append, List.getLast?_cons]
  simp [AllSteady]

theorem Holds.append {u : LogDefines} (h : s.Holds (earlier++[u]) v) :
    s.Holds (earlier++[v]) v := by
  refine ⟨h.keys,h.converged.configured,fun w hw n hn hno => ?_⟩
  rcases List.mem_append.mp hw with hw | hw
  · exact h.converged.cleared w (List.mem_append_left _ hw) n hn hno
  · rw [List.mem_singleton.mp hw] at hn
    exact absurd hn hno

theorem run_holds (manager : LoggerManager) {vs : List LogDefines}
    (hvalid : ∀ v ∈ vs, ∀ d ∈ v.defines, d.Valid) (h : AllSteady vs) :
    ∃ t, (initial manager).run vs = some t ∧ t.Holds vs (vs.getLastD ⟨[],.nil⟩) := by
  induction vs using List.reverseRecOn with
  | nil => exact ⟨initial manager,rfl,rfl,⟨nofun,nofun⟩⟩
  | append_singleton vs v ih =>
    obtain ⟨hsteady,hlast⟩ := allSteady_append.mp h
    obtain ⟨s,hrun,hs⟩ := ih (fun w hw => hvalid w (List.mem_append_left _ hw)) hsteady
    obtain ⟨t,hset,ht⟩ := hs.setValue (hvalid v (List.mem_append_right _ List.mem_cons_self)) hlast
    refine ⟨t,?_,?_⟩
    · rw [run_append, hrun]
      exact hset
    · rw [List.getLastD_concat]
      exact ht.append

/-- After each of the assignments the loggers are as the value says, if and only if none of them
changes the appenders of a definition alone. -/
theorem converged_iff (manager : LoggerManager) {vs : List LogDefines}
    (hvalid : ∀ v ∈ vs, ∀ d ∈ v.defines, d.Valid) :
    (∀ earlier v, earlier++[v] <+: vs →
      ∃ t, (initial manager).run (earlier++[v]) = some t ∧ t.Converged earlier v) ↔
      AllSteady vs := by
  induction vs using List.reverseRecOn with
  | nil =>
    refine iff_of_true (fun earlier v h => ?_) (.singleton _)
    exact absurd (List.prefix_nil.mp h) (List.append_ne_nil_of_right_ne_nil _ (List.cons_ne_nil v []))
  | append_singleton vs v ih =>
    have hvs : ∀ w ∈ vs, ∀ d ∈ w.defines, d.Valid := fun w hw =>
      hvalid w (List.mem_append_left _ hw)
    have hv := hvalid v (List.mem_append_right _ List.mem_cons_self)
    constructor
    · intro h
      have hsteady := (ih hvs).mp fun earlier w hw => h earlier w (hw.trans (List.prefix_append ..))
      refine allSteady_append.mpr ⟨hsteady,?_⟩
      obtain ⟨s,hrun,hs⟩ := run_holds manager hvs hsteady
      obtain ⟨t,hrun',ht⟩ := h vs v List.prefix_rfl
      rw [run_append, hrun] at hrun'
      exact hs.steady hv hrun' ht.configured
    · intro h earlier w hw
      rcases List.prefix_concat_iff.mp hw with heq | hw
      · obtain ⟨rfl,hsingle⟩ := List.append_inj' heq rfl
        cases hsingle
        obtain ⟨t,hrun,ht⟩ := run_holds manager hvalid h
        rw [List.getLastD_concat] at ht
        exact ⟨t,hrun,ht.converged.configured,fun u hu => ht.converged.cleared u
          (List.mem_append_left _ hu)⟩
      · exact (ih hvs).mpr (allSteady_append.mp h).1 earlier w hw

/-- One definition of a logger that writes to the console, or to a file. -/
def one (type : ℤ) (file : String) : LogDefines :=
  ⟨[⟨bytes "system",.INFO,[],[⟨type,.UNKNOW,[],bytes file⟩]⟩],List.pairwise_singleton ..⟩

theorem one_valid {type : ℤ} (htype : type = 1 ∨ type = 2) (file : String) :
    ∀ d ∈ (one type file).defines, d.Valid := by
  intro d hd
  cases List.mem_singleton.mp hd
  refine ⟨absurd rfl,fun a ha => ?_⟩
  cases List.mem_singleton.mp ha
  exact ⟨htype,absurd rfl⟩

/-- The logger is removed from the value before it comes back with another appender. -/
theorem converged_three : AllSteady [one 2 "",⟨[],.nil⟩,one 1 "system.txt"] ∧
    ∀ earlier v, earlier++[v] <+: [one 2 "",⟨[],.nil⟩,one 1 "system.txt"] →
      ∃ t, (initial ⟨fun _ => none,[]⟩).run (earlier++[v]) = some t ∧ t.Converged earlier v := by
  have hsteady : AllSteady [one 2 "",⟨[],.nil⟩,one 1 "system.txt"] := by
    simp [AllSteady, Steady, List.isChain_cons]
  refine ⟨hsteady,(converged_iff _ fun v hv => ?_).mpr hsteady⟩
  rcases List.mem_cons.mp hv with rfl | hv
  · exact one_valid (.inr rfl) _
  · rcases List.mem_cons.mp hv with rfl | hv
    · exact nofun
    · cases List.mem_singleton.mp hv
      exact one_valid (.inl rfl) _

/-- Only the appender changes: the listener is not even called. -/
theorem not_converged : ¬∀ (manager : LoggerManager) (earlier : List LogDefines) (v : LogDefines),
    (∀ w ∈ earlier++[v], ∀ d ∈ w.defines, d.Valid) →
      ∃ t, (initial manager).run (earlier++[v]) = some t ∧ t.Converged earlier v := by
  intro h
  have hvalid : ∀ v ∈ [one 2 ""], ∀ d ∈ v.defines, d.Valid := by
    intro v hv
    cases List.mem_singleton.mp hv
    exact one_valid (.inr rfl) _
  have hvalid' := one_valid (.inl rfl) "system.txt"
  obtain ⟨s,hrun,hs⟩ := run_holds ⟨fun _ => none,[]⟩ hvalid
    (List.isChain_pair.mpr fun _ _ _ he => nomatch he)
  obtain ⟨t,hrun',ht⟩ := h ⟨fun _ => none,[]⟩ [one 2 ""] (one 1 "system.txt") fun w hw => by
    rcases List.mem_append.mp hw with hw | hw
    · exact hvalid w hw
    · cases List.mem_singleton.mp hw
      exact hvalid'
  rw [run_append, hrun] at hrun'
  have hsame := hs.steady hvalid' hrun' ht.configured _ List.mem_cons_self _ List.mem_cons_self
    (by decide)
  exact absurd hsame (by decide)

end LogConfig

end CoroutineWebserve.Log
