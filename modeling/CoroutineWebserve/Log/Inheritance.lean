import CoroutineWebserve.Log.Definition
import CoroutineWebserve.Transition.Machine

/-!
# Appenders inherit the formatter of their logger

An appender without a formatter of its own has a copy of its logger's. The copy is made when the
appender is attached and when the logger gets another formatter.
-/
namespace CoroutineWebserve.Log

namespace LoggerManager

def delAppender (m : LoggerManager) (name : Bytes) (appender : ℕ) : LoggerManager :=
  m.call name fun logger m =>
    m.setLogger name { logger with appenders := logger.appenders.erase appender }

/-- `LogAppender::setFormatter`. -/
def setAppenderFormatter (m : LoggerManager) (appender : ℕ) (val : Option LogFormatter) :
    LoggerManager :=
  { m with appenders := m.appenders.modify appender (·.setFormatter val) }

end LoggerManager

/-- Beside the loggers and the appenders stand the logger that each appender is attached to and the
formatter that it was given last. -/
structure Inheritance where
  manager : LoggerManager
  attached : ℕ → Option Bytes
  given : ℕ → Option LogFormatter

namespace Inheritance

def initial : Inheritance := ⟨⟨fun _ => none,[]⟩,fun _ => none,fun _ => none⟩

inductive Step
  | getLogger (name : Bytes)
  | newAppender (type : AppenderType)
  | addAppender (name : Bytes) (a : ℕ)
  | delAppender (name : Bytes) (a : ℕ)
  | clearAppenders (name : Bytes)
  | setFormatter (name : Bytes) (val : LogFormatter)
  | setAppenderFormatter (a : ℕ) (val : Option LogFormatter)

/-- The appender is attached to this logger. -/
def IsAttached (m : LoggerManager) (name : Bytes) (a : ℕ) : Prop :=
  ∃ logger ∈ m.loggers name, a ∈ logger.appenders

instance (m : LoggerManager) (name : Bytes) (a : ℕ) : Decidable (IsAttached m name a) :=
  inferInstanceAs (Decidable (∃ _ ∈ _, _))

/-- An appender is attached to one logger at a time. -/
def step (s : Inheritance) : Step → Option Inheritance
  | .getLogger name => some { s with manager := s.manager.getLogger name }
  | .newAppender type =>
    some { s with manager := { s.manager with
      appenders := s.manager.appenders++[.new type] } }
  | .addAppender name a =>
    if (s.manager.loggers name).isSome ∧ a < s.manager.appenders.length ∧
        (s.attached a = none ∨ s.attached a = some name) then
      some { s with
        manager := s.manager.addAppender name a
        attached := Function.update s.attached a (some name) }
    else none
  | .delAppender name a =>
    let manager := s.manager.delAppender name a
    some { s with
      manager
      attached := if s.attached a = some name ∧ ¬IsAttached manager name a then
        Function.update s.attached a none else s.attached }
  | .clearAppenders name =>
    some { s with
      manager := s.manager.clearAppenders name
      attached := fun a => if s.attached a = some name then none else s.attached a }
  | .setFormatter name val => some { s with manager := s.manager.setFormatter name (some val) }
  | .setAppenderFormatter a val =>
    if a < s.manager.appenders.length then
      some { s with
        manager := s.manager.setAppenderFormatter a val
        given := Function.update s.given a val }
    else none

def machine : Transition.Machine Inheritance Step where
  init s := s = initial
  step := step

/-- An attached appender has a formatter, its own one or that of its logger. -/
def Inherits (s : Inheritance) : Prop :=
  ∀ name, ∀ logger ∈ s.manager.loggers name, ∀ a ∈ logger.appenders,
    ∃ ap ∈ s.manager.appenders[a]?, ap.formatter ≠ none ∧
      ap.formatter = (s.given a).or logger.formatter

/-- An appender that is attached has no copy of another logger's formatter, and one that loses its
formatter is not attached. -/
def Guard (s : Inheritance) : Step → Prop
  | .addAppender name a => ∀ ap ∈ s.manager.appenders[a]?, ap.hasFormatter = true ∨
      ap.formatter = none ∨ ∃ logger ∈ s.manager.loggers name, ap.formatter = logger.formatter
  | .setAppenderFormatter a none => s.attached a = none
  | _ => True

instance (s : Inheritance) : DecidablePred s.Guard
  | .addAppender .. => inferInstanceAs (Decidable (∀ _ ∈ _, _))
  | .setAppenderFormatter _ none => inferInstanceAs (Decidable (_ = _))
  | .setAppenderFormatter _ (some _) => isTrue trivial
  | .getLogger _ | .newAppender _ | .delAppender .. | .clearAppenders _ | .setFormatter .. =>
    isTrue trivial

/-! ### The operations -/

section Operations
variable {m : LoggerManager} {name : Bytes} {logger : Logger}

theorem inherit_inherit (val : Option LogFormatter) (ap : LogAppender) :
    (ap.inherit val).inherit val = ap.inherit val := by
  unfold LogAppender.inherit
  split_ifs <;> rfl

/-- Every appender of the logger inherits its formatter. -/
theorem getElem?_foldl_inherit (val : Option LogFormatter) (l : List ℕ)
    (appenders : List LogAppender) (a : ℕ) :
    (l.foldl (fun aps a => aps.modify a (.inherit val)) appenders)[a]? =
      if a ∈ l then appenders[a]?.map (.inherit val) else appenders[a]? := by
  induction l generalizing appenders with
  | nil => simp
  | cons b l ih =>
    rw [List.foldl_cons, ih, List.getElem?_modify]
    cases appenders[a]? with
    | none => simp
    | some ap =>
      by_cases hab : b = a
      · subst hab
        by_cases hl : b ∈ l <;> simp [hl, inherit_inherit]
      · simp [hab, Ne.symm hab]

theorem length_foldl_inherit (val : Option LogFormatter) (l : List ℕ)
    (appenders : List LogAppender) :
    (l.foldl (fun aps a => aps.modify a (.inherit val)) appenders).length = appenders.length := by
  induction l generalizing appenders with
  | nil => rfl
  | cons b l ih => rw [List.foldl_cons, ih, List.length_modify]

theorem isAttached_of_update {m' : LoggerManager}
    (h : m'.loggers = Function.update m.loggers name (some logger)) (n : Bytes) (a : ℕ) :
    IsAttached m' n a ↔ if n = name then a ∈ logger.appenders else IsAttached m n a := by
  unfold IsAttached
  rw [h]
  split_ifs with hn
  · rw [hn, Function.update_self]
    simp
  · rw [Function.update_of_ne hn]

theorem forall_loggers_of_update {m' : LoggerManager} {P : Bytes → Logger → Prop}
    (h : m'.loggers = Function.update m.loggers name (some logger)) (hnew : P name logger)
    (hold : ∀ n, n ≠ name → ∀ l ∈ m.loggers n, P n l) : ∀ n, ∀ l ∈ m'.loggers n, P n l := by
  rw [h]
  refine (Function.forall_update_iff m.loggers fun n o => ∀ l ∈ o, P n l).mpr ⟨?_,hold⟩
  intro l hl
  cases hl
  exact hnew

end Operations

/-- What one step does. -/
inductive Moves (s : Inheritance) : Step → Inheritance → Prop
  | stay {i} (hi : s.Guard i) : Moves s i s
  | create {name} (hlogger : s.manager.loggers name = none) :
      Moves s (.getLogger name) { s with manager := s.manager.setLogger name .new }
  | newAppender (type) : Moves s (.newAppender type) { s with
      manager := { s.manager with appenders := s.manager.appenders++[.new type] } }
  | addAppender {name a logger} (hlogger : s.manager.loggers name = some logger)
      (hlt : a < s.manager.appenders.length)
      (ha : s.attached a = none ∨ s.attached a = some name) : Moves s (.addAppender name a) { s with
        manager := s.manager.addAppender name a
        attached := Function.update s.attached a (some name) }
  | detach {i name logger l attached} (hlogger : s.manager.loggers name = some logger)
      (hl : ∀ a ∈ l, a ∈ logger.appenders)
      (hattached : ∀ a, attached a = if s.attached a = some name ∧ a ∉ l then none else s.attached a)
      (hi : s.Guard i) : Moves s i { s with
        manager := s.manager.setLogger name { logger with appenders := l }
        attached }
  | setFormatter {name val logger} (hlogger : s.manager.loggers name = some logger) :
      Moves s (.setFormatter name val) { s with
        manager := s.manager.setFormatter name (some val) }
  | setAppenderFormatter {a val} (hlt : a < s.manager.appenders.length) :
      Moves s (.setAppenderFormatter a val) { s with
        manager := s.manager.setAppenderFormatter a val
        given := Function.update s.given a val }

/-- What holds in every run. -/
structure Known (s : Inheritance) : Prop where
  own : ∀ a, ∀ ap ∈ s.manager.appenders[a]?, ap.hasFormatter = (s.given a).isSome ∧
    (s.given a ≠ none → ap.formatter = s.given a)
  fresh : ∀ a, s.manager.appenders.length ≤ a → s.given a = none
  formatter : ∀ name, ∀ logger ∈ s.manager.loggers name, logger.formatter ≠ none
  attached : ∀ name a, s.attached a = some name ↔ IsAttached s.manager name a

namespace Known
variable {s : Inheritance}

theorem initial : Known initial where
  own := nofun
  fresh _ _ := rfl
  formatter := nofun
  attached _ _ := iff_of_false nofun nofun

/-- An appender of its own keeps its formatter. -/
theorem of_own (h : Known s) {a : ℕ} {ap : LogAppender} (hap : s.manager.appenders[a]? = some ap)
    (hgiven : s.given a ≠ none) : ap.hasFormatter = true ∧ ap.formatter = s.given a := by
  obtain ⟨hflag,hformatter⟩ := h.own a ap hap
  exact ⟨hflag.trans (Option.isSome_iff_ne_none.mpr hgiven),hformatter hgiven⟩

theorem hasFormatter_eq_false (h : Known s) {a : ℕ} {ap : LogAppender}
    (hap : s.manager.appenders[a]? = some ap) (hgiven : s.given a = none) :
    ap.hasFormatter = false := by
  rw [(h.own a ap hap).1, hgiven]
  rfl

/-- Only the appenders change, and what they were given. -/
theorem of_appenders (h : Known s) {s' : Inheritance}
    (hloggers : s'.manager.loggers = s.manager.loggers) (hattached : s'.attached = s.attached)
    (hown : ∀ a, ∀ ap ∈ s'.manager.appenders[a]?, ap.hasFormatter = (s'.given a).isSome ∧
      (s'.given a ≠ none → ap.formatter = s'.given a))
    (hfresh : ∀ a, s'.manager.appenders.length ≤ a → s'.given a = none) : Known s' where
  own := hown
  fresh := hfresh
  formatter := by
    rw [hloggers]
    exact h.formatter
  attached name a := by
    rw [hattached, h.attached, IsAttached, IsAttached, hloggers]

theorem newAppender (h : Known s) (type : AppenderType) :
    Known { s with manager := { s.manager with appenders := s.manager.appenders++[.new type] } } := by
  refine h.of_appenders rfl rfl (fun a ap hap => ?_) fun a ha => ?_
  · dsimp only at hap ⊢
    rw [List.getElem?_append] at hap
    split_ifs at hap with hlt
    · exact h.own a ap hap
    · have hnone := h.fresh a (not_lt.mp hlt)
      obtain rfl := List.mem_singleton.mp (List.mem_of_getElem? hap)
      rw [hnone]
      exact ⟨rfl,fun hne => absurd rfl hne⟩
  · refine h.fresh a (le_trans ?_ ha)
    rw [List.length_append]
    exact Nat.le_add_right ..

theorem setAppenderFormatter (h : Known s) {a : ℕ} (ha : a < s.manager.appenders.length)
    (val : Option LogFormatter) : Known { s with
      manager := s.manager.setAppenderFormatter a val
      given := Function.update s.given a val } := by
  refine h.of_appenders rfl rfl (fun b ap hap => ?_) fun b hb => ?_
  · dsimp only [LoggerManager.setAppenderFormatter] at hap ⊢
    rw [List.getElem?_modify] at hap
    obtain ⟨ap,hap',rfl⟩ := Option.map_eq_some_iff.mp hap
    by_cases hab : a = b
    · subst hab
      rw [if_pos rfl, Function.update_self]
      exact ⟨rfl,fun _ => rfl⟩
    · rw [if_neg hab, Function.update_of_ne (Ne.symm hab)]
      exact h.own b ap hap'
  · dsimp only [LoggerManager.setAppenderFormatter] at hb ⊢
    rw [List.length_modify] at hb
    rw [Function.update_of_ne (by omega)]
    exact h.fresh b hb

/-- A logger gets other appenders or another formatter. -/
theorem of_logger (h : Known s) {s' : Inheritance} {name : Bytes} {logger : Logger}
    (hloggers : s'.manager.loggers = Function.update s.manager.loggers name (some logger))
    (hformatter : logger.formatter ≠ none) (hgiven : s'.given = s.given)
    (hlength : s'.manager.appenders.length = s.manager.appenders.length)
    (hcell : ∀ (a : ℕ) (ap : LogAppender), s'.manager.appenders[a]? = some ap →
      ∃ old, s.manager.appenders[a]? = some old ∧ ap.hasFormatter = old.hasFormatter ∧
        (old.hasFormatter = true → old.formatter ≠ none → ap.formatter = old.formatter))
    (hattached : ∀ n a, s'.attached a = some n ↔
      if n = name then a ∈ logger.appenders else IsAttached s.manager n a) : Known s' where
  own a ap hap := by
    obtain ⟨old,hold,hflag,hsame⟩ := hcell a ap hap
    obtain ⟨hown,hold⟩ := h.own a old hold
    rw [hgiven, hflag]
    refine ⟨hown,fun hne => ?_⟩
    rw [← hold hne]
    exact hsame (hown.trans (Option.isSome_iff_ne_none.mpr hne)) (hold hne ▸ hne)
  fresh a ha := by
    rw [hgiven]
    exact h.fresh a (hlength ▸ ha)
  formatter := forall_loggers_of_update hloggers hformatter fun n _ => h.formatter n
  attached n a := (hattached n a).trans (isAttached_of_update hloggers n a).symm

theorem create (h : Known s) {name : Bytes} (hlogger : s.manager.loggers name = none) :
    Known { s with manager := s.manager.setLogger name .new } := by
  refine h.of_logger rfl (Option.some_ne_none _) rfl rfl
    (fun a ap hap => ⟨ap,hap,rfl,fun _ _ => rfl⟩) fun n a => ?_
  rw [h.attached]
  split_ifs with hn
  · subst hn
    refine iff_of_false ?_ List.not_mem_nil
    rintro ⟨logger,hl,-⟩
    rw [hlogger] at hl
    cases hl
  · rfl

theorem addAppender (h : Known s) {name : Bytes} {a : ℕ} {logger : Logger}
    (hlogger : s.manager.loggers name = some logger)
    (ha : s.attached a = none ∨ s.attached a = some name) : Known { s with
      manager := s.manager.addAppender name a
      attached := Function.update s.attached a (some name) } := by
  rw [LoggerManager.addAppender, LoggerManager.call_eq hlogger]
  refine h.of_logger rfl (h.formatter name logger hlogger) rfl (List.length_modify ..)
    (fun b ap hap => ?_) fun n b => ?_
  · dsimp only at hap
    rw [List.getElem?_modify] at hap
    obtain ⟨old,hold,rfl⟩ := Option.map_eq_some_iff.mp hap
    refine ⟨old,hold,?_⟩
    split_ifs with hab hnone
    · exact ⟨rfl,fun _ hne => absurd (Option.isNone_iff_eq_none.mp hnone) hne⟩
    · exact ⟨rfl,fun _ _ => rfl⟩
    · exact ⟨rfl,fun _ _ => rfl⟩
  · dsimp only
    by_cases hab : b = a
    · subst hab
      rw [Function.update_self, Option.some_inj]
      split_ifs with hn
      · exact iff_of_true hn.symm (List.mem_append_right _ (List.mem_singleton_self b))
      · refine iff_of_false (Ne.symm hn) fun hattached => ?_
        rw [← h.attached] at hattached
        rcases ha with ha | ha
        · rw [ha] at hattached
          cases hattached
        · exact hn (Option.some.inj (hattached.symm.trans ha))
    · rw [Function.update_of_ne hab, h.attached]
      split_ifs with hn
      · subst hn
        rw [IsAttached, hlogger]
        simp [hab]
      · rfl

/-- Appenders leave a logger. -/
theorem detach (h : Known s) {name : Bytes} {logger : Logger} {l : List ℕ}
    (hlogger : s.manager.loggers name = some logger) (hl : ∀ a ∈ l, a ∈ logger.appenders)
    {attached : ℕ → Option Bytes}
    (hattached : ∀ a, attached a = if s.attached a = some name ∧ a ∉ l then none else s.attached a) :
    Known { s with
      manager := s.manager.setLogger name { logger with appenders := l }
      attached } := by
  refine h.of_logger rfl (h.formatter name logger hlogger) rfl rfl
    (fun a ap hap => ⟨ap,hap,rfl,fun _ _ => rfl⟩) fun n a => ?_
  dsimp only
  rw [hattached, ← h.attached]
  have hname : a ∈ l → s.attached a = some name := fun ha =>
    (h.attached name a).mpr ⟨logger,hlogger,hl a ha⟩
  by_cases hn : n = name
  · subst hn
    rw [if_pos rfl]
    split_ifs with hleft
    · exact iff_of_false nofun hleft.2
    · exact ⟨fun ha => not_not.mp fun hnot => hleft ⟨ha,hnot⟩,hname⟩
  · rw [if_neg hn]
    split_ifs with hleft
    · refine iff_of_false nofun fun ha => hn (Option.some.inj (ha.symm.trans hleft.1))
    · rfl

theorem setFormatter (h : Known s) {name : Bytes} {logger : Logger}
    (hlogger : s.manager.loggers name = some logger) (val : LogFormatter) :
    Known { s with manager := s.manager.setFormatter name (some val) } := by
  rw [LoggerManager.setFormatter, LoggerManager.call_eq hlogger]
  refine h.of_logger rfl (Option.some_ne_none val) rfl ?_ (fun a ap hap => ?_) fun n a => ?_
  · exact length_foldl_inherit ..
  · dsimp only at hap
    rw [getElem?_foldl_inherit] at hap
    split_ifs at hap
    · obtain ⟨old,hold,rfl⟩ := Option.map_eq_some_iff.mp hap
      refine ⟨old,hold,?_⟩
      unfold LogAppender.inherit
      split_ifs with hown
      · exact ⟨rfl,fun _ _ => rfl⟩
      · exact ⟨rfl,fun htrue => absurd htrue hown⟩
    · exact ⟨ap,hap,rfl,fun _ _ => rfl⟩
  · dsimp only
    rw [h.attached]
    split_ifs with hn
    · subst hn
      rw [IsAttached, hlogger]
      simp
    · rfl

theorem step (h : Known s) {i : Step} {s' : Inheritance} (hs : Moves s i s') : Known s' := by
  cases hs with
  | stay => exact h
  | create hlogger => exact h.create hlogger
  | newAppender type => exact h.newAppender type
  | addAppender hlogger _ ha => exact h.addAppender hlogger ha
  | detach hlogger hl hattached => exact h.detach hlogger hl hattached
  | setFormatter hlogger => exact h.setFormatter hlogger _
  | setAppenderFormatter hlt => exact h.setAppenderFormatter hlt _

theorem moves_delAppender (h : Known s) (name : Bytes) (a : ℕ) : Moves s (.delAppender name a) { s with
    manager := s.manager.delAppender name a
    attached := if s.attached a = some name ∧ ¬IsAttached (s.manager.delAppender name a) name a then
      Function.update s.attached a none else s.attached } := by
  cases hlogger : s.manager.loggers name with
  | none =>
    rw [LoggerManager.delAppender, LoggerManager.call_none hlogger,
      if_neg fun hleft => hleft.2 ((h.attached name a).mp hleft.1)]
    exact .stay trivial
  | some logger =>
    rw [LoggerManager.delAppender, LoggerManager.call_eq hlogger]
    refine .detach hlogger (fun b hb => List.mem_of_mem_erase hb) (fun b => ?_) trivial
    have hleft : IsAttached (s.manager.setLogger name
        { logger with appenders := logger.appenders.erase a }) name a ↔
          a ∈ logger.appenders.erase a :=
      (isAttached_of_update rfl name a).trans (iff_of_eq (if_pos rfl))
    rw [if_congr (and_congr_right' (not_congr hleft)) rfl rfl]
    by_cases hab : b = a
    · subst hab
      split_ifs
      · exact Function.update_self ..
      · rfl
    · have hstays : ¬(s.attached b = some name ∧ b ∉ logger.appenders.erase a) := by
        rintro ⟨hb,hnot⟩
        obtain ⟨logger',hlogger',hmem⟩ := (h.attached name b).mp hb
        rw [hlogger] at hlogger'
        cases hlogger'
        exact hnot ((List.mem_erase_of_ne hab).mpr hmem)
      rw [if_neg hstays]
      split_ifs
      · exact Function.update_of_ne hab ..
      · rfl

theorem moves_clearAppenders (h : Known s) (name : Bytes) : Moves s (.clearAppenders name) { s with
    manager := s.manager.clearAppenders name
    attached := fun a => if s.attached a = some name then none else s.attached a } := by
  cases hlogger : s.manager.loggers name with
  | none =>
    have hsame : (fun a => if s.attached a = some name then none else s.attached a) =
        s.attached := by
      funext a
      refine if_neg fun ha => ?_
      obtain ⟨logger,hlogger',-⟩ := (h.attached name a).mp ha
      rw [hlogger] at hlogger'
      cases hlogger'
    rw [LoggerManager.clearAppenders, LoggerManager.call_none hlogger, hsame]
    exact .stay trivial
  | some logger =>
    rw [LoggerManager.clearAppenders, LoggerManager.call_eq hlogger]
    exact .detach hlogger (fun _ ha => absurd ha List.not_mem_nil) (fun a => by simp) trivial

theorem moves (h : Known s) {i : Step} {s' : Inheritance} (hi : s.step i = some s') :
    Moves s i s' := by
  cases i with
  | getLogger name =>
    cases hi
    unfold LoggerManager.getLogger
    cases hlogger : s.manager.loggers name with
    | some logger => exact .stay trivial
    | none => exact .create hlogger
  | newAppender type =>
    cases hi
    exact .newAppender type
  | addAppender name a =>
    rw [Inheritance.step] at hi
    split_ifs at hi with hcond
    cases hi
    obtain ⟨logger,hlogger⟩ := Option.isSome_iff_exists.mp hcond.1
    exact .addAppender hlogger hcond.2.1 hcond.2.2
  | delAppender name a =>
    cases hi
    exact h.moves_delAppender name a
  | clearAppenders name =>
    cases hi
    exact h.moves_clearAppenders name
  | setFormatter name val =>
    cases hi
    cases hlogger : s.manager.loggers name with
    | none =>
      rw [LoggerManager.setFormatter, LoggerManager.call_none hlogger]
      exact .stay trivial
    | some logger => exact .setFormatter hlogger
  | setAppenderFormatter a val =>
    rw [Inheritance.step] at hi
    split_ifs at hi with hlt
    cases hi
    exact .setAppenderFormatter hlt

end Known

/-! ### What attached appenders have -/

/-- An appender that is attached to a logger has its own formatter or the logger's. -/
def Has (s : Inheritance) (logger : Logger) (a : ℕ) : Prop :=
  ∃ ap, s.manager.appenders[a]? = some ap ∧ ap.formatter ≠ none ∧
    ap.formatter = (s.given a).or logger.formatter

namespace Inherits
variable {s : Inheritance}

theorem has (h : Inherits s) {name : Bytes} {logger : Logger}
    (hlogger : s.manager.loggers name = some logger) {a : ℕ} (ha : a ∈ logger.appenders) :
    s.Has logger a := h name logger hlogger a ha

theorem initial : Inherits initial := nofun

theorem create (h : Inherits s) (name : Bytes) :
    Inherits { s with manager := s.manager.setLogger name .new } :=
  forall_loggers_of_update rfl (fun _ ha => absurd ha List.not_mem_nil) fun n _ => h n

theorem newAppender (h : Inherits s) (type : AppenderType) : Inherits { s with
    manager := { s.manager with appenders := s.manager.appenders++[.new type] } } := by
  intro name logger hlogger a ha
  obtain ⟨ap,hap,hhas⟩ := h.has hlogger ha
  refine ⟨ap,?_,hhas⟩
  obtain ⟨hlt,-⟩ := List.getElem?_eq_some_iff.mp hap
  exact (List.getElem?_append_left hlt).trans hap

theorem addAppender (h : Inherits s) (hs : Known s) {name : Bytes} {a : ℕ} {logger : Logger}
    (hlogger : s.manager.loggers name = some logger) (hlt : a < s.manager.appenders.length)
    (hguard : s.Guard (.addAppender name a)) (attached : ℕ → Option Bytes) :
    Inherits { s with manager := s.manager.addAppender name a, attached } := by
  rw [LoggerManager.addAppender, LoggerManager.call_eq hlogger]
  set s' : Inheritance := { s with manager := _, attached } with hs'
  -- Only a null formatter is replaced.
  have hkeep : ∀ l b, s.Has l b → s'.Has l b := by
    rintro l b ⟨ap,hap,hne,heq⟩
    refine ⟨ap,?_,hne,heq⟩
    rw [hs', List.getElem?_modify, hap, Option.map_eq_map, Option.map_some]
    split_ifs with _ hnone
    · exact absurd (Option.isNone_iff_eq_none.mp hnone) hne
    · rfl
    · rfl
  have hnew : s'.Has logger a := by
    have hap := List.getElem?_eq_getElem hlt
    set ap := s.manager.appenders[a]
    by_cases hnone : ap.formatter = none
    · refine ⟨{ ap with formatter := logger.formatter },?_,hs.formatter name logger hlogger,?_⟩
      · rw [hs', List.getElem?_modify, hap, Option.map_eq_map, Option.map_some, if_pos rfl, hnone]
        rfl
      · have hgiven : s.given a = none := by
          by_contra hne
          exact hne ((hs.of_own hap hne).2.symm.trans hnone)
        exact (congrArg (·.or logger.formatter) hgiven).symm
    · refine hkeep logger a ⟨ap,hap,hnone,?_⟩
      by_cases hgiven : s.given a = none
      · rw [hgiven, Option.none_or]
        rcases hguard ap hap with hown | hnull | ⟨logger',hlogger',heq⟩
        · rw [hs.hasFormatter_eq_false hap hgiven] at hown
          cases hown
        · exact absurd hnull hnone
        · rw [hlogger] at hlogger'
          cases hlogger'
          exact heq
      · rw [(hs.of_own hap hgiven).2]
        exact (Option.or_of_isSome (Option.isSome_iff_ne_none.mpr hgiven)).symm
  refine forall_loggers_of_update rfl (fun b hb => ?_) fun n _ l hl b hb =>
    hkeep l b (h.has hl hb)
  rcases List.mem_append.mp hb with hb | hb
  · exact hkeep logger b (h.has hlogger hb)
  · cases List.mem_singleton.mp hb
    exact hnew

theorem detach (h : Inherits s) {name : Bytes} {logger : Logger} {l : List ℕ}
    (hlogger : s.manager.loggers name = some logger) (hl : ∀ a ∈ l, a ∈ logger.appenders)
    (attached : ℕ → Option Bytes) : Inherits { s with
      manager := s.manager.setLogger name { logger with appenders := l }
      attached } :=
  forall_loggers_of_update rfl (fun a ha => h.has hlogger (hl a ha)) fun n _ => h n

theorem setFormatter (h : Inherits s) (hs : Known s) {name : Bytes} {logger : Logger}
    (hlogger : s.manager.loggers name = some logger) (val : LogFormatter) :
    Inherits { s with manager := s.manager.setFormatter name (some val) } := by
  rw [LoggerManager.setFormatter, LoggerManager.call_eq hlogger]
  refine forall_loggers_of_update rfl (fun a ha => ?_) fun n hn l hl a ha => ?_
  · obtain ⟨ap,hap,-⟩ := h.has hlogger ha
    refine ⟨ap.inherit (some val),?_,?_⟩
    · dsimp only
      rw [getElem?_foldl_inherit, if_pos ha, hap]
      rfl
    unfold LogAppender.inherit
    by_cases hgiven : s.given a = none
    · rw [if_neg (Bool.eq_false_iff.mp (hs.hasFormatter_eq_false hap hgiven)), hgiven]
      exact ⟨Option.some_ne_none val,rfl⟩
    · obtain ⟨hown,heq⟩ := hs.of_own hap hgiven
      rw [if_pos hown, heq]
      exact ⟨hgiven,(Option.or_of_isSome (Option.isSome_iff_ne_none.mpr hgiven)).symm⟩
  · obtain ⟨ap,hap,hhas⟩ := h.has hl ha
    refine ⟨ap,?_,hhas⟩
    dsimp only
    rw [getElem?_foldl_inherit, if_neg, hap]
    · rfl
    -- The appender is attached to the other logger.
    · intro hmem
      have hname := (hs.attached name a).mpr ⟨logger,hlogger,hmem⟩
      rw [(hs.attached n a).mpr ⟨l,hl,ha⟩] at hname
      exact hn (Option.some.inj hname)

theorem setAppenderFormatter (h : Inherits s) (hs : Known s) {a : ℕ} {val : Option LogFormatter}
    (hguard : s.Guard (.setAppenderFormatter a val)) : Inherits { s with
      manager := s.manager.setAppenderFormatter a val
      given := Function.update s.given a val } := by
  intro name logger hlogger b hb
  obtain ⟨ap,hap,hhas⟩ := h.has hlogger hb
  dsimp only [LoggerManager.setAppenderFormatter]
  rw [List.getElem?_modify, hap, Option.map_eq_map, Option.map_some]
  by_cases hab : a = b
  · subst hab
    rw [if_pos rfl, Function.update_self]
    cases val with
    | none =>
      have hattached := (hs.attached name a).mpr ⟨logger,hlogger,hb⟩
      rw [show s.attached a = none from hguard] at hattached
      cases hattached
    | some f => exact ⟨_,rfl,Option.some_ne_none f,rfl⟩
  · rw [if_neg hab, Function.update_of_ne (Ne.symm hab)]
    exact ⟨ap,rfl,hhas⟩

theorem step (h : Inherits s) (hs : Known s) {i : Step} (hguard : s.Guard i) {s' : Inheritance}
    (hm : Moves s i s') : Inherits s' := by
  cases hm with
  | stay => exact h
  | create => exact h.create _
  | newAppender type => exact h.newAppender type
  | addAppender hlogger hlt => exact h.addAppender hs hlogger hlt hguard _
  | detach hlogger hl => exact h.detach hlogger hl _
  | setFormatter hlogger => exact h.setFormatter hs hlogger _
  | setAppenderFormatter => exact h.setAppenderFormatter hs hguard

/-- Only the guarded steps keep it. -/
theorem guard (hs : Known s) {i : Step} {s' : Inheritance} (hm : Moves s i s')
    (h : Inherits s') : s.Guard i := by
  cases hm with
  | stay hi => exact hi
  | create => trivial
  | newAppender => trivial
  | detach _ _ _ hi => exact hi
  | setFormatter => trivial
  | @addAppender name a logger hlogger =>
    intro ap hap
    rw [LoggerManager.addAppender, LoggerManager.call_eq hlogger] at h
    obtain ⟨ap',hap',-,heq⟩ := h.has (Function.update_self ..)
      (List.mem_append_right _ (List.mem_singleton_self a))
    by_cases hgiven : s.given a = none
    · right
      by_cases hnone : ap.formatter = none
      · exact .inl hnone
      refine .inr ⟨logger,hlogger,?_⟩
      rw [List.getElem?_modify, hap, Option.map_eq_map, Option.map_some, if_pos rfl,
        if_neg (mt Option.isNone_iff_eq_none.mp hnone), Option.some_inj] at hap'
      rw [hap', heq]
      exact congrArg (·.or logger.formatter) hgiven
    · exact .inl (hs.of_own hap hgiven).1
  | @setAppenderFormatter a val hlt =>
    cases val with
    | some _ => trivial
    | none =>
      -- The appender of a logger would be left without a formatter.
      by_contra hne
      obtain ⟨name,hname⟩ := Option.ne_none_iff_exists'.mp hne
      obtain ⟨logger,hlogger,ha⟩ := (hs.attached name a).mp hname
      obtain ⟨ap,hap,hnull,-⟩ := h.has hlogger ha
      dsimp only [LoggerManager.setAppenderFormatter] at hap
      rw [List.getElem?_modify] at hap
      obtain ⟨old,-,rfl⟩ := Option.map_eq_some_iff.mp hap
      rw [if_pos rfl] at hnull
      exact hnull rfl

end Inherits

/-- The formatters are inherited throughout a run if and only if every step of the run is
guarded. -/
theorem inherits_iff {steps : List Step} {s : Inheritance}
    (h : machine.exec initial steps = some s) :
    (∀ steps', steps' <+: steps → ∀ s' ∈ machine.exec initial steps', s'.Inherits) ↔
      machine.Guarded Guard initial steps :=
  Transition.Machine.forall_prefix_iff
    (fun _ _ _ hs hP hi => ⟨hs.step (hs.moves hi),Inherits.guard hs (hs.moves hi),
      fun hG => hP.step hs hG (hs.moves hi)⟩)
    Known.initial Inherits.initial h

/-- An appender with a formatter of its own moves to another logger. -/
def moves : List Step :=
  [.getLogger [97],.newAppender .stdout,.addAppender [97] 0,.setFormatter [97] (.new [37,109]),
    .setAppenderFormatter 0 (some (.new [37,112])),.delAppender [97] 0,.getLogger [98],
    .addAppender [98] 0,.setFormatter [98] (.new [37,110])]

theorem inherits_moves : ∃ s, machine.exec initial moves = some s ∧ s.Inherits := by
  obtain ⟨s,hs⟩ : ∃ s, machine.exec initial moves = some s :=
    Option.isSome_iff_exists.mp (by decide)
  exact ⟨s,hs,(inherits_iff hs).mpr (by decide) moves List.prefix_rfl s hs⟩

/-- An appender keeps the copy of the formatter of the logger that it left. -/
theorem not_inherits_moved : ∃ s, machine.Reachable s ∧ ¬s.Inherits := by
  obtain ⟨s,hs,hgiven,hlogger,hap⟩ := Transition.Machine.exists_reaches (M := machine)
    (G := fun _ _ => True) (s := initial) rfl
    [.getLogger [97],.newAppender .stdout,.addAppender [97] 0,.delAppender [97] 0,.getLogger [98],
      .setFormatter [98] (.new [37,109]),.addAppender [98] 0]
    (fun s => s.given 0 = none ∧
      s.manager.loggers [98] = some ⟨.DEBUG,[0],some (.new [37,109])⟩ ∧
      s.manager.appenders[0]? = some ⟨.stdout,.DEBUG,Logger.new.formatter,false⟩)
    (Transition.Machine.guarded_true ..) (by decide +kernel)
  refine ⟨s,hs,fun h => ?_⟩
  obtain ⟨ap,hap',-,heq⟩ := h.has hlogger (List.mem_singleton_self 0)
  rw [hap] at hap'
  cases hap'
  rw [hgiven] at heq
  exact absurd heq (by decide +kernel)

end Inheritance
end CoroutineWebserve.Log
