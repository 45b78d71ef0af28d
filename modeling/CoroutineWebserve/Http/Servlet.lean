import CoroutineWebserve.Containers.Registry
import CoroutineWebserve.Http.Message

/-!
# `ServletDispatch`

Servlets are registered under a path or under a pattern, and the dispatcher picks one for the path
of a request. `make` is the `get` of the creators that callers bring, and `fnmatch` the function of
the C library.
-/
namespace CoroutineWebserve.Http
open Registry

/-- What a `Servlet::ptr` points to: a servlet that the dispatcher makes itself, or `slt`, a pointer
of the caller. -/
inductive Servlet (S F : Type*)
  | FunctionServlet (cb : F)
  | NotFoundServlet (name : Bytes)
  | pointer (slt : S)
deriving DecidableEq

/-- What an `IServletCreator::ptr` points to. -/
inductive IServletCreator (S F C : Type*)
  | HoldServletCreator (slt : Servlet S F)
  | pointer (creator : C)
deriving DecidableEq

structure ServletDispatch (S F C : Type*) where
  datas : Bytes → Option (IServletCreator S F C)
  globs : List (Bytes × IServletCreator S F C)
  default : Servlet S F

variable {S F C : Type*} (make : C → Servlet S F) (fnmatch : Bytes → Bytes → Int32)

/-- `IServletCreator::get`. -/
def IServletCreator.get : IServletCreator S F C → Servlet S F
  | HoldServletCreator slt => slt
  | pointer creator => make creator

namespace ServletDispatch

/-- `ServletDispatch::ServletDispatch()`. -/
def init : ServletDispatch S F C where
  datas _ := none
  globs := []
  default := .NotFoundServlet (bytes "webserve/1.0")

/-- The loop that erases the first entry of `uri` and breaks. -/
def eraseGlob (uri : Bytes) :
    List (Bytes × IServletCreator S F C) → List (Bytes × IServletCreator S F C)
  | [] => []
  | it :: rest => if it.1 = uri then rest else it :: eraseGlob uri rest

section operations
variable (d : ServletDispatch S F C) (uri : Bytes)

def addServlet (slt : Servlet S F) : ServletDispatch S F C :=
  { d with datas := Function.update d.datas uri (some (.HoldServletCreator slt)) }

def addServletCreator (creator : IServletCreator S F C) : ServletDispatch S F C :=
  { d with datas := Function.update d.datas uri (some creator) }

def addGlobServletCreator (creator : IServletCreator S F C) : ServletDispatch S F C :=
  { d with globs := eraseGlob uri d.globs++[(uri,creator)] }

/-- The overload of `addServlet` for a callback. -/
def addServletCallback (cb : F) : ServletDispatch S F C :=
  { d with
    datas := Function.update d.datas uri (some (.HoldServletCreator (.FunctionServlet cb))) }

def addGlobServlet (slt : Servlet S F) : ServletDispatch S F C :=
  { d with globs := eraseGlob uri d.globs++[(uri,.HoldServletCreator slt)] }

/-- The overload of `addGlobServlet` for a callback. -/
def addGlobServletCallback (cb : F) : ServletDispatch S F C :=
  d.addGlobServlet uri (.FunctionServlet cb)

def delServlet : ServletDispatch S F C := { d with datas := Function.update d.datas uri none }

def delGlobServlet : ServletDispatch S F C := { d with globs := eraseGlob uri d.globs }

def setDefault (v : Servlet S F) : ServletDispatch S F C := { d with default := v }

/-- `getServlet(uri)`, without a value for `nullptr`. -/
def getServlet : Option (Servlet S F) := (d.datas uri).map (·.get make)

def getGlobServlet : Option (Servlet S F) :=
  (d.globs.find? fun it => it.1 = uri).map (·.2.get make)

def getMatchedServlet : Servlet S F :=
  match d.datas uri with
  | some creator => creator.get make
  | none =>
    match d.globs.find? fun it => fnmatch (cStr it.1) (cStr uri) = 0 with
    | some it => it.2.get make
    | none => d.default

end operations

/-! ### Runs -/

/-- The operations that change a dispatcher; each holds the lock. -/
inductive Op (S F C : Type*)
  | addServlet (uri : Bytes) (slt : Servlet S F)
  | addServletCallback (uri : Bytes) (cb : F)
  | addServletCreator (uri : Bytes) (creator : IServletCreator S F C)
  | addGlobServlet (uri : Bytes) (slt : Servlet S F)
  | addGlobServletCallback (uri : Bytes) (cb : F)
  | addGlobServletCreator (uri : Bytes) (creator : IServletCreator S F C)
  | delServlet (uri : Bytes)
  | delGlobServlet (uri : Bytes)
  | setDefault (v : Servlet S F)

def step (d : ServletDispatch S F C) : Op S F C → ServletDispatch S F C
  | .addServlet uri slt => d.addServlet uri slt
  | .addServletCallback uri cb => d.addServletCallback uri cb
  | .addServletCreator uri creator => d.addServletCreator uri creator
  | .addGlobServlet uri slt => d.addGlobServlet uri slt
  | .addGlobServletCallback uri cb => d.addGlobServletCallback uri cb
  | .addGlobServletCreator uri creator => d.addGlobServletCreator uri creator
  | .delServlet uri => d.delServlet uri
  | .delGlobServlet uri => d.delGlobServlet uri
  | .setDefault v => d.setDefault v

/-- The dispatcher after these operations. -/
def run (history : List (Op S F C)) : ServletDispatch S F C := history.foldl step init

/-! ### What the history says -/

namespace Op

/-- What an operation changes under an exact path. -/
def exact : Op S F C → Option (Change Bytes (IServletCreator S F C))
  | addServlet uri slt => some (.set uri (.HoldServletCreator slt))
  | addServletCallback uri cb => some (.set uri (.HoldServletCreator (.FunctionServlet cb)))
  | addServletCreator uri creator => some (.set uri creator)
  | delServlet uri => some (.remove uri)
  | _ => none

/-- What an operation changes under a pattern. -/
def glob : Op S F C → Option (Change Bytes (IServletCreator S F C))
  | addGlobServlet uri slt => some (.set uri (.HoldServletCreator slt))
  | addGlobServletCallback uri cb => some (.set uri (.HoldServletCreator (.FunctionServlet cb)))
  | addGlobServletCreator uri creator => some (.set uri creator)
  | delGlobServlet uri => some (.remove uri)
  | _ => none

def newDefault : Op S F C → Option (Servlet S F)
  | setDefault v => some v
  | _ => none

end Op

/-- The creator that was registered last, and not deleted, under exactly this path. -/
def registered (history : List (Op S F C)) (uri : Bytes) : Option (IServletCreator S F C) :=
  latest (history.filterMap Op.exact) uri

/-- The patterns that were not deleted and their creators, in the order of the last
registrations. -/
def patterns (history : List (Op S F C)) : List (Bytes × IServletCreator S F C) :=
  live (history.filterMap Op.glob)

/-- The default that was set last. -/
def lastDefault (history : List (Op S F C)) : Servlet S F :=
  (history.filterMap Op.newDefault).getLastD (.NotFoundServlet (bytes "webserve/1.0"))

/-- The servlet for a path: the one registered under it, else that of the first pattern that
matches, else the default. -/
def designated (history : List (Op S F C)) (uri : Bytes) : Servlet S F :=
  match registered history uri with
  | some creator => creator.get make
  | none =>
    match (patterns history).find? fun it => fnmatch (cStr it.1) (cStr uri) = 0 with
    | some it => it.2.get make
    | none => lastDefault history

/-! ### Every run keeps the tables of its history -/

theorem eraseGlob_eq_eraseP (uri : Bytes) (globs : List (Bytes × IServletCreator S F C)) :
    eraseGlob uri globs = globs.eraseP fun it => it.1 = uri := by
  induction globs with
  | nil => rfl
  | cons it rest ih => by_cases hit : it.1 = uri <;> simp [eraseGlob, hit, ih]

/-- The loops of the three operations are one change of the vector. -/
theorem change_eq (globs : List (Bytes × IServletCreator S F C))
    (c : Change Bytes (IServletCreator S F C)) :
    change globs c = eraseGlob c.key globs++c.entries :=
  congrArg (·++c.entries) (eraseGlob_eq_eraseP c.key globs).symm

/-- The dispatcher holds what the history says. -/
structure Holds (history : List (Op S F C)) (d : ServletDispatch S F C) : Prop where
  datas : d.datas = registered history
  globs : d.globs = patterns history
  default : d.default = lastDefault history

/-- A step makes at most one change in each of the tables. -/
theorem step_eq (d : ServletDispatch S F C) (op : Op S F C) :
    step d op =
      { datas := op.exact.toList.foldl (fun m c => Function.update m c.key c.value) d.datas
        globs := op.glob.toList.foldl change d.globs
        default := op.newDefault.getD d.default } := by
  cases op <;>
    simp [step, Op.exact, Op.glob, Op.newDefault, change_eq, Change.key, Change.value,
      Change.entries, addServlet, addServletCallback, addServletCreator, addGlobServlet,
      addGlobServletCallback, addGlobServletCreator, delServlet, delGlobServlet, setDefault]

theorem filterMap_concat {α β : Type*} (f : α → Option β) (l : List α) (a : α) :
    (l++[a]).filterMap f = l.filterMap f++(f a).toList := by
  rw [List.filterMap_append]
  cases hfa : f a <;> simp [hfa]

theorem Holds.step {history : List (Op S F C)} {d : ServletDispatch S F C}
    (hd : Holds history d) (op : Op S F C) : Holds (history++[op]) (d.step op) := by
  rw [step_eq]
  refine ⟨?_,?_,?_⟩
  · unfold registered
    simp only [filterMap_concat, ← foldl_update_eq_latest, List.foldl_append]
    rw [foldl_update_eq_latest, hd.datas]
    rfl
  · unfold patterns
    simp only [filterMap_concat, ← foldl_change_eq_live, List.foldl_append]
    rw [foldl_change_eq_live, hd.globs]
    rfl
  · simp only [lastDefault, filterMap_concat]
    cases hv : op.newDefault with
    | none =>
      rw [Option.toList_none, List.append_nil]
      exact hd.default
    | some v => simp

theorem holds_run (history : List (Op S F C)) : Holds history (run history) := by
  induction history using List.reverseRecOn with
  | nil => exact ⟨rfl,rfl,rfl⟩
  | append_singleton history op ih =>
    have hrun : run (history++[op]) = (run history).step op := by
      simp [run]
    rw [hrun]
    exact ih.step op

/-! ### The dispatch -/

/-- What a dispatcher with this history does for a path. -/
structure Dispatches (history : List (Op S F C)) (d : ServletDispatch S F C) : Prop where
  /-- No pattern has two entries. -/
  nodup : (d.globs.map Prod.fst).Nodup
  /-- The entries are those of the live patterns, in the order of the last registrations. -/
  globs : d.globs = patterns history
  getServlet : ∀ uri, d.getServlet make uri = (registered history uri).map (·.get make)
  getGlobServlet : ∀ uri, d.getGlobServlet make uri =
    (latest (history.filterMap Op.glob) uri).map (·.get make)
  getMatchedServlet : ∀ uri,
    d.getMatchedServlet make fnmatch uri = designated make fnmatch history uri

/-- The entry that `getGlobServlet` looks for is the last one registered. -/
theorem find_patterns (history : List (Op S F C)) (uri : Bytes) :
    ((patterns history).find? fun it => it.1 = uri).map Prod.snd =
      latest (history.filterMap Op.glob) uri :=
  find_live _ uri

theorem dispatches_of_holds {history : List (Op S F C)} {d : ServletDispatch S F C}
    (hd : Holds history d) : Dispatches make fnmatch history d where
  nodup := by
    rw [hd.globs]
    exact nodup_live _
  globs := hd.globs
  getServlet uri := by rw [ServletDispatch.getServlet, hd.datas]
  getGlobServlet uri := by
    rw [ServletDispatch.getGlobServlet, hd.globs, ← find_patterns, Option.map_map]
    rfl
  getMatchedServlet uri := by
    rw [ServletDispatch.getMatchedServlet, hd.datas, hd.globs, hd.default]
    rfl

/-- After every history, an exact path comes before the patterns and they before the default. -/
theorem dispatches (history : List (Op S F C)) :
    Dispatches make fnmatch history (run history) :=
  dispatches_of_holds make fnmatch (holds_run history)

end ServletDispatch
end CoroutineWebserve.Http
