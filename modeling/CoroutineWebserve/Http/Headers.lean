import CoroutineWebserve.Client.Message
import CoroutineWebserve.Containers.Registry
import CoroutineWebserve.Http.HeaderMap

/-!
# Headers that are set and deleted

The headers of a request or a response after any history: whatever the case of the letters, a name
has the value that was set last, and it stays spelled as when it came.
-/
namespace CoroutineWebserve.Http
open Registry

namespace MapType

/-- `map.erase(key)`. -/
def erase (key : Bytes) (m : MapType) : MapType :=
  List.filter (fun e : Bytes × Bytes =>
    caseInsensitiveLess key e.1 || caseInsensitiveLess e.1 key) m

/-- The key of the entry that `find` finds. -/
def spelled (m : MapType) (key : Bytes) : Option Bytes :=
  (List.find? (fun e : Bytes × Bytes =>
    !caseInsensitiveLess key e.1 && !caseInsensitiveLess e.1 key) m).map (·.1)

theorem spelled_cons (e : Bytes × Bytes) (m : MapType) (l : Bytes) :
    spelled (e :: m) l = if folded e.1 = folded l then some e.1 else spelled m l := by
  rw [spelled, List.find?_cons]
  split
  · next h => rw [if_pos (not_less_iff.mp h)]; rfl
  · next h =>
    rw [if_neg fun heq => absurd (not_less_iff.mpr heq) (by rw [h]; decide)]
    rfl

theorem spelled_eq_none {m : MapType} {l : Bytes} (h : ∀ e ∈ m, folded e.1 ≠ folded l) :
    spelled m l = none := by
  induction m with
  | nil => rfl
  | cons e m ih =>
    rw [spelled_cons, if_neg (h e List.mem_cons_self),
      ih fun e he => h e (List.mem_cons_of_mem _ he)]

/-! ### Setting -/

theorem mem_set {k v : Bytes} {m : MapType} {d : Bytes × Bytes} (h : d ∈ set k v m) :
    folded d.1 = folded k ∨ d ∈ m := by
  induction m with
  | nil =>
    obtain rfl := List.mem_singleton.mp h
    exact .inl rfl
  | cons e m ih =>
    rcases lt_or_eq_or_gt k e.1 with hlt | heq | hgt
    · rw [set_cons_of_lt v m hlt] at h
      rcases List.mem_cons.mp h with rfl | h
      · exact .inl rfl
      · exact .inr h
    · rw [set_cons_of_eq v m heq.symm] at h
      rcases List.mem_cons.mp h with rfl | h
      · exact .inl heq.symm
      · exact .inr (List.mem_cons_of_mem _ h)
    · rw [set_cons_of_gt v m hgt] at h
      rcases List.mem_cons.mp h with rfl | h
      · exact .inr List.mem_cons_self
      · exact (ih h).imp_right (List.mem_cons_of_mem _)

/-- What holds of the names and of the values holds when another one is set. -/
theorem forall_set {P Q : Bytes → Prop} {k v : Bytes} (hk : P k) (hv : Q v) {m : MapType}
    (h : ∀ e ∈ m, P e.1 ∧ Q e.2) : ∀ e ∈ set k v m, P e.1 ∧ Q e.2 := by
  induction m with
  | nil =>
    intro e he
    obtain rfl := List.mem_singleton.mp he
    exact ⟨hk,hv⟩
  | cons d m ih =>
    obtain ⟨hd,hm⟩ := List.forall_mem_cons.mp h
    rcases lt_or_eq_or_gt k d.1 with hlt | heq | hgt
    · rw [set_cons_of_lt v m hlt]
      exact List.forall_mem_cons.mpr ⟨⟨hk,hv⟩,h⟩
    · rw [set_cons_of_eq v m heq.symm]
      exact List.forall_mem_cons.mpr ⟨⟨hd.1,hv⟩,hm⟩
    · rw [set_cons_of_gt v m hgt]
      exact List.forall_mem_cons.mpr ⟨hd,ih hm⟩

theorem Sorted.set {m : MapType} (h : m.Sorted) (k v : Bytes) : (m.set k v).Sorted := by
  induction m with
  | nil => exact List.pairwise_singleton ..
  | cons e m ih =>
    obtain ⟨hfirst,hm⟩ := List.pairwise_cons.mp h
    rcases lt_or_eq_or_gt k e.1 with hlt | heq | hgt
    · rw [set_cons_of_lt v m hlt]
      refine List.pairwise_cons.mpr ⟨fun d hd => ?_,h⟩
      rcases List.mem_cons.mp hd with rfl | hd
      · exact hlt
      · exact List.lt_trans hlt (hfirst d hd)
    · rw [set_cons_of_eq v m heq.symm]
      exact List.pairwise_cons.mpr ⟨hfirst,hm⟩
    · rw [set_cons_of_gt v m hgt]
      refine List.pairwise_cons.mpr ⟨fun d hd => ?_,ih hm⟩
      rcases mem_set hd with hd | hd
      · exact hd ▸ hgt
      · exact hfirst d hd

/-- A key keeps its spelling when it is set again. -/
theorem spelled_set {m : MapType} (h : m.Sorted) (k v l : Bytes) :
    spelled (set k v m) l =
      if folded k = folded l then some ((spelled m l).getD k) else spelled m l := by
  induction m with
  | nil => exact spelled_cons (k,v) [] l
  | cons e m ih =>
    obtain ⟨hfirst,hm⟩ := List.pairwise_cons.mp h
    rcases lt_or_eq_or_gt k e.1 with hlt | heq | hgt
    · rw [set_cons_of_lt v m hlt, spelled_cons]
      split
      · next hk =>
        have hnone : spelled (e :: m) l = none := by
          refine spelled_eq_none fun d hd heq => ?_
          have hd : folded k < folded d.1 := by
            rcases List.mem_cons.mp hd with rfl | hd
            · exact hlt
            · exact List.lt_trans hlt (hfirst d hd)
          rw [heq, ← hk] at hd
          exact List.lt_irrefl _ hd
        rw [hnone]
        rfl
      · rfl
    · rw [set_cons_of_eq v m heq.symm, spelled_cons, spelled_cons, heq]
      split <;> rfl
    · have hne : folded e.1 ≠ folded k := fun heq => List.lt_irrefl _ (heq ▸ hgt)
      rw [set_cons_of_gt v m hgt, spelled_cons, spelled_cons, ih hm]
      split_ifs with he hk
      · exact absurd (he.trans hk.symm) hne
      · rfl
      · rfl
      · rfl

/-! ### Erasing -/

theorem erase_cons (k : Bytes) (e : Bytes × Bytes) (m : MapType) :
    erase k (e :: m) = if folded e.1 = folded k then erase k m else e :: erase k m := by
  have hless : (caseInsensitiveLess k e.1 || caseInsensitiveLess e.1 k) = true ↔
      folded e.1 ≠ folded k := by
    rw [Ne, ← not_less_iff]
    simp only [Bool.and_eq_true, Bool.or_eq_true, Bool.not_eq_true', not_and_or,
      Bool.not_eq_false]
  rw [erase, List.filter_cons]
  by_cases h : folded e.1 = folded k
  · rw [if_neg (hless.not.mpr (not_not.mpr h)), if_pos h, erase]
  · rw [if_pos (hless.mpr h), if_neg h, erase]

theorem Sorted.erase {m : MapType} (h : m.Sorted) (k : Bytes) : (m.erase k).Sorted :=
  h.sublist List.filter_sublist

/-- A key that was erased is not found, in any case of its letters, and others are as before. -/
theorem find_erase (k l : Bytes) (m : MapType) :
    find (erase k m) l = if folded k = folded l then none else find m l := by
  induction m with
  | nil => rw [erase, List.filter_nil]; split <;> rfl
  | cons e m ih =>
    rw [erase_cons, find_cons]
    by_cases he : folded e.1 = folded k
    · rw [if_pos he, ih, he]
      split <;> rfl
    · rw [if_neg he, find_cons, ih]
      split_ifs with hel hk
      · exact absurd (hel.trans hk.symm) he
      · rfl
      · rfl
      · rfl

theorem spelled_erase (k l : Bytes) (m : MapType) :
    spelled (erase k m) l = if folded k = folded l then none else spelled m l := by
  induction m with
  | nil => rw [erase, List.filter_nil]; split <;> rfl
  | cons e m ih =>
    rw [erase_cons, spelled_cons]
    by_cases he : folded e.1 = folded k
    · rw [if_pos he, ih, he]
      split <;> rfl
    · rw [if_neg he, spelled_cons, ih]
      split_ifs with hel hk
      · exact absurd (hel.trans hk.symm) he
      · rfl
      · rfl
      · rfl

/-! ### Entries -/

theorem Sorted.mem_iff {m : MapType} (h : m.Sorted) {n v : Bytes} :
    (n,v) ∈ m ↔ m.find n = some v ∧ m.spelled n = some n := by
  induction m with
  | nil => exact iff_of_false List.not_mem_nil fun h => nomatch h.1
  | cons e m ih =>
    obtain ⟨hfirst,hm⟩ := List.pairwise_cons.mp h
    rw [List.mem_cons, find_cons, spelled_cons, ih hm]
    constructor
    · rintro (rfl | hin)
      · rw [if_pos rfl, if_pos rfl]
        exact ⟨rfl,rfl⟩
      · have hlt : folded e.1 < folded n := hfirst (n,v) ((ih hm).mpr hin)
        have hne : folded e.1 ≠ folded n := fun heq => List.lt_irrefl _ (heq ▸ hlt)
        rwa [if_neg hne, if_neg hne]
    · by_cases he : folded e.1 = folded n
      · rw [if_pos he, if_pos he]
        rintro ⟨hv,hn⟩
        exact .inl (Prod.ext (Option.some.inj hn).symm (Option.some.inj hv).symm)
      · rw [if_neg he, if_neg he]
        exact .inr

end MapType

/-! ### Histories -/

/-- A call of `setHeader` or `delHeader`. -/
abbrev HeaderCall := Change Bytes Bytes

/-- The call as it is for a name in any case. -/
def caseless : HeaderCall → Change Bytes Bytes
  | .set k v => .set (folded k) v
  | .remove k => .remove (folded k)

/-- How a name is spelled after these calls: as when it came first, since it was last deleted. -/
def spelling (calls : List HeaderCall) (n : Bytes) : Option Bytes :=
  calls.foldl (fun s c =>
    if folded c.key = folded n then
      match c with
      | .set k _ => some (s.getD k)
      | .remove _ => none
    else s) none

/-- What is left of a history of calls. -/
structure Keeps (calls : List HeaderCall) (m : MapType) : Prop where
  sorted : m.Sorted
  find : ∀ n, m.find n = latest (calls.map caseless) (folded n)
  mem : ∀ n v, (n,v) ∈ m ↔
    latest (calls.map caseless) (folded n) = some v ∧ spelling calls n = some n

theorem caseless_key (c : HeaderCall) : (caseless c).key = folded c.key := by cases c <;> rfl

theorem caseless_value (c : HeaderCall) : (caseless c).value = c.value := by cases c <;> rfl

namespace MapType

/-- The map of the headers after a call. -/
def call (m : MapType) : HeaderCall → MapType
  | .set key val => m.set key val
  | .remove key => m.erase key

/-- One call, seen from outside. -/
theorem call_facts {m : MapType} (h : m.Sorted) (c : HeaderCall) :
    (m.call c).Sorted ∧
    (∀ n, (m.call c).find n = if folded c.key = folded n then c.value else m.find n) ∧
    ∀ n, (m.call c).spelled n = if folded c.key = folded n then
      match c with
      | .set k _ => some ((m.spelled n).getD k)
      | .remove _ => none
    else m.spelled n := by
  cases c with
  | set k v => exact ⟨h.set k v,fun n => find_set k v n m,fun n => spelled_set h k v n⟩
  | remove k => exact ⟨h.erase k,fun n => find_erase k n m,fun n => spelled_erase k n m⟩

theorem calls_facts (calls : List HeaderCall) :
    Sorted (calls.foldl call []) ∧
    (∀ n, find (calls.foldl call []) n = latest (calls.map caseless) (folded n)) ∧
    ∀ n, spelled (calls.foldl call []) n = spelling calls n := by
  induction calls using List.reverseRecOn with
  | nil => exact ⟨List.Pairwise.nil,fun n => rfl,fun n => rfl⟩
  | append_singleton calls c ih =>
    obtain ⟨hsorted,hfind,hspelled⟩ := ih
    obtain ⟨hsorted',hfind',hspelled'⟩ := call_facts hsorted c
    rw [List.foldl_append, List.foldl_cons, List.foldl_nil]
    refine ⟨hsorted',fun n => ?_,fun n => ?_⟩
    · rw [hfind' n, hfind n, List.map_append, List.map_singleton, latest_concat, caseless_key,
        caseless_value]
    · rw [hspelled' n, hspelled n, spelling, spelling, List.foldl_append]
      rfl

theorem calls_keep (calls : List HeaderCall) : Keeps calls (calls.foldl call []) := by
  obtain ⟨hsorted,hfind,hspelled⟩ := calls_facts calls
  refine ⟨hsorted,hfind,fun n v => ?_⟩
  rw [hsorted.mem_iff, hfind n, hspelled n]

end MapType

/-! ### Requests and responses -/

namespace HttpRequest

def delHeader (r : HttpRequest) (key : Bytes) : HttpRequest :=
  { r with headers := r.headers.erase key }

/-- `hasHeader(key, val)`: what is stored in `*val`, `none` where it returns false. -/
def hasHeader (r : HttpRequest) (key : Bytes) : Option Bytes := r.headers.find key

def call (r : HttpRequest) : HeaderCall → HttpRequest
  | .set key val => r.setHeader key val
  | .remove key => r.delHeader key

theorem calls_eq (calls : List HeaderCall) (r : HttpRequest) :
    calls.foldl call r = { r with headers := calls.foldl MapType.call r.headers } := by
  induction calls generalizing r with
  | nil => rfl
  | cons c calls ih => cases c <;> exact ih _

end HttpRequest
end CoroutineWebserve.Http

namespace CoroutineWebserve.Client
open Http Registry

namespace HttpResponse

def delHeader (r : HttpResponse) (key : Bytes) : HttpResponse :=
  { r with headers := r.headers.erase key }

def call (r : HttpResponse) : HeaderCall → HttpResponse
  | .set key val => r.setHeader key val
  | .remove key => r.delHeader key

theorem calls_eq (calls : List HeaderCall) (r : HttpResponse) :
    calls.foldl call r = { r with headers := calls.foldl MapType.call r.headers } := by
  induction calls generalizing r with
  | nil => rfl
  | cons c calls ih => cases c <;> exact ih _

end HttpResponse

/-- After any calls of `setHeader` and `delHeader` a name has one entry at most, whatever the case
of its letters: with the value that was set last, spelled as when it came. The rest of the message
is as it was. -/
theorem headers_keep (calls : List HeaderCall) :
    (∃ m, Keeps calls m ∧
      calls.foldl HttpRequest.call HttpRequest.new = { HttpRequest.new with headers := m } ∧
      calls.foldl HttpResponse.call HttpResponse.new = { HttpResponse.new with headers := m }) ∧
    ∀ n, (calls.foldl HttpRequest.call HttpRequest.new).hasHeader n =
      latest (calls.map caseless) (folded n) := by
  have hkeep := MapType.calls_keep calls
  refine ⟨⟨_,hkeep,HttpRequest.calls_eq calls _,HttpResponse.calls_eq calls _⟩,fun n => ?_⟩
  rw [HttpRequest.calls_eq]
  exact hkeep.find n

end CoroutineWebserve.Client
