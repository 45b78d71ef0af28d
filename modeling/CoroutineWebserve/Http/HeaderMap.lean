import CoroutineWebserve.Http.Dump
import CoroutineWebserve.Ragel.Pattern

/-!
# Headers that are sent

A `std::map` keeps its entries in the order of their keys. Setting them one after the other
gives the map again, and settings of different keys commute.
-/
namespace CoroutineWebserve.Http
open Ragel

/-- `tchar` of RFC 7230: a letter, a digit, or one of the marks. -/
def isTchar (b : UInt8) : Bool :=
  inRanges [(48,57),(65,90),(97,122)] b || (bytes "!#$%&'*+-.^_\x60|~").contains b

/-- The name of a header that `dump` does not print itself. -/
structure IsFieldName (name : Bytes) : Prop where
  ne : name ≠ []
  tchar : ∀ b ∈ name, isTchar b
  connection : folded name ≠ bytes "connection"
  contentLength : folded name ≠ bytes "content-length"

instance : DecidablePred IsFieldName := fun name =>
  decidable_of_iff (name ≠ [] ∧ name.all isTchar ∧ folded name ≠ bytes "connection" ∧
    folded name ≠ bytes "content-length")
    ⟨fun ⟨hne,htchar,hconn,hlen⟩ => ⟨hne,List.all_eq_true.mp htchar,hconn,hlen⟩,
      fun ⟨hne,htchar,hconn,hlen⟩ => ⟨hne,List.all_eq_true.mpr htchar,hconn,hlen⟩⟩

/-- The headers of a message that was printed with these. -/
def sentHeaders (close : Bool) (body : Bytes) (headers : MapType) : MapType :=
  let headers :=
    headers.set (bytes "connection") (if close then bytes "close" else bytes "keep-alive")
  if body = [] then headers else headers.set (bytes "content-length") (decimal body.length)

/-- The header `connection` that is printed. -/
def connectionField (close : Bool) : Bytes × Bytes :=
  (bytes "connection",if close then bytes "close" else bytes "keep-alive")

/-- The header for the length of the body, which is printed if there is one. -/
def lengthFields (body : Bytes) : List (Bytes × Bytes) :=
  if body = [] then [] else [(bytes "content-length",decimal body.length)]

theorem versionText_eq {version : UInt8} (h : version = 0x10 ∨ version = 0x11) :
    versionText version = bytes "HTTP/1.0" ∧ version = 0x10 ∨
      versionText version = bytes "HTTP/1.1" ∧ version = 0x11 := by
  rcases h with rfl | rfl
  · exact .inl ⟨by decide,rfl⟩
  · exact .inr ⟨by decide,rfl⟩

theorem fieldLines_eq {headers : MapType} (h : ∀ e ∈ headers, IsFieldName e.1) :
    fieldLines false headers = headers.flatMap fieldLine := by
  rw [fieldLines, List.filter_eq_self.mpr fun e he => by simp [(h e he).connection]]

theorem bodyText_eq (body : Bytes) :
    bodyText body = (lengthFields body).flatMap fieldLine++([13,10]++body) := by
  rw [bodyText, lengthFields]
  split
  · next h => rw [h]; rfl
  · simp [show bytes "\r\n" = [13,10] from rfl]

theorem tchar_connection (close : Bool) :
    (connectionField close).1 ≠ [] ∧ (connectionField close).1.all isTchar ∧
      (connectionField close).2 ≠ [] ∧ (connectionField close).2.all isTchar := by
  cases close <;> decide

theorem tchar_length : bytes "content-length" ≠ [] ∧ (bytes "content-length").all isTchar := by
  decide

/-- A field that is printed holds bytes that the receiver takes. -/
theorem printed_facts (close : Bool) (body : Bytes) :
    ∀ e ∈ connectionField close :: lengthFields body,
      e.1 ≠ [] ∧ (∀ b ∈ e.1, isTchar b) ∧ e.2 ≠ [] ∧ ∀ b ∈ e.2, isTchar b := by
  intro e he
  rcases List.mem_cons.mp he with rfl | he
  · obtain ⟨hname,htchar,hvalue,htchar'⟩ := tchar_connection close
    exact ⟨hname,List.all_eq_true.mp htchar,hvalue,List.all_eq_true.mp htchar'⟩
  · rw [lengthFields] at he
    split at he
    · cases he
    · obtain rfl := List.mem_singleton.mp he
      obtain ⟨hne,hdigits,-⟩ := decimal_decimal body.length
      obtain ⟨hname,htchar⟩ := tchar_length
      refine ⟨hname,List.all_eq_true.mp htchar,hne,fun b hb => ?_⟩
      obtain ⟨hlow,hhigh⟩ := hdigits b hb
      simp [isTchar, inRanges, hlow, hhigh]

namespace MapType

/-- The entries are in order, no two keys equal but for their case. -/
def Sorted (m : MapType) : Prop := m.Pairwise fun d e => folded d.1 < folded e.1

instance (m : MapType) : Decidable m.Sorted := inferInstanceAs (Decidable (List.Pairwise _ _))

theorem less_iff {k l : Bytes} : caseInsensitiveLess k l = true ↔ folded k < folded l :=
  decide_eq_true_iff

theorem less_asymm {k l : Bytes} (h : folded k < folded l) : ¬folded l < folded k := fun h' =>
  List.lt_irrefl _ (List.lt_trans h h')

theorem lt_or_eq_or_gt (k l : Bytes) :
    folded k < folded l ∨ folded k = folded l ∨ folded l < folded k := by
  by_contra hno
  rw [not_or, not_or] at hno
  exact hno.2.1 (List.le_antisymm (List.not_lt.mp hno.2.2) (List.not_lt.mp hno.1))

section Set
variable {k : Bytes} {e : Bytes × Bytes} (v : Bytes) (m : MapType)

theorem set_cons_of_lt (h : folded k < folded e.1) : set k v (e :: m) = (k,v) :: e :: m := by
  rw [set, if_pos (less_iff.mpr h)]

theorem set_cons_of_gt (h : folded e.1 < folded k) : set k v (e :: m) = e :: set k v m := by
  rw [set, if_neg (less_asymm h ∘ less_iff.mp), if_pos (less_iff.mpr h)]

theorem set_cons_of_eq (h : folded e.1 = folded k) : set k v (e :: m) = (e.1,v) :: m := by
  rw [set, if_neg (by rw [less_iff, h]; exact List.lt_irrefl _),
    if_neg (by rw [less_iff, h]; exact List.lt_irrefl _)]

end Set

/-! ### What is found -/

theorem not_less_iff {k l : Bytes} :
    (!caseInsensitiveLess k l && !caseInsensitiveLess l k) = true ↔ folded l = folded k := by
  rw [Bool.and_eq_true, Bool.not_eq_true', Bool.not_eq_true', ← Bool.not_eq_true,
    ← Bool.not_eq_true, less_iff, less_iff]
  constructor
  · rintro ⟨hkl,hlk⟩
    rcases lt_or_eq_or_gt k l with hlt | heq | hgt
    · exact absurd hlt hkl
    · exact heq.symm
    · exact absurd hgt hlk
  · intro heq
    rw [heq]
    exact ⟨List.lt_irrefl _,List.lt_irrefl _⟩

theorem find_cons (e : Bytes × Bytes) (m : MapType) (l : Bytes) :
    find (e :: m) l = if folded e.1 = folded l then some e.2 else find m l := by
  rw [find, List.find?_cons]
  split
  · next h => rw [if_pos (not_less_iff.mp h)]; rfl
  · next h =>
    rw [if_neg fun heq => absurd (not_less_iff.mpr heq) (by rw [h]; decide)]
    rfl

/-- A key that was set is found, in any case of its letters, and other keys are found as before. -/
theorem find_set (k v l : Bytes) (m : MapType) :
    find (set k v m) l = if folded k = folded l then some v else find m l := by
  induction m with
  | nil => exact find_cons (k,v) [] l
  | cons e m ih =>
    rcases lt_or_eq_or_gt k e.1 with hlt | heq | hgt
    · rw [set_cons_of_lt v m hlt]
      exact find_cons (k,v) (e :: m) l
    · rw [set_cons_of_eq v m heq.symm, find_cons, find_cons, heq]
      split <;> rfl
    · have hne : folded e.1 ≠ folded k := fun heq => List.lt_irrefl _ (heq ▸ hgt)
      rw [set_cons_of_gt v m hgt, find_cons, find_cons, ih]
      split_ifs with he hk
      · exact absurd (he.trans hk.symm) hne
      · rfl
      · rfl
      · rfl

theorem find_eq_none {m : MapType} {l : Bytes} (h : ∀ e ∈ m, folded e.1 ≠ folded l) :
    find m l = none := by
  induction m with
  | nil => rfl
  | cons e m ih =>
    rw [find_cons, if_neg (h e List.mem_cons_self), ih fun e he => h e (List.mem_cons_of_mem _ he)]

/-! ### The order of settings -/

theorem set_comm_of_lt {k l : Bytes} (h : folded k < folded l) (v w : Bytes) (m : MapType) :
    set l w (set k v m) = set k v (set l w m) := by
  induction m with
  | nil => rw [set, set, set_cons_of_gt w _ h, set_cons_of_lt v _ h, set]
  | cons e m ih =>
    rcases lt_or_eq_or_gt k e.1 with hk | hk | hk
    · have hfirst (u : Bytes) (m : MapType) :
          set k v ((e.1,u) :: m) = (k,v) :: (e.1,u) :: m := set_cons_of_lt v m hk
      rw [set_cons_of_lt v m hk, set_cons_of_gt w _ h]
      rcases lt_or_eq_or_gt l e.1 with hl | hl | hl
      · rw [set_cons_of_lt w m hl, set_cons_of_lt v _ h]
      · rw [set_cons_of_eq w m hl.symm, hfirst]
      · rw [set_cons_of_gt w m hl, set_cons_of_lt v _ hk]
    · have hl : folded e.1 < folded l := hk ▸ h
      have hlast : set l w ((e.1,v) :: m) = (e.1,v) :: set l w m := set_cons_of_gt w m hl
      rw [set_cons_of_eq v m hk.symm, set_cons_of_gt w m hl, hlast, set_cons_of_eq v _ hk.symm]
    · have hl : folded e.1 < folded l := List.lt_trans hk h
      rw [set_cons_of_gt v m hk, set_cons_of_gt w m hl, set_cons_of_gt w _ hl,
        set_cons_of_gt v _ hk, ih]

/-- Different keys can be set in either order. -/
theorem set_comm {k l : Bytes} (h : folded k ≠ folded l) (v w : Bytes) (m : MapType) :
    set l w (set k v m) = set k v (set l w m) := by
  rcases lt_or_eq_or_gt k l with hlt | heq | hgt
  · exact set_comm_of_lt hlt v w m
  · exact absurd heq h
  · exact (set_comm_of_lt hgt w v m).symm

/-- An entry behind all others. -/
theorem set_last {m : MapType} {k : Bytes} (h : ∀ e ∈ m, folded e.1 < folded k) (v : Bytes) :
    set k v m = m++[(k,v)] := by
  induction m with
  | nil => rfl
  | cons e m ih =>
    rw [set_cons_of_gt v m (h e List.mem_cons_self),
      ih fun e he => h e (List.mem_cons_of_mem _ he)]
    rfl

/-- The entries of a map, set in their order behind those that are there. -/
theorem foldl_set_append {m l : MapType} (h : Sorted (m++l)) :
    l.foldl (fun m e => m.set e.1 e.2) m = m++l := by
  induction l generalizing m with
  | nil => simp
  | cons e l ih =>
    have hlast : ∀ d ∈ m, folded d.1 < folded e.1 := fun d hd =>
      (List.pairwise_append.mp h).2.2 d hd e List.mem_cons_self
    rw [List.foldl_cons, set_last hlast, ih (by simpa using h)]
    simp

theorem foldl_set_nil {l : MapType} (h : Sorted l) :
    l.foldl (fun (m : MapType) e => m.set e.1 e.2) [] = l := foldl_set_append (m := []) h

/-- A setting can be made first. -/
theorem foldl_set_set {k : Bytes} {l : MapType} (h : ∀ e ∈ l, folded k ≠ folded e.1) (v : Bytes)
    (m : MapType) :
    l.foldl (fun m e => m.set e.1 e.2) (m.set k v) =
      (l.foldl (fun m e => m.set e.1 e.2) m).set k v := by
  induction l generalizing m with
  | nil => rfl
  | cons e l ih =>
    rw [List.foldl_cons, List.foldl_cons, set_comm (h e List.mem_cons_self),
      ih fun e he => h e (List.mem_cons_of_mem _ he)]

/-- The headers as a response prints them. -/
theorem foldl_response {headers : MapType} (h : headers.Sorted) (close : Bool) (body : Bytes) :
    (headers++connectionField close :: lengthFields body).foldl
      (fun (m : MapType) e => m.set e.1 e.2) [] = sentHeaders close body headers := by
  rw [List.foldl_append, foldl_set_nil h, lengthFields, sentHeaders]
  split <;> rfl

/-- The headers as a request prints them. -/
theorem foldl_request {headers : MapType} (h : headers.Sorted)
    (hnames : ∀ e ∈ headers, IsFieldName e.1) (close : Bool) (body : Bytes) :
    (connectionField close :: headers++lengthFields body).foldl
      (fun (m : MapType) e => m.set e.1 e.2) [] = sentHeaders close body headers := by
  have hne : ∀ e ∈ headers, folded (connectionField close).1 ≠ folded e.1 := fun e he =>
    (hnames e he).connection.symm
  rw [List.foldl_append, List.foldl_cons, foldl_set_set hne, foldl_set_nil h, lengthFields,
    sentHeaders]
  split <;> rfl

section Sent
variable {headers : MapType} (close : Bool) (body : Bytes)

theorem find_connection : (sentHeaders close body headers).find (bytes "connection") =
    some (if close then bytes "close" else bytes "keep-alive") := by
  have hne : folded (bytes "content-length") ≠ folded (bytes "connection") := by decide
  simp only [sentHeaders]
  by_cases hbody : body = []
  · rw [if_pos hbody, find_set, if_pos rfl]
  · rw [if_neg hbody, find_set, if_neg hne, find_set, if_pos rfl]

theorem find_contentLength (hnames : ∀ e ∈ headers, IsFieldName e.1) :
    (sentHeaders close body headers).find (bytes "content-length") =
      if body = [] then none else some (decimal body.length) := by
  have hne : folded (bytes "connection") ≠ folded (bytes "content-length") := by decide
  simp only [sentHeaders]
  by_cases hbody : body = []
  · rw [if_pos hbody, if_pos hbody, find_set, if_neg hne]
    exact find_eq_none fun e he => (hnames e he).contentLength
  · rw [if_neg hbody, if_neg hbody, find_set, if_pos rfl]

end Sent
end MapType
end CoroutineWebserve.Http
