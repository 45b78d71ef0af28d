import CoroutineWebserve.Http.Split

/-!
# When the reads of a request do not matter

The request of several reads is compared with the one of a single call, callback by
callback: a part of the request is set by one callback at most.
-/
namespace CoroutineWebserve.Http

/-- The callbacks of one `execute` on all of `s`. -/
def calls (u : Uninit) (s : Bytes) : List Callback := ((HttpParser.init u).exec 0 s).2.2

/-- `s` is a complete head: one call of `execute` consumes it and finishes with `d`. -/
def Accepted (u : Uninit) (s : Bytes) (d : HttpRequest) : Prop :=
  ∃ q, (HttpRequestParser.new u).execute s = .ok (q,s.length,[]) ∧ ¬q.HasError ∧ q.IsFinished ∧
    q.data = d

/-- The headers that callbacks set. -/
def headersOf (s : Bytes) (calls : List Callback) : List (Bytes × Bytes) :=
  calls.filterMap fun
    | .httpField fieldStart fieldLen mark stop =>
      if fieldLen = 0 then none
      else some ((s.drop fieldStart).take fieldLen,slice s mark stop)
    | _ => none

/-- The map that a list of headers gives. -/
def headerMap (headers : List (Bytes × Bytes)) : MapType :=
  headers.foldl (fun m e => m.set e.1 e.2) []

/-- The cuts between the reads are harmless. -/
structure Harmless (u : Uninit) (s : Bytes) (pieces : List Bytes) : Prop where
  /-- No cut behind the first byte of the path, query or fragment and up to its end. -/
  whole : ∀ e first stop, .element e first stop ∈ calls u s →
    e = .requestPath ∨ e = .queryString ∨ e = .fragment → pieceStart pieces stop ≤ first
  /-- What the last cut leaves of the method still begins with the same method's name. -/
  method : ∀ first stop, .element .requestMethod first stop ∈ calls u s →
    charsToHttpMethod (slice s (max first (pieceStart pieces stop)) stop) =
      charsToHttpMethod (slice s first stop)
  /-- No cut in the version, or the last one at its end and the version is 1.1. -/
  version : ∀ first stop, .element .httpVersion first stop ∈ calls u s →
    pieceStart pieces stop ≤ first ∨
      pieceStart pieces stop = stop ∧ slice s first stop = bytes "HTTP/1.1"
  /-- The lines without what the cuts take from their names give the same map. -/
  headers : headerMap (headersOf s ((calls u s).map (Callback.kept (pieceStart pieces)))) =
    headerMap (headersOf s (calls u s))

/-! ### What the callbacks set -/

/-- What a request holds, as the update that has set it. -/
def Element.read (d : HttpRequest) : Element → Update
  | .requestMethod => .setMethod d.method
  | .requestPath => .setPath d.path
  | .queryString => .setQuery d.query
  | .requestUri => .none
  | .fragment => .setFragment d.fragment
  | .httpVersion => .setVersion d.version

/-- `u` is what a callback makes of `c`, and no error. -/
def Sets (s : Bytes) (c : Callback) (u : Update) : Prop :=
  callback s c = .ok u ∧ ∀ v, u ≠ .setError v

theorem update_error {r : HttpRequestParser} {u : Update} (h : ∀ v, u ≠ .setError v) :
    (r.update u).error = r.error := by
  cases u with
  | setError v => exact absurd rfl (h v)
  | _ => rfl

/-- Callbacks without an error. -/
theorem foldl_error {us : List Update} (hus : .setError 0 ∉ us) {r : HttpRequestParser} :
    (us.foldl HttpRequestParser.update r).error = 0 ↔
      r.error = 0 ∧ ∀ v, .setError v ∉ us := by
  induction us generalizing r with
  | nil => simp
  | cons u us ih =>
    rw [List.mem_cons, not_or] at hus
    rw [List.foldl_cons, ih hus.2]
    by_cases hu : ∃ v, u = .setError v
    · obtain ⟨v,rfl⟩ := hu
      have hv : v ≠ 0 := fun h0 => hus.1 (h0 ▸ rfl)
      have hr : (r.update (.setError v)).error = v := rfl
      simp only [hr, hv, false_and, false_iff, not_and, not_forall, not_not]
      exact fun _ => ⟨v,List.mem_cons_self⟩
    · have hne : ∀ v, u ≠ .setError v := fun v h => hu ⟨v,h⟩
      rw [update_error hne]
      simp only [List.mem_cons, not_or, forall_and]
      exact and_congr_right fun _ => ⟨fun h => ⟨fun v => (hne v).symm,h⟩,And.right⟩

/-- The part that an update sets. -/
def Update.element : Update → Option Element
  | .setMethod _ => some .requestMethod
  | .setPath _ => some .requestPath
  | .setQuery _ => some .queryString
  | .setFragment _ => some .fragment
  | .setVersion _ => some .httpVersion
  | .none | .setHeader .. | .setError _ => Option.none

theorem read_update {u : Update} {e : Element} (h : u.element = some e) (r : HttpRequestParser) :
    e.read (r.update u).data = u := by
  cases u <;> cases h <;> rfl

theorem read_update_of_ne {u : Update} {e : Element} (h : u.element ≠ some e)
    (r : HttpRequestParser) : e.read (r.update u).data = e.read r.data := by
  cases u <;> cases e <;> first | rfl | exact absurd rfl h

/-- The part that a callback sets is the one it is about. -/
theorem Sets.element {s : Bytes} {e : Element} {first stop : ℕ} {u : Update}
    (h : Sets s (.element e first stop) u) (he : e ≠ .requestUri) : u.element = some e := by
  obtain ⟨hc,hu⟩ := h
  cases e with
  | requestUri => exact absurd rfl he
  | requestMethod =>
    simp only [callback, onRequestMethod, Except.ok.injEq] at hc
    split at hc
    · exact absurd hc.symm (hu _)
    · exact hc ▸ rfl
  | httpVersion =>
    simp only [callback, onRequestVersion, Except.ok.injEq] at hc
    split_ifs at hc
    · exact hc ▸ rfl
    · exact hc ▸ rfl
    · exact absurd hc.symm (hu _)
  | requestPath | queryString | fragment =>
    simp only [callback, stdString] at hc
    split at hc
    · cases hc; rfl
    · cases hc

theorem Sets.element_eq {s : Bytes} {c : Callback} {u : Update} (h : Sets s c u) {e : Element}
    (hu : u.element = some e) : c.kind = some e := by
  cases c with
  | headerDone => cases h.1; cases hu
  | httpField =>
    have hc := h.1
    simp only [callback, onRequestHttpField, Except.ok.injEq] at hc
    split at hc <;> subst hc <;> cases hu
  | element e' first stop =>
    by_cases he : e' = .requestUri
    · subst he
      cases h.1
      cases hu
    · exact (h.element he).symm.trans hu

section foldl
variable {s : Bytes} {f : Callback → Callback} {calls : List Callback} {us : List Update}

/-- A part that no callback is about stays as it is. -/
theorem read_foldl_of_notMem (hf : ∀ c, (f c).kind = c.kind)
    (h : List.Forall₂ (fun c u => Sets s (f c) u) calls us) (r : HttpRequestParser) {e : Element}
    (he : e ∉ calls.filterMap Callback.kind) :
    e.read (us.foldl HttpRequestParser.update r).data = e.read r.data := by
  induction h generalizing r with
  | nil => rfl
  | @cons c u calls us hcu _ ih =>
    rw [List.mem_filterMap] at he ih
    rw [List.foldl_cons, ih _ fun ⟨c',hc',hk⟩ => he ⟨c',List.mem_cons_of_mem c hc',hk⟩]
    refine read_update_of_ne (fun hu => he ⟨c,List.mem_cons_self,?_⟩) r
    rw [← hf, hcu.element_eq hu]

/-- Callbacks about parts that all differ: the request holds what each has set. -/
theorem read_foldl_of_mem (hf : ∀ c, (f c).kind = c.kind)
    (h : List.Forall₂ (fun c u => Sets s (f c) u) calls us)
    (hnd : (calls.filterMap Callback.kind).Nodup) (r : HttpRequestParser) {e : Element}
    (he : e ≠ .requestUri) {c : Callback} (hc : c ∈ calls) (hk : c.kind = some e) :
    callback s (f c) = .ok (e.read (us.foldl HttpRequestParser.update r).data) := by
  induction h generalizing r with
  | nil => cases hc
  | @cons c' u calls us hcu htail ih =>
    rw [List.foldl_cons]
    rcases List.mem_cons.mp hc with rfl | hmem
    · rw [List.filterMap_cons_some hk, List.nodup_cons] at hnd
      rw [read_foldl_of_notMem hf htail _ hnd.1]
      have hfk : (f c).kind = some e := (hf c).trans hk
      cases hfc : f c with
      | element e' first stop =>
        rw [hfc] at hcu hfk
        obtain rfl : e' = e := Option.some.inj hfk
        rw [read_update (hcu.element he)]
        exact hcu.1
      | _ => rw [hfc] at hfk; cases hfk
    · refine ih ?_ _ hmem
      exact hnd.sublist ((List.sublist_cons_self ..).filterMap _)

/-- The headers are those of the lines in turn. -/
theorem headers_foldl (h : List.Forall₂ (fun c u => Sets s (f c) u) calls us)
    (r : HttpRequestParser) :
    (us.foldl HttpRequestParser.update r).data.headers =
      (headersOf s (calls.map f)).foldl (fun m e => m.set e.1 e.2) r.data.headers := by
  induction h generalizing r with
  | nil => rfl
  | @cons c u calls us hcu _ ih =>
    rw [List.foldl_cons, ih, List.map_cons]
    cases hfc : f c with
    | httpField fieldStart fieldLen mark stop =>
      have hc := hcu.1
      simp only [hfc, callback, onRequestHttpField, Except.ok.injEq] at hc
      subst hc
      by_cases hl : fieldLen = 0
      · simp [headersOf, hl, HttpRequestParser.update]
      · simp [headersOf, hl, HttpRequestParser.update, HttpRequest.setHeader, slice]
    | element e first stop =>
      have hkeep : (r.update u).data.headers = r.data.headers := by
        rw [hfc] at hcu
        by_cases he : e = .requestUri
        · subst he
          cases hcu.1
          rfl
        · have hu := hcu.element he
          cases u <;> first | rfl | cases hu
      rw [hkeep]
      simp [headersOf]
    | headerDone =>
      have hc := hcu.1
      rw [hfc] at hc
      cases hc
      simp [headersOf, HttpRequestParser.update]

end foldl

/-- Callbacks leave what is not part of a head as it is. -/
theorem frame_foldl (us : List Update) (r : HttpRequestParser) :
    (us.foldl HttpRequestParser.update r).data.close = r.data.close ∧
      (us.foldl HttpRequestParser.update r).data.body = r.data.body := by
  induction us generalizing r with
  | nil => exact ⟨rfl,rfl⟩
  | cons u us ih =>
    rw [List.foldl_cons, (ih _).1, (ih _).2]
    cases u <;> exact ⟨rfl,rfl⟩

theorem ext_read {d d' : HttpRequest} (h : ∀ e : Element, e.read d = e.read d')
    (hh : d.headers = d'.headers) (hc : d.close = d'.close) (hb : d.body = d'.body) : d = d' := by
  have h₁ : d.method = d'.method := Update.setMethod.inj (h .requestMethod)
  have h₂ : d.path = d'.path := Update.setPath.inj (h .requestPath)
  have h₃ : d.query = d'.query := Update.setQuery.inj (h .queryString)
  have h₄ : d.fragment = d'.fragment := Update.setFragment.inj (h .fragment)
  have h₅ : d.version = d'.version := Update.setVersion.inj (h .httpVersion)
  cases d
  cases d'
  simp_all

/-! ### What the cuts leave of a part -/

theorem pieceStart_le (pieces : List Bytes) (p : ℕ) : pieceStart pieces p ≤ p := by
  induction pieces generalizing p with
  | nil => exact Nat.zero_le p
  | cons piece pieces ih =>
    rw [pieceStart]
    split
    · exact Nat.zero_le p
    · have := ih (p-piece.length)
      omega

/-- Bytes between a byte and the start of its piece are in this piece. -/
theorem pieceStart_of_mem {pieces : List Bytes} {p q : ℕ} (hp : pieceStart pieces q ≤ p)
    (hpq : p ≤ q) : pieceStart pieces p = pieceStart pieces q := by
  induction pieces generalizing p q with
  | nil => rfl
  | cons piece pieces ih =>
    rw [pieceStart] at hp ⊢
    rw [pieceStart]
    split_ifs at hp ⊢ with hq hp'
    · rfl
    · omega
    · omega
    · rw [ih (p := p-piece.length) (q := q-piece.length) (by omega) (by omega)]

theorem strncmpEq_iff {m literal : Bytes} (h : m.length = literal.length) :
    strncmpEq m literal m.length = true ↔ m = literal := by
  induction m generalizing literal with
  | nil =>
    obtain rfl : literal = [] := List.length_eq_zero_iff.mp h.symm
    simp [strncmpEq]
  | cons b m ih =>
    cases literal with
    | nil => cases h
    | cons c literal =>
      simp only [List.length_cons, strncmpEq, Bool.and_eq_true, decide_eq_true_eq,
        List.cons.injEq, ih (Nat.succ.inj h)]

/-- A proper part of a version is none, but nothing at all is version 1.1. -/
theorem onRequestVersion_cut : ∀ m ∈ [bytes "HTTP/1.1",bytes "HTTP/1.0"], ∀ k ≤ 8, k ≠ 0 →
    onRequestVersion (m.drop k) (8-k) = if k = 8 then .setVersion 0x11 else .setError 1001 := by
  decide

theorem Callback.kept_kind (start : ℕ → ℕ) (c : Callback) : (c.kept start).kind = c.kind := by
  cases c with
  | element e first stop => cases e <;> rfl
  | _ => rfl

theorem slice_length {s : Bytes} {a z : ℕ} (h : z ≤ s.length) : (slice s a z).length = z-a := by
  simp only [slice, List.length_take, List.length_drop]
  omega

/-- A string determines where it starts. -/
theorem stdString_inj {s : Bytes} {a a' z : ℕ} (h : z ≤ s.length) (ha : a ≤ z) :
    stdString s a' z = stdString s a z ↔ a' = a := by
  refine ⟨fun he => ?_,fun he => he ▸ rfl⟩
  simp only [stdString, if_pos ha] at he
  split at he
  · have := congrArg List.length (Except.ok.inj he)
    rw [slice_length h, slice_length h] at this
    omega
  · cases he

theorem map_inj {α β ε : Type*} {f : α → β} (hf : f.Injective) {x y : Except ε α} :
    x.map f = y.map f ↔ x = y := by
  cases x <;> cases y <;> simp [Except.map, hf.eq_iff]

section kept
variable {s : Bytes} {pieces : List Bytes} {first stop : ℕ} {u : Update}

/-- A path, query or fragment is as it was only if no cut is in it. -/
theorem kept_whole_iff {e : Element} (hstop : stop ≤ s.length)
    (he : e = .requestPath ∨ e = .queryString ∨ e = .fragment)
    (hu : callback s (.element e first stop) = .ok u) :
    callback s (.kept (pieceStart pieces) (.element e first stop)) = .ok u ↔
      pieceStart pieces stop ≤ first := by
  have hb := pieceStart_le pieces stop
  have hle : first ≤ stop := by
    rcases he with rfl | rfl | rfl <;>
      simp only [callback, stdString] at hu <;> split at hu <;> first | assumption | cases hu
  have hquery : pieceStart pieces stop+(first-pieceStart pieces first) = first ↔
      pieceStart pieces stop ≤ first := by
    have hf := pieceStart_le pieces first
    refine ⟨fun h => by omega,fun h => ?_⟩
    rw [pieceStart_of_mem h hle]
    omega
  have hmax : max first (pieceStart pieces stop) = first ↔ pieceStart pieces stop ≤ first :=
    max_eq_left_iff
  rw [← hu]
  rcases he with rfl | rfl | rfl
  · simp only [Callback.kept, callback, map_inj fun _ _ => Update.setPath.inj,
      stdString_inj hstop hle, hmax]
  · simp only [Callback.kept, callback, map_inj fun _ _ => Update.setQuery.inj,
      stdString_inj hstop hle, hquery]
  · simp only [Callback.kept, callback, map_inj fun _ _ => Update.setFragment.inj,
      stdString_inj hstop hle, hmax]

theorem onRequestMethod_inj {m m' : Bytes} :
    onRequestMethod m = onRequestMethod m' ↔ charsToHttpMethod m = charsToHttpMethod m' := by
  refine ⟨fun h => ?_,fun h => by rw [onRequestMethod, onRequestMethod, h]⟩
  simp only [onRequestMethod] at h
  split at h <;> split at h <;> simp_all

/-- A method is as it was if what is left names the same one. -/
theorem kept_method_iff (hspace : s[stop]? = some 32) (hle : first ≤ stop)
    (hu : callback s (.element .requestMethod first stop) = .ok u) :
    callback s (.kept (pieceStart pieces) (.element .requestMethod first stop)) = .ok u ↔
      charsToHttpMethod (slice s (max first (pieceStart pieces stop)) stop) =
        charsToHttpMethod (slice s first stop) := by
  have hmax : max first (pieceStart pieces stop) ≤ stop := max_le hle (pieceStart_le ..)
  rw [← hu]
  simp only [Callback.kept, callback, Except.ok.injEq, onRequestMethod_inj]
  rw [charsToHttpMethod_drop hmax hspace, charsToHttpMethod_drop hle hspace]

theorem version_of_sets (hstop : stop < s.length) (hlen : stop = first+8)
    (hu : Sets s (.element .httpVersion first stop) u) :
    slice s first stop = bytes "HTTP/1.1" ∧ u = .setVersion 0x11 ∨
      slice s first stop = bytes "HTTP/1.0" ∧ u = .setVersion 0x10 := by
  obtain ⟨hu,hne⟩ := hu
  have h8 : (slice s first stop).length = 8 := by rw [slice_length hstop.le]; omega
  have hiff : ∀ literal : Bytes, literal.length = 8 →
      (strncmpEq (slice s first stop) literal 8 = true ↔ slice s first stop = literal) := by
    intro literal hl
    rw [← strncmpEq_iff (h8.trans hl.symm), h8]
  simp only [callback, onRequestVersion_drop, Except.ok.injEq] at hu
  rw [show stop-first = 8 by omega, onRequestVersion] at hu
  split_ifs at hu with h₁ h₂
  · exact .inl ⟨(hiff _ (by decide)).mp h₁,hu.symm⟩
  · exact .inr ⟨(hiff _ (by decide)).mp h₂,hu.symm⟩
  · exact absurd hu.symm (hne 1001)

/-- A version is as it was without a cut in it, or if it is 1.1 and nothing is left of it. -/
theorem kept_version_iff (hstop : stop < s.length) (hlen : stop = first+8)
    (hu : Sets s (.element .httpVersion first stop) u) :
    callback s (.kept (pieceStart pieces) (.element .httpVersion first stop)) = .ok u ↔
      pieceStart pieces stop ≤ first ∨
        pieceStart pieces stop = stop ∧ slice s first stop = bytes "HTTP/1.1" := by
  have hb := pieceStart_le pieces stop
  have ht := version_of_sets hstop hlen hu
  simp only [Callback.kept, callback, onRequestVersion_drop, Except.ok.injEq]
  by_cases hcut : pieceStart pieces stop ≤ first
  · have hu := hu.1
    simp only [callback, onRequestVersion_drop, Except.ok.injEq] at hu
    simp [hcut, hu]
  · obtain ⟨k,hk⟩ := Nat.exists_eq_add_of_lt (not_le.mp hcut)
    have hdrop : slice s (first+k+1) stop = (slice s first stop).drop (k+1) := by
      simp only [slice, List.drop_take, List.drop_drop]
      rw [show first+(k+1) = first+k+1 by omega, show stop-first-(k+1) = stop-(first+k+1) by omega]
    have hmem : slice s first stop ∈ [bytes "HTTP/1.1",bytes "HTTP/1.0"] := by
      rcases ht with ⟨h,-⟩ | ⟨h,-⟩ <;> simp [h]
    have hpart := onRequestVersion_cut _ hmem (k+1) (by omega) (Nat.succ_ne_zero k)
    have hno : ¬first+k+1 ≤ first := by omega
    have hend : first+k+1 = stop ↔ k+1 = 8 := by omega
    rw [max_eq_right (by omega), hk, hdrop, show stop-(first+k+1) = 8-(k+1) by omega, hpart]
    simp only [hno, false_or, hend]
    rcases ht with ⟨ht,rfl⟩ | ⟨ht,rfl⟩
    · by_cases h8 : k+1 = 8 <;> simp [h8, ht]
    · have hne : bytes "HTTP/1.0" ≠ bytes "HTTP/1.1" := by decide
      by_cases h8 : k+1 = 8 <;> simp [h8, ht, hne]

end kept
/-! ### One call and several reads -/

theorem exists_forall₂ {α β : Type*} {R : α → β → Prop} {l : List α}
    (h : ∀ a ∈ l, ∃ b, R a b) : ∃ us, List.Forall₂ R l us := by
  induction l with
  | nil => exact ⟨[],.nil⟩
  | cons a l ih =>
    obtain ⟨b,hb⟩ := h a List.mem_cons_self
    obtain ⟨us,hus⟩ := ih fun x hx => h x (List.mem_cons_of_mem a hx)
    exact ⟨b :: us,.cons hb hus⟩

theorem sets_of_error {s : Bytes} {f : Callback → Callback} {calls : List Callback}
    {us : List Update} (h : List.Forall₂ (fun c u => callback s (f c) = .ok u) calls us)
    {r : HttpRequestParser} (he : (us.foldl HttpRequestParser.update r).error = 0) :
    List.Forall₂ (fun c u => Sets s (f c) u) calls us := by
  have hno := ((foldl_error (setError_notMem h)).mp he).2
  clear he
  induction h with
  | nil => exact .nil
  | @cons c u calls us hu _ ih =>
    refine .cons ⟨hu,fun v hv => hno v (hv ▸ List.mem_cons_self)⟩ ?_
    exact ih fun v hv => hno v (List.mem_cons_of_mem u hv)

theorem error_of_sets {s : Bytes} {f : Callback → Callback} {calls : List Callback}
    {us : List Update} (h : List.Forall₂ (fun c u => Sets s (f c) u) calls us)
    (r : HttpRequestParser) : (us.foldl HttpRequestParser.update r).error = r.error := by
  induction h generalizing r with
  | nil => rfl
  | cons hu _ ih => exact (ih _).trans (update_error hu.2)

theorem calls_nodup (u : Uninit) (s : Bytes) :
    ((calls u s).filterMap Callback.kind).Nodup := by
  have hsub := (List.sublist_append_left ..).trans (((HttpParser.init u).exec_pending 0 s))
  exact hsub.nodup (show State.start.pending.Nodup by decide)

theorem calls_fit (u : Uninit) (s : Bytes) :
    ∀ c ∈ calls u s, (c.kept fun _ => 0).Fits s 0 s.length := by
  have h : InStep (fun _ => 0) 0 0 (.of (HttpParser.init u).cs) (.init u) (.init u) :=
    InStep.refl (fun _ => 0) 0 le_rfl le_rfl
  exact (h.exec s (fun _ _ _ => rfl) le_rfl (Nat.zero_add _).le
    (fun i _ => by rw [Nat.zero_add])).2.2.2

theorem calls_version (u : Uninit) (s : Bytes) :
    ∀ first stop, .element .httpVersion first stop ∈ calls u s →
      stop = first+8 ∧ HttpParser.VersionAt s first 8 := by
  have hstart : ∀ n, (HttpParser.init u).cs = .version n → (HttpParser.init u).mark+n = 0 ∧
      HttpParser.VersionAt s (HttpParser.init u).mark n := fun n hn => by cases hn
  exact HttpParser.exec_version hstart s rfl

/-- What the one call has done. -/
structure OneCall (u : Uninit) (s : Bytes) (d : HttpRequest) (us : List Update) : Prop where
  consumed : ((HttpParser.init u).exec 0 s).2.1 = s.length
  final : ((HttpParser.init u).exec 0 s).1.cs.Final
  sets : List.Forall₂ (fun c v => Sets s (id c) v) (calls u s) us
  data : (us.foldl HttpRequestParser.update (.new u)).data = d

theorem Accepted.oneCall {u : Uninit} {s : Bytes} {d : HttpRequest} (h : Accepted u s d) :
    ∃ us, OneCall u s d us := by
  obtain ⟨q,hq,he,hf,rfl⟩ := h
  have hs : s ≠ [] := by
    rintro rfl
    cases hq
    exact hf
  have hexec : (HttpRequestParser.new u).parser.execute s = (HttpParser.init u).exec 0 s := by
    rw [HttpParser.execute, if_neg hs]
    rfl
  obtain ⟨us,hus,hx⟩ := HttpRequestParser.execute_eq_ok.mp hq
  rw [hexec] at hus hx
  obtain ⟨rfl,hlen,-⟩ : _ ∧ _ ∧ _ := by simpa only [Prod.mk.injEq] using hx
  exact ⟨us,hlen.symm,hf,sets_of_error (f := id) hus (not_not.mp fun h0 => he (.inl h0)),rfl⟩

namespace OneCall
variable {u : Uninit} {s : Bytes} {d : HttpRequest} {us : List Update} {pieces : List Bytes}

theorem callback_eq (h : OneCall u s d us) {e : Element} (he : e ≠ .requestUri) {first stop : ℕ}
    (hc : .element e first stop ∈ calls u s) :
    Sets s (.element e first stop) (e.read d) := by
  have hread := read_foldl_of_mem (fun _ => rfl) h.sets (calls_nodup u s) (.new u) he hc rfl
  rw [h.data] at hread
  exact ⟨hread,by cases e <;> nofun⟩

/-- The cuts are harmless for every part exactly when it is set to what it was. -/
theorem harmless_iff (h : OneCall u s d us) :
    Harmless u s pieces ↔
      (∀ e first stop, .element e first stop ∈ calls u s → e ≠ .requestUri →
        callback s (.kept (pieceStart pieces) (.element e first stop)) = .ok (e.read d)) ∧
      headerMap (headersOf s ((calls u s).map (Callback.kept (pieceStart pieces)))) =
        headerMap (headersOf s (calls u s)) := by
  have hlt : ∀ e first stop, .element e first stop ∈ calls u s → stop < s.length := by
    intro e first stop hc
    have hfit := calls_fit u s _ hc
    cases e with
    | queryString => exact hfit.2.2
    | requestMethod => exact hfit.2.2.1
    | _ => exact hfit.2.2
  have hmethod : ∀ first stop, .element .requestMethod first stop ∈ calls u s →
      first ≤ stop ∧ s[stop]? = some 32 := by
    intro first stop hc
    have hfit := calls_fit u s _ hc
    exact ⟨(le_max_left ..).trans hfit.2.1,hfit.2.2.2⟩
  have hversion : ∀ first stop, .element .httpVersion first stop ∈ calls u s →
      stop = first+8 := fun first stop hc => (calls_version u s first stop hc).1
  constructor
  · rintro ⟨hw,hm,hv,hh⟩
    refine ⟨fun e first stop hc he => ?_,hh⟩
    have hset := h.callback_eq he hc
    cases e with
    | requestUri => exact absurd rfl he
    | requestMethod =>
      obtain ⟨hle,hspace⟩ := hmethod first stop hc
      exact (kept_method_iff hspace hle hset.1).mpr (hm first stop hc)
    | httpVersion =>
      exact (kept_version_iff (hlt _ _ _ hc) (hversion first stop hc) hset).mpr (hv first stop hc)
    | requestPath | queryString | fragment =>
      exact (kept_whole_iff (hlt _ _ _ hc).le (by simp) hset.1).mpr (hw _ first stop hc (by simp))
  · rintro ⟨hall,hh⟩
    refine ⟨fun e first stop hc he => ?_,fun first stop hc => ?_,fun first stop hc => ?_,hh⟩
    · have hne : e ≠ .requestUri := by rintro rfl; simp at he
      exact (kept_whole_iff (hlt _ _ _ hc).le he (h.callback_eq hne hc).1).mp
        (hall e first stop hc hne)
    · obtain ⟨hle,hspace⟩ := hmethod first stop hc
      have hne : Element.requestMethod ≠ .requestUri := nofun
      exact (kept_method_iff hspace hle (h.callback_eq hne hc).1).mp (hall _ first stop hc hne)
    · have hne : Element.httpVersion ≠ .requestUri := nofun
      exact (kept_version_iff (hlt _ _ _ hc) (hversion first stop hc) (h.callback_eq hne hc)).mp
        (hall _ first stop hc hne)

/-- Every callback sets something, if the parts are set to what they were. -/
theorem exists_sets (hall : ∀ e first stop, .element e first stop ∈ calls u s →
      e ≠ .requestUri →
      callback s (.kept (pieceStart pieces) (.element e first stop)) = .ok (e.read d))
    {c : Callback} (hc : c ∈ calls u s) :
    ∃ v, Sets s (c.kept (pieceStart pieces)) v := by
  cases c with
  | headerDone => exact ⟨.none,rfl,by simp⟩
  | httpField =>
    refine ⟨_,rfl,fun v => ?_⟩
    simp only [onRequestHttpField]
    split <;> simp
  | element e first stop =>
    by_cases he : e = .requestUri
    · exact he ▸ ⟨.none,rfl,by simp⟩
    · exact ⟨e.read d,hall e first stop hc he,by cases e <;> simp [Element.read]⟩

/-- The request is that of the one call, if the parts and the map are. -/
theorem data_eq (h : OneCall u s d us)
    (hall : ∀ e first stop, .element e first stop ∈ calls u s → e ≠ .requestUri →
      callback s (.kept (pieceStart pieces) (.element e first stop)) = .ok (e.read d))
    (hh : headerMap (headersOf s ((calls u s).map (Callback.kept (pieceStart pieces)))) =
      headerMap (headersOf s (calls u s))) {us' : List Update}
    (hsets : List.Forall₂ (fun c v => Sets s (c.kept (pieceStart pieces)) v) (calls u s) us') :
    (us'.foldl HttpRequestParser.update (.new u)).data = d := by
  have hkind := Callback.kept_kind (pieceStart pieces)
  rw [← h.data]
  refine ext_read (fun e => ?_) ?_ ?_ ?_
  · by_cases he : e = .requestUri
    · subst he
      rfl
    by_cases hmem : e ∈ (calls u s).filterMap Callback.kind
    · obtain ⟨c,hc,hk⟩ := List.mem_filterMap.mp hmem
      have hread := read_foldl_of_mem hkind hsets (calls_nodup u s) (.new u) he hc hk
      cases c with
      | element e' first stop =>
        cases hk
        rw [hall e first stop hc he, Except.ok.injEq] at hread
        rw [← hread, h.data]
      | _ => cases hk
    · rw [read_foldl_of_notMem hkind hsets _ hmem,
        read_foldl_of_notMem (fun _ => rfl) h.sets _ hmem]
  · rw [headers_foldl hsets, headers_foldl h.sets, List.map_id]
    exact hh
  · rw [(frame_foldl ..).1, (frame_foldl ..).1]
  · rw [(frame_foldl ..).2, (frame_foldl ..).2]

end OneCall

/-- A head is received as in one call exactly when the cuts between its reads are harmless. -/
theorem recvHead_eq_execute_iff {buffSize : ℕ} {u : Uninit} {s : Bytes} {d : HttpRequest}
    (hs : Accepted u s d) {pieces : List Bytes}
    (hpieces : ∀ piece ∈ pieces, Deliverable buffSize piece) (hcut : pieces.flatten = s) :
    (∃ q, HttpSession.recvHead buffSize (.new u) [] pieces = .ok (some (q,[]),[]) ∧ q.data = d) ↔
      int buffSize ≠ 0 ∧ Harmless u s pieces := by
  obtain ⟨us,h⟩ := hs.oneCall
  rw [h.harmless_iff]
  have hne : pieces ≠ [] := by
    rintro rfl
    have hfin := h.final
    rw [← hcut] at hfin
    exact hfin
  have hstart : ∀ p < pieces.flatten.length,
      pieceStart pieces (([] : Bytes).length+p) = ([] : Bytes).length+pieceStart pieces p := by
    simp
  have hrun := fun hbuf => HttpSession.recvHead_iff hbuf hpieces hne
    (show s = []++pieces.flatten from hcut.symm) hstart
    (InStep.refl (pieceStart pieces) 0 (P := (HttpRequestParser.new u).parser) le_rfl le_rfl)
    (show ¬State.start.Final by decide)
    (by rw [hcut]; simpa using h.consumed) (by rw [hcut]; exact h.final) d
  rw [hcut] at hrun
  constructor
  · rintro ⟨q,hq,hd⟩
    have hbuf := fun h0 => HttpSession.left_ne_of_recvHead hq (Eq.symm h0)
    obtain ⟨us',hus',herr,hdata⟩ := (hrun hbuf).mp ⟨q,hq,hd⟩
    have hsets := sets_of_error hus' herr
    refine ⟨hbuf,fun e first stop hc he => ?_,?_⟩
    · have hread := read_foldl_of_mem (Callback.kept_kind _) hsets (calls_nodup u s) (.new u) he
        hc rfl
      rwa [hdata] at hread
    · have h₁ := headers_foldl hsets (.new u)
      have h₂ := headers_foldl h.sets (.new u)
      rw [hdata] at h₁
      rw [h.data, List.map_id] at h₂
      exact h₁.symm.trans h₂
  · rintro ⟨hbuf,hall,hh⟩
    obtain ⟨us',hsets⟩ := exists_forall₂ fun c hc => OneCall.exists_sets hall hc
    exact (hrun hbuf).mpr ⟨us',hsets.imp fun _ _ hv => hv.1,error_of_sets hsets _,
      h.data_eq hall hh hsets⟩

/-- A request without headers. -/
def plainRequest : Bytes := bytes "GET / HTTP/1.1\r\n\r\n"

theorem plainRequest_accepted : Accepted ⟨0,false⟩ plainRequest .new :=
  ⟨⟨⟨.requestDone,18,0,6,16,0,0,false,false,false⟩,0,.new⟩,by decide +kernel,by decide,by decide,rfl⟩

/-- A cut between the two lines. -/
theorem recvHead_eq_execute_iff_plain :
    (∃ q, HttpSession.recvHead 4096 (.new ⟨0,false⟩) []
        [plainRequest.take 16,plainRequest.drop 16] = .ok (some (q,[]),[]) ∧ q.data = .new) ↔
      int 4096 ≠ 0 ∧ Harmless ⟨0,false⟩ plainRequest [plainRequest.take 16,plainRequest.drop 16] :=
  recvHead_eq_execute_iff plainRequest_accepted
    (by decide) (by decide)

/-- A cut in the method: the parser is left with the method `T`. -/
theorem recvHead_of_cut_method : ¬∀ (u : Uninit) (s : Bytes) (d : HttpRequest)
    (pieces : List Bytes), Accepted u s d → (∀ piece ∈ pieces, Deliverable 4096 piece) →
    pieces.flatten = s →
    ∃ q, HttpSession.recvHead 4096 (.new u) [] pieces = .ok (some (q,[]),[]) ∧ q.data = d := by
  intro h
  obtain ⟨q,hq,-⟩ := h ⟨0,false⟩ plainRequest .new [plainRequest.take 2,plainRequest.drop 2]
    plainRequest_accepted (by decide) (by decide)
  have hnone : HttpSession.recvHead 4096 (.new ⟨0,false⟩) []
      [plainRequest.take 2,plainRequest.drop 2] = .ok (none,[]) := by decide +kernel
  rw [hnone] at hq
  cases hq

end CoroutineWebserve.Http
