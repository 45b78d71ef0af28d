import CoroutineWebserve.Http.Independence
import CoroutineWebserve.Http.RoundTrip
import Mathlib.Data.List.TakeWhile

/-!
# The method of a request

`CharsToHttpMethod` searches the table for a name that the buffer starts with, and never
looks at the length of the token. A token that is no method is taken for one exactly when a
name of the table is a beginning of it.
-/
namespace CoroutineWebserve.Http
open Ragel

/-! ### The two searches -/

theorem methodByte_ne_zero (b : UInt8) : isMethodByte b = true → b ≠ 0 := by
  revert b
  exact forall_byte (by decide +kernel)

theorem cStr_of_methodBytes {m : Bytes} (hm : ∀ b ∈ m, isMethodByte b) : cStr m = m := by
  rw [cStr, List.takeWhile_eq_self_iff]
  exact fun b hb => decide_eq_true (methodByte_ne_zero b (hm b hb))

/-- The prefix search finds every name of the table: none is a beginning of another. -/
theorem charsToHttpMethod_name : ∀ e ∈ httpMethodMap, charsToHttpMethod e.2 = e.1 := by decide

theorem ne_invalid_of_mem : ∀ e ∈ httpMethodMap, e.1 ≠ .INVALID_METHOD := by decide

theorem charsToHttpMethod_eq_invalid (m : Bytes) :
    charsToHttpMethod m = .INVALID_METHOD ↔ ∀ e ∈ httpMethodMap, ¬e.2 <+: m := by
  rw [charsToHttpMethod]
  cases hfind : httpMethodMap.find? (·.2.isPrefixOf m) with
  | none => simpa using hfind
  | some e =>
    have hmem := List.mem_of_find?_eq_some hfind
    have hstarts := List.find?_some hfind
    rw [List.isPrefixOf_iff_prefix] at hstarts
    simp only [ne_invalid_of_mem e hmem, false_iff, not_forall, not_not]
    exact ⟨e,hmem,hstarts⟩

/-- On a name of the table the two searches agree. -/
theorem charsToHttpMethod_eq {m : Bytes} (hm : ∀ b ∈ m, isMethodByte b)
    (h : stringToHttpMethod m ≠ .INVALID_METHOD) :
    charsToHttpMethod m = stringToHttpMethod m := by
  rw [stringToHttpMethod, cStr_of_methodBytes hm] at h ⊢
  cases hfind : httpMethodMap.find? (·.2 = m) with
  | none => exact absurd (by rw [hfind]) h
  | some e =>
    have hname := List.find?_some hfind
    rw [decide_eq_true_eq] at hname
    exact hname ▸ charsToHttpMethod_name e (List.mem_of_find?_eq_some hfind)

/-! ### Callbacks of one call -/

namespace HttpParser

theorem runActions_query (parser : HttpParser) {next : State} {actions : List Action} {k : Known}
    {p : ℕ} (hs : k.Serves next actions) (h : k.query → parser.queryStart ≤ p) :
    (∀ first stop, .element .queryString first stop ∈ (parser.runActions p actions).2 →
      first ≤ stop) ∧
      ((Known.of next).query → (parser.runActions p actions).1.queryStart ≤ p) := by
  induction actions generalizing k parser with
  | nil => exact ⟨by simp [runActions],fun hq => h (hs.1 hq)⟩
  | cons a actions ih =>
    have hhere : ∀ first stop, .element .queryString first stop ∈ (parser.runAction p a).2 →
        first ≤ stop := by
      intro first stop hc
      cases a with
      | queryString =>
        simp only [runAction, List.mem_singleton, Callback.element.injEq, true_and] at hc
        obtain ⟨rfl,rfl⟩ := hc
        exact h hs.1
      | done =>
        simp only [runAction] at hc
        split at hc <;> simp at hc
      | _ => simp [runAction] at hc
    have hnext : (k.after a).query → (parser.runAction p a).1.queryStart ≤ p := by
      intro hq
      cases a with
      | startQuery => exact le_rfl
      | done =>
        simp only [runAction]
        split <;> exact h hq
      | _ => exact h hq
    obtain ⟨hcalls,hlast⟩ := ih _ hs.2 hnext
    refine ⟨fun first stop hc => ?_,hlast⟩
    exact (List.mem_append.mp hc).elim (hhere first stop) (hcalls first stop)

/-- In one call a query starts before it stops. -/
theorem exec_query {parser : HttpParser} {p : ℕ}
    (h : (Known.of parser.cs).query → parser.queryStart ≤ p) (bs : Bytes) :
    ∀ first stop, .element .queryString first stop ∈ (parser.exec p bs).2.2 → first ≤ stop := by
  induction bs generalizing parser p with
  | nil => simp [exec]
  | cons b bs ih =>
    have ht := step_transition parser.uriRelaxed parser.cs b
    simp only [exec]
    generalize step parser.uriRelaxed parser.cs b = t at ht
    obtain ⟨next,actions⟩ := t
    dsimp only at ht ⊢
    obtain ⟨hhere,hnext⟩ := runActions_query { parser with cs := next } ht.serves h
    split
    · simp
    split
    · exact hhere
    · have hrest : (Known.of (parser.enter p next actions).1.cs).query →
          (parser.enter p next actions).1.queryStart ≤ p+1 := by
        rw [enter_cs]
        exact fun hq => (hnext hq).trans (Nat.le_succ p)
      intro first stop hc
      exact (List.mem_append.mp hc).elim (hhere first stop) (ih hrest first stop)

end HttpParser

/-- The two versions of the grammar are the two of `on_request_version`. -/
theorem onRequestVersion_of_versionAt {s : Bytes} {first : ℕ} (h : HttpParser.VersionAt s first 8)
    (v : ℕ) : onRequestVersion (s.drop first) 8 ≠ .setError v := by
  obtain ⟨last,hlast,hdigit⟩ := h 7 (by decide)
  have htext : (s.drop first).take 8 = bytes "HTTP/1."++[last] := by
    refine List.ext_getElem? fun i => ?_
    by_cases hi : i < 8
    · obtain ⟨b,hb,hv⟩ := h i hi
      rw [List.getElem?_take_of_lt hi, List.getElem?_drop, hb]
      by_cases h7 : i = 7
      · subst h7
        rw [hlast] at hb
        cases hb
        rfl
      · rw [isVersionByte, if_neg h7] at hv
        rw [List.getElem?_append_left (show i < 7 by omega)]
        exact (of_decide_eq_true hv).symm
    · rw [List.getElem?_take_eq_none (by omega), List.getElem?_eq_none]
      exact Nat.le_of_not_lt hi
  have hcases : last = 48 ∨ last = 49 := by simpa [isVersionByte] using hdigit
  rw [onRequestVersion, ← strncmpEq_take, ← strncmpEq_take _ (bytes "HTTP/1.0"), htext]
  rcases hcases with rfl | rfl
  · exact fun hu => by cases hu
  · exact fun hu => by cases hu

/-- In one call every callback but that of the method sets something. -/
theorem exists_sets_of_calls {u : Uninit} {s : Bytes} {c : Callback} (hc : c ∈ calls u s)
    (hmethod : c.kind ≠ some .requestMethod) : ∃ v, Sets s c v := by
  have hfit := calls_fit u s c hc
  cases c with
  | headerDone => exact ⟨.none,rfl,by simp⟩
  | httpField =>
    refine ⟨_,rfl,fun v => ?_⟩
    simp only [onRequestHttpField]
    split <;> simp
  | element e first stop =>
    have hstring : first ≤ stop → stdString s first stop = .ok (slice s first stop) :=
      fun hle => if_pos hle
    cases e with
    | requestMethod => exact absurd rfl hmethod
    | requestUri => exact ⟨.none,rfl,by simp⟩
    | requestPath =>
      have hle : first ≤ stop := (le_max_left ..).trans hfit.2.1
      exact ⟨.setPath (slice s first stop),by rw [callback, hstring hle]; rfl,by simp⟩
    | fragment =>
      have hle : first ≤ stop := (le_max_left ..).trans hfit.2.1
      exact ⟨.setFragment (slice s first stop),by rw [callback, hstring hle]; rfl,by simp⟩
    | queryString =>
      have hnone : (Known.of (HttpParser.init u).cs).query → (HttpParser.init u).queryStart ≤ 0 :=
        fun hq => by cases hq
      have hle := HttpParser.exec_query hnone s first stop hc
      exact ⟨.setQuery (slice s first stop),by rw [callback, hstring hle]; rfl,by simp⟩
    | httpVersion =>
      obtain ⟨rfl,hread⟩ := calls_version u s first stop hc
      refine ⟨_,rfl,fun v => ?_⟩
      rw [Nat.add_sub_cancel_left]
      exact onRequestVersion_of_versionAt hread v

/-- A head that begins with a method: its callback is the first, and the only one about it. -/
theorem calls_of_method (u : Uninit) {m : Bytes} (hne : m ≠ []) (hm : ∀ b ∈ m, isMethodByte b)
    (hlen : m.length ≤ 20) (rest : Bytes) :
    ∃ more, calls u (m++32 :: rest) = .element .requestMethod 0 m.length :: more ∧
      .requestMethod ∉ more.filterMap Callback.kind := by
  have hread := HttpParser.reads_method u hne hm hlen rest
  rw [← HttpParser.exec_eq_run, List.append_assoc, List.singleton_append] at hread
  refine ⟨_,congrArg (fun x => x.2.2) hread,?_⟩
  have hnodup := calls_nodup u (m++32 :: rest)
  rw [calls, hread] at hnodup
  exact (List.nodup_cons.mp hnodup).1

/-! ### The method that is reported -/

/-- The token is recognised: there is an error exactly when it names no method, and otherwise
the request has that method. -/
structure Recognises (r : HttpRequestParser) (m : Bytes) : Prop where
  error : r.error ≠ 1000 ↔ stringToHttpMethod m ≠ .INVALID_METHOD
  getMethod : stringToHttpMethod m ≠ .INVALID_METHOD → r.data.method = stringToHttpMethod m

theorem onRequestMethod_of_invalid {m : Bytes} (h : charsToHttpMethod m = .INVALID_METHOD) :
    onRequestMethod m = .setError 1000 := by rw [onRequestMethod, h]

theorem onRequestMethod_of_valid {m : Bytes} (h : charsToHttpMethod m ≠ .INVALID_METHOD) :
    onRequestMethod m = .setMethod (charsToHttpMethod m) := by
  rw [onRequestMethod]
  split
  · next hm => exact absurd hm h
  · rfl

/-- One call on a head with the method `m` does what the prefix search says of `m`. -/
theorem execute_method (u : Uninit) {m : Bytes} (hne : m ≠ []) (hm : ∀ b ∈ m, isMethodByte b)
    (hlen : m.length ≤ 20) (rest : Bytes) :
    ∃ r n left, (HttpRequestParser.new u).execute (m++32 :: rest) = .ok (r,n,left) ∧
      r.error = (if charsToHttpMethod m = .INVALID_METHOD then 1000 else 0) ∧
      (charsToHttpMethod m ≠ .INVALID_METHOD → r.data.method = charsToHttpMethod m) := by
  obtain ⟨more,hcalls,hother⟩ := calls_of_method u hne hm hlen rest
  have hexec : (HttpRequestParser.new u).parser.execute (m++32 :: rest) =
      (HttpParser.init u).exec 0 (m++32 :: rest) := by
    rw [HttpParser.execute, if_neg (by simp)]
    rfl
  have hmethod : callback (m++32 :: rest) (.element .requestMethod 0 m.length) =
      .ok (onRequestMethod m) := by
    rw [callback, List.drop_zero, onRequestMethod, charsToHttpMethod_append]
    rfl
  obtain ⟨us,hus⟩ := exists_forall₂ fun c hc => exists_sets_of_calls
    (show c ∈ calls u (m++32 :: rest) from hcalls ▸ List.mem_cons_of_mem _ hc)
    fun hk => hother (List.mem_filterMap.mpr ⟨c,hc,hk⟩)
  have hall : List.Forall₂ (fun c v => callback (m++32 :: rest) c = .ok v)
      ((HttpRequestParser.new u).parser.execute (m++32 :: rest)).2.2 (onRequestMethod m :: us) := by
    rw [hexec]
    show List.Forall₂ _ (calls u _) _
    rw [hcalls]
    exact .cons hmethod (hus.imp fun _ _ hv => hv.1)
  refine ⟨_,_,_,HttpRequestParser.execute_eq_ok.mpr ⟨_,hall,rfl⟩,?_,fun hvalid => ?_⟩
  · refine (error_of_sets (f := id) hus _).trans ?_
    split
    · next h => rw [onRequestMethod_of_invalid h, HttpRequestParser.update]
    · next h => rw [onRequestMethod_of_valid h, HttpRequestParser.update, HttpRequestParser.new]
  · have hread := read_foldl_of_notMem (f := id) (fun _ => rfl) hus
      ((HttpRequestParser.new u).update (onRequestMethod m)) hother
    rw [onRequestMethod_of_valid hvalid] at hread ⊢
    exact Update.setMethod.inj hread

/-- The token is recognised exactly if it is a method, or begins with none. -/
theorem recognises_iff (u : Uninit) {m : Bytes} (hne : m ≠ []) (hm : ∀ b ∈ m, isMethodByte b)
    (hlen : m.length ≤ 20) (rest : Bytes) :
    (∃ r n left, (HttpRequestParser.new u).execute (m++32 :: rest) = .ok (r,n,left) ∧
        Recognises r m) ↔
      stringToHttpMethod m ≠ .INVALID_METHOD ∨ ∀ e ∈ httpMethodMap, ¬e.2 <+: m := by
  obtain ⟨r,n,left,hr,herror,hmethod⟩ := execute_method u hne hm hlen rest
  rw [hr, ← charsToHttpMethod_eq_invalid]
  constructor
  · rintro ⟨_,_,_,⟨⟩,hrec⟩
    by_cases hvalid : stringToHttpMethod m = .INVALID_METHOD
    · right
      by_contra hfound
      rw [if_neg hfound] at herror
      exact hrec.error.mp (by rw [herror]; decide) hvalid
    · exact .inl hvalid
  · intro h
    refine ⟨r,n,left,rfl,?_⟩
    by_cases hvalid : stringToHttpMethod m = .INVALID_METHOD
    · have hfound := h.resolve_left (not_not.mpr hvalid)
      rw [if_pos hfound] at herror
      exact ⟨by simp [herror, hvalid],fun hno => absurd hvalid hno⟩
    · have heq := charsToHttpMethod_eq hm hvalid
      have hfound : charsToHttpMethod m ≠ .INVALID_METHOD := heq ▸ hvalid
      rw [if_neg hfound] at herror
      exact ⟨by simp [herror, hvalid],fun _ => (hmethod hfound).trans heq⟩

theorem recognises_iff_foo :
    (∃ r n left, (HttpRequestParser.new ⟨0,false⟩).execute
        (bytes "FOO"++32 :: bytes "/ HTTP/1.1\r\n\r\n") = .ok (r,n,left) ∧
        Recognises r (bytes "FOO")) ↔
      stringToHttpMethod (bytes "FOO") ≠ .INVALID_METHOD ∨
        ∀ e ∈ httpMethodMap, ¬e.2 <+: bytes "FOO" :=
  recognises_iff ⟨0,false⟩ (by decide) (by decide +kernel) (by decide) (bytes "/ HTTP/1.1\r\n\r\n")

/-- The method `GETX` is taken for `GET`. -/
theorem not_recognises : ¬∀ (u : Uninit) (m rest : Bytes), m ≠ [] → (∀ b ∈ m, isMethodByte b) →
    m.length ≤ 20 → ((HttpParser.init u).execute (m++32 :: rest)).1.cs.Final →
    ∃ r n left, (HttpRequestParser.new u).execute (m++32 :: rest) = .ok (r,n,left) ∧
      Recognises r m := by
  intro h
  obtain ⟨r,n,left,hr,hrec⟩ := h ⟨0,false⟩ (bytes "GETX") (bytes "/ HTTP/1.1\r\n\r\n") (by decide)
    (by decide +kernel) (by decide) (by decide +kernel)
  obtain ⟨r',n',left',hr',herror,-⟩ := execute_method ⟨0,false⟩ (m := bytes "GETX") (by decide)
    (by decide +kernel) (by decide) (bytes "/ HTTP/1.1\r\n\r\n")
  rw [hr] at hr'
  cases hr'
  have hinvalid : stringToHttpMethod (bytes "GETX") = .INVALID_METHOD := by decide
  rw [if_neg (by decide)] at herror
  exact hrec.error.mp (by rw [herror]; decide) hinvalid

end CoroutineWebserve.Http
