import CoroutineWebserve.Uri.Path
import CoroutineWebserve.Address.Lookup

/-!
# The port of a URI

The digits are read by `atoi`, a port of 0 is replaced by that of the scheme, and `createAddress`
narrows the number to 16 bits. Nothing bounds the number.
-/
namespace CoroutineWebserve.Uri
open Ragel
open CoroutineWebserve.ByteArray (Endian)
open Http (Bytes bytes)

/-- `createAddress()`; the argument of `setPort` has 16 bits. -/
def createAddress (host : Endian)
    (getaddrinfo : Bytes → Option Bytes → Hints → Option (List Sockaddr)) (u : Uri) :
    Option IPAddress :=
  (Address.LookupAnyIPAddress getaddrinfo u.host Address.defaultHints).map
    (·.setPort host (u.getPort.toBitVec.setWidth 16))

/-- A URI, or a relative reference, with an authority and digits of a port. -/
structure PortUri where
  scheme : Option Bytes
  userinfo : Option Bytes
  host : Bytes
  digits : Bytes
  path : Bytes
  query : Option Bytes
  fragment : Option Bytes
  scheme_mem : ∀ w ∈ scheme, w ∈ Grammar.scheme.lang
  userinfo_mem : ∀ w ∈ userinfo, w ∈ Grammar.userinfo.lang
  host_mem : host ∈ Grammar.host.lang
  digits_ne : digits ≠ []
  digits_mem : ∀ b ∈ digits, isDigit b = true
  path_mem : path ∈ Grammar.pathAbempty.lang
  query_mem : ∀ w ∈ query, w ∈ Grammar.query.lang
  fragment_mem : ∀ w ∈ fragment, w ∈ Grammar.fragment.lang

namespace PortUri

/-- What is behind the port. -/
def behind (x : PortUri) : Bytes := x.path++(optional 63 x.query++optional 35 x.fragment)

def text (x : PortUri) : Bytes :=
  x.scheme.elim [] (·++[58])++[47,47]++(x.userinfo.elim [] (·++[64])++
    (x.host++58 :: (x.digits++x.behind)))

/-- The number that the digits are a numeral of. -/
def value (x : PortUri) : ℕ := Http.decimalValue x.digits

/-- The port of the scheme. -/
def defaultPort (x : PortUri) : ℕ :=
  if x.scheme = some (bytes "http") ∨ x.scheme = some (bytes "ws") then 80
  else if x.scheme = some (bytes "https") ∨ x.scheme = some (bytes "wss") then 443
  else 0

end PortUri

/-! ### Behind the port -/

section behind
variable {text : Bytes} {mark : ℕ} {u : Uri} {digits post : Bytes}

theorem sets_port (h : text.drop mark = digits++post) (hne : digits ≠ []) :
    Sets text (mark+digits.length) (some mark) u [.savePort]
      { u with port := atoi (digits++post) } := by
  refine ⟨none,_,fun cs => ?_,set_slice h .port⟩
  simp [Parser.runActions, Parser.runAction, hne]

/-- An empty path is saved right behind the port. -/
theorem sets_portPath (h : text.drop mark = digits++post) (hne : digits ≠ []) :
    Sets text (mark+digits.length) (some mark) u [.savePort,.markh,.savePath]
      { u with port := atoi (digits++post), path := [] } := by
  have hport := set_slice (u := u) h .port
  have hempty : text.drop (mark+digits.length) = []++post := drop_add h
  have hpath := set_slice (u := { u with port := atoi (digits++post) }) hempty .path
  refine ⟨none,[⟨.port,some mark,mark+digits.length⟩]++
    [⟨.path,some (mark+digits.length),mark+digits.length+([] : Bytes).length⟩],fun cs => ?_,?_⟩
  · simp [Parser.runActions, Parser.runAction, hne]
  · rw [List.foldlM_append, hport]
    exact hpath

/-- The actions behind a port. -/
theorem step_port (hier : Bool) (info : Pattern) :
    let actions : List Action := if hier then [.savePort,.markh,.savePath] else [.savePort]
    eof (.authority hier info .port) = actions ∧
      step (.authority hier info .port) 63 = (.queryStart,actions) ∧
      step (.authority hier info .port) 35 = (.fragmentStart,actions) := by
  cases hier <;>
    simp [eof, step, authorityStep, Server.HostEnds, Server.Final, Server.leavePath, Server.leave]

/-- The slash of a path behind a port. -/
theorem step_port_slash (hier : Bool) (info : Pattern) :
    step (.authority hier info .port) 47 =
      if hier then (.path (Grammar.pathAbempty.after 47),[.savePort,.markh])
      else (.plain (Grammar.pathAbempty.after 47) false,[.savePort]) := by
  cases hier <;>
    simp [step, authorityStep, Server.HostEnds, Server.Final, Server.leavePath, Server.leave]

variable {path : Bytes} {query fragment : Option Bytes}

variable (u) in
/-- Up to the end of the text. -/
theorem ends_port (hier : Bool) (info : Pattern) (hne : digits ≠ [])
    (hpath : path ∈ Grammar.pathAbempty.lang)
    (hquery : ∀ w ∈ query, w ∈ Grammar.query.lang)
    (hfragment : ∀ w ∈ fragment, w ∈ Grammar.fragment.lang)
    (htext : text.drop mark = digits++(path++(optional 63 query++optional 35 fragment))) :
    Ends text (mark+digits.length) ⟨.authority hier info .port,some mark⟩ u
      (path++(optional 63 query++optional 35 fragment))
      { u with
        port := atoi (digits++(path++(optional 63 query++optional 35 fragment)))
        path := if hier then path else u.path
        query := query.getD u.query
        fragment := fragment.getD u.fragment } := by
  have htail := drop_add htext
  obtain ⟨heof,hmark,hhash⟩ := step_port hier info
  have hslash := step_port_slash hier info
  by_cases hempty : path = []
  · subst hempty
    cases hier with
    | true =>
      exact ends_query (s := ⟨.authority true info .port,some mark⟩)
        (sets_portPath (u := u) htext hne) trivial heof hmark hhash hquery hfragment htail
    | false =>
      exact ends_query (s := ⟨.authority false info .port,some mark⟩)
        (sets_port (u := u) htext hne) trivial heof hmark hhash hquery hfragment htail
  · obtain ⟨q,rfl⟩ := slash_of_pathAbempty hpath hempty
    have hrest : text.drop (mark+digits.length+1) =
        q++(optional 63 query++optional 35 fragment) := by
      rw [← List.drop_drop, htail]
      rfl
    cases hier with
    | true =>
      have hset := set_slice (u := u) htext .port
      have hbyte : Parses text (mark+digits.length) ⟨.authority true info .port,some mark⟩ u [47]
          ⟨.path (Grammar.pathAbempty.after 47),some (mark+digits.length)⟩
          { u with port := atoi (digits++(47 :: q++(optional 63 query++optional 35 fragment))) } :=
        .of_byte hslash (by simp) (by simp [Parser.runActions, Parser.runAction, hne]) hset
      obtain ⟨rest,hnull,hparses⟩ := parses_path text (mark+digits.length+1)
        { u with port := atoi (digits++(47 :: q++(optional 63 query++optional 35 fragment))) } hpath
        (some (mark+digits.length))
      have hlength : mark+digits.length+(47 :: q).length = mark+digits.length+1+q.length := by
        rw [List.length_cons]
        omega
      have hends := ends_query (s := ⟨.path rest,some (mark+digits.length)⟩)
        (sets_path (u := { u with
          port := atoi (digits++(47 :: q++(optional 63 query++optional 35 fragment))) }) htail)
        hnull rfl (by simp [step, hnull]) (by simp [step, hnull]) hquery hfragment (drop_add htail)
      rw [hlength] at hends
      exact hbyte.ends_cons (hparses.ends hends)
    | false =>
      obtain ⟨mark',hbyte⟩ := (sets_port (u := u) htext hne).byte
        (s := ⟨.authority false info .port,some mark⟩) hslash (by simp)
      have havoid : ∀ c ∈ [35,63], Grammar.pathAbempty.avoids c = true := by decide +kernel
      obtain ⟨cs,hcs,hidle⟩ := silent_plain false (Pattern.mem_after.mpr hpath) (fun b hb hmem =>
        Pattern.notMem_of_avoids (havoid b hmem) hpath (List.mem_cons_of_mem 47 hb)) (by simp)
      exact hbyte.ends_cons
        (ends_path hidle (.of_silent _ _ ⟨_,mark'⟩ _ hcs) hquery hfragment hrest)

end behind

/-! ### Up to the port -/

section server
variable {text : Bytes} {p : ℕ} (u : Uri) (hier : Bool)

/-- The host and its colon. The host may be empty. -/
theorem parses_hostColon (info : Pattern) {host post : Bytes} (h : host ∈ Grammar.host.lang)
    (mark : Option ℕ)
    (htext : text.drop p = host++58 :: post) :
    ∃ info', Parses text p ⟨.authority hier info .hostStart,mark⟩ u (host++[58])
      ⟨.authority hier info' .portStart,some p⟩ { u with host } := by
  have hset := set_slice (u := u) htext .host
  by_cases hempty : host = []
  · subst hempty
    have hstep : step (.authority hier info .hostStart) 58 =
        (.authority hier (info.after 58) .portStart,[.markh,.saveHost]) := by
      simp [step, authorityStep, Server.HostEnds, Server.leave]
    exact ⟨_,.of_byte hstep (by simp) rfl hset⟩
  · obtain ⟨info',rest,hnull,hhost⟩ := parses_host text p u hier info mark h hempty
    have hstep : step (.authority hier info' (.host rest)) 58 =
        (.authority hier (info'.after 58) .portStart,[.saveHost]) := by
      simp [step, authorityStep, Server.HostEnds, hnull, Server.leave]
    exact ⟨_,hhost.trans (.of_byte hstep (by simp) rfl hset)⟩

/-- The userinfo, if there is one. -/
theorem parses_optionalUserinfo {userinfo : Option Bytes} {post : Bytes}
    (h : ∀ w ∈ userinfo, w ∈ Grammar.userinfo.lang)
    (htext : text.drop p = userinfo.elim [] (·++[64])++post) :
    ∃ info' v, v.scheme = u.scheme ∧
      Parses text p ⟨.authority hier Grammar.userinfo .hostStart,none⟩ u
        (userinfo.elim [] (·++[64])) ⟨.authority hier info' .hostStart,none⟩ v := by
  cases userinfo with
  | none =>
    have hnothing : Parses text p ⟨.authority hier Grammar.userinfo .hostStart,none⟩ u []
        ⟨.authority hier Grammar.userinfo .hostStart,none⟩ u := .of_silent _ _ ⟨_,none⟩ _ rfl
    exact ⟨_,u,rfl,hnothing⟩
  | some w =>
    rw [Option.elim_some, List.append_assoc] at htext
    by_cases hempty : w = []
    · subst hempty
      have hstep : step (.authority hier Grammar.userinfo .hostStart) 64 =
          (.authority hier .none .hostStart,[.markh,.saveUserinfo]) := by
        cases hier <;> decide
      have hat : Parses text p ⟨.authority hier Grammar.userinfo .hostStart,none⟩ u [64]
          ⟨.authority hier .none .hostStart,none⟩ { u with userinfo := [] } :=
        .of_byte hstep (by simp) rfl (set_slice (u := u) htext .userinfo)
      exact ⟨_,{ u with userinfo := [] },rfl,hat⟩
    · obtain ⟨host,hparses⟩ := @parses_userinfo text p u hier w _ (h w rfl) hempty htext
      exact ⟨_,{ u with userinfo := kept w, host },rfl,hparses⟩

/-- The slashes before the authority, and the scheme before them if there is one. -/
theorem parses_slashes {scheme : Option Bytes} (h : ∀ w ∈ scheme, w ∈ Grammar.scheme.lang)
    (post : Bytes) : ∃ hier, Parses (scheme.elim [] (·++[58])++[47,47]++post) 0 ⟨.start,none⟩ new
      (scheme.elim [] (·++[58])++[47,47])
      ⟨.authority hier Grammar.userinfo .hostStart,none⟩ { new with scheme := scheme.getD [] } := by
  cases scheme with
  | none =>
    have hslashes : silent .error step .start [47,47] =
        some (.authority false Grammar.userinfo .hostStart) := by decide
    exact ⟨false,.of_silent _ _ ⟨.start,none⟩ _ hslashes⟩
  | some w =>
    have hslashes : silent .error step .hierStart [47,47] =
        some (.authority true Grammar.userinfo .hostStart) := by decide
    have htext : w++[58]++[47,47]++post = w++58 :: ([47,47]++post) := by simp
    refine ⟨true,?_⟩
    rw [Option.elim_some, htext]
    exact (parses_schemeColon (h w rfl) ([47,47]++post) new).trans (.of_silent _ _ _ _ hslashes)

end server

/-! ### The whole text -/

namespace PortUri

/-- `Create` accepts the text, whatever the number, and reads the port with `atoi`. -/
theorem create_text (x : PortUri) : ∃ v, Create x.text = .ok (some v) ∧
    v.scheme = x.scheme.getD [] ∧ v.port = atoi (x.digits++x.behind) := by
  have hcolon : x.host++58 :: (x.digits++x.behind) = x.host++[58]++(x.digits++x.behind) :=
    List.append_cons ..
  obtain ⟨hier,hslashes⟩ := parses_slashes x.scheme_mem (x.userinfo.elim [] (·++[64])++
    (x.host++58 :: (x.digits++x.behind)))
  have htext : x.text.drop (0+(x.scheme.elim [] (·++[58])++[47,47]).length) =
      x.userinfo.elim [] (·++[64])++(x.host++58 :: (x.digits++x.behind)) := by
    rw [Nat.zero_add, text, List.drop_left]
  obtain ⟨info,u,hscheme,huserinfo⟩ := parses_optionalUserinfo
    { new with scheme := x.scheme.getD [] } hier x.userinfo_mem htext
  have hserver := drop_add htext
  obtain ⟨info',hhost⟩ := parses_hostColon u hier info x.host_mem none hserver
  rw [hcolon] at hserver
  have hport := drop_add hserver
  obtain ⟨info'',hdigits⟩ := parses_digits x.text _ { u with host := x.host } hier info' (some _)
    x.digits_ne x.digits_mem
  have hends : Ends x.text _ _ _ x.behind _ := ends_port { u with host := x.host } hier info''
    x.digits_ne x.path_mem x.query_mem x.fragment_mem hport
  have hall := hslashes.ends (huserinfo.ends (hhost.ends (hdigits.ends hends)))
  have hpieces : x.text = x.scheme.elim [] (·++[58])++[47,47]++(x.userinfo.elim [] (·++[64])++
      (x.host++[58]++(x.digits++x.behind))) := by
    rw [text, hcolon]
  rw [← hpieces] at hall
  exact ⟨_,create_of_ends hall,hscheme,rfl⟩

/-- The byte behind the port is not a digit. -/
theorem behind_head (x : PortUri) : ∀ b ∈ x.behind.head?, isDigit b = false := by
  have hdigit : ∀ b ∈ ([47,63,35] : Bytes), isDigit b = false := by decide +kernel
  intro b hb
  refine hdigit b ?_
  rw [behind] at hb
  by_cases hempty : x.path = []
  · rw [hempty, List.nil_append] at hb
    cases hquery : x.query <;> cases hfragment : x.fragment <;>
      simp [optional, hquery, hfragment] at hb <;> simp [← hb]
  · obtain ⟨q,hq⟩ := slash_of_pathAbempty x.path_mem hempty
    rw [hq] at hb
    cases hb
    simp

/-- A number of 16 bits is read as it is. -/
theorem atoi_digits (x : PortUri) (h : x.value ≤ 65535) :
    atoi (x.digits++x.behind) = Int32.ofInt x.value := by
  have hvalue : (Http.decimalValue x.digits : ℤ) ≤ 65535 := Int.ofNat_le.mpr h
  rw [atoi, strtol_digits x.digits_ne x.digits_mem x.behind_head, value]
  congr 1
  omega

theorem scheme_eq (x : PortUri) {v : Uri} (hscheme : v.scheme = x.scheme.getD []) {w : Bytes}
    (hw : w ≠ []) : v.scheme = w ↔ x.scheme = some w := by
  rw [hscheme]
  cases x.scheme with
  | none => simp [hw.symm]
  | some s => simp

/-- What 16 bits keep of the port that is got. -/
theorem getPort_of_le (x : PortUri) (h : x.value ≤ 65535) {v : Uri}
    (hscheme : v.scheme = x.scheme.getD []) (hport : v.port = atoi (x.digits++x.behind)) :
    (v.getPort.toBitVec.setWidth 16).toNat = if x.value = 0 then x.defaultPort else x.value := by
  have hbits : v.port.toBitVec = BitVec.ofNat 32 x.value := by
    rw [hport, atoi_digits x h]
    exact BitVec.ofInt_natCast 32 x.value
  have hzero : v.port = 0 ↔ x.value = 0 := by
    rw [← Int32.toBitVec_inj, hbits, ← BitVec.toNat_inj, BitVec.toNat_ofNat]
    change x.value%2^32 = 0 ↔ _
    omega
  by_cases hvalue : x.value = 0
  · have hhttp : v.scheme = bytes "http" ↔ x.scheme = some (bytes "http") :=
      x.scheme_eq hscheme (by decide)
    have hws : v.scheme = bytes "ws" ↔ x.scheme = some (bytes "ws") :=
      x.scheme_eq hscheme (by decide)
    have hhttps : v.scheme = bytes "https" ↔ x.scheme = some (bytes "https") :=
      x.scheme_eq hscheme (by decide)
    have hwss : v.scheme = bytes "wss" ↔ x.scheme = some (bytes "wss") :=
      x.scheme_eq hscheme (by decide)
    rw [if_pos hvalue, getPort, if_neg (not_not.mpr (hzero.mpr hvalue)), hzero.mpr hvalue,
      defaultPort]
    simp only [Bool.or_eq_true, decide_eq_true_eq, hhttp, hws, hhttps, hwss]
    split_ifs <;> rfl
  · rw [if_neg hvalue, getPort, if_pos (mt hzero.mp hvalue), hbits, BitVec.toNat_setWidth,
      BitVec.toNat_ofNat]
    omega

/-- The port is the one that the address is connected to, and 65535 at most. -/
def KeepsPort (x : PortUri) : Prop :=
  ∀ v, Create x.text = .ok (some v) → x.value ≤ 65535 ∧
    ∀ (host : Endian) (getaddrinfo : Bytes → Option Bytes → Hints → Option (List Sockaddr))
      (a : IPAddress), createAddress host getaddrinfo v = some a →
      (a.getPort host).toNat = if x.value = 0 then x.defaultPort else x.value

/-- A number above 65535 is accepted, and loses its upper bits. -/
theorem keepsPort_iff (x : PortUri) : x.KeepsPort ↔ x.value ≤ 65535 := by
  obtain ⟨u,hcreate,hscheme,hport⟩ := x.create_text
  constructor
  · intro h
    exact (h u hcreate).1
  · intro h v hv
    rw [hcreate] at hv
    obtain rfl : u = v := by simpa using hv
    refine ⟨h,fun host getaddrinfo a ha => ?_⟩
    obtain ⟨b,-,rfl⟩ := Option.map_eq_some_iff.mp ha
    rw [IPAddress.getPort_setPort, BitVec.toNat_setWidth, x.getPort_of_le h hscheme hport]
    have hsmall : (if x.value = 0 then x.defaultPort else x.value) ≤ 65535 := by
      unfold defaultPort
      split_ifs <;> omega
    omega

/-- `http://h:65616`. -/
def pastPorts : PortUri where
  scheme := some (bytes "http")
  userinfo := none
  host := bytes "h"
  digits := bytes "65616"
  path := []
  query := none
  fragment := none
  scheme_mem := by simp; decide
  userinfo_mem := nofun
  host_mem := by decide
  digits_ne := by decide
  digits_mem := by decide +kernel
  path_mem := by decide
  query_mem := nofun
  fragment_mem := nofun

/-- It is a URI, although its port is above 65535. -/
theorem not_keepsPort : ¬∀ x : PortUri, x.KeepsPort := by
  intro h
  obtain ⟨v,hcreate,-⟩ := pastPorts.create_text
  exact absurd (h pastPorts v hcreate).1 (by decide)

/-- The port connected to is 80. -/
example : (createAddress .LITTLE_ENDIAN (fun _ _ _ => some [.inet ⟨AF_INET,0,0x100007f,0⟩])
    { new with port := atoi (pastPorts.digits++pastPorts.behind) }).map
      (·.getPort .LITTLE_ENDIAN) = some 80 := by
  decide

end PortUri
end CoroutineWebserve.Uri
