import CoroutineWebserve.Client.Message
import CoroutineWebserve.Config.Variables

/-!
# The page with the configuration

`ConfigServlet` answers with the variables of its process, as one mapping in the order of their
names. `LoadFromYaml` visits the nodes inside the value of a variable too, and takes them for the
variables whose names they spell. These have longer names, so they come later.
-/
namespace CoroutineWebserve.Config
open Log (Bytes bytes)
open Http (tolower)
open Yaml
open Client (HttpResponse)

variable {T : Types}

namespace ConfigServlet
variable (Y : Library)

/-- What the callback of `Visit` does with `node`. -/
def add (node : List (Bytes × Node)) (base : Var T) : List (Bytes × Node) :=
  match Y.Load base.toString with
  | .error _ => node
  | .ok n =>
    let node := assign node (base.m_name,n)
    assign node (base.m_name++bytes "$description",.scalar base.m_description)

def node (s : ConfigVarMap T) : Node := .ofEntries (s.Visit.foldl (add Y) [])

/-- `type` is the parameter, and `YamlToJson` gives the text of the JSON value or fails. -/
def handle (YamlToJson : Node → Option Bytes) (s : ConfigVarMap T) (type : Bytes)
    (response : HttpResponse) : HttpResponse :=
  let response := response.setHeader (bytes "Content-Type")
    (if type = bytes "json" then bytes "text/json charset=utf-8"
      else bytes "text/yaml charset=utf-8")
  match if type = bytes "json" then YamlToJson (node Y s) else none with
  | some text => { response with body := text }
  | none => { response with body := Y.emit (node Y s) }

/-- The entries for a variable. -/
def described (e : Bytes × Var T) : List (Bytes × Node) :=
  match Y.Load e.2.toString with
  | .error _ => []
  | .ok n => [(e.1,n),(e.1++bytes "$description",.scalar e.2.m_description)]

variable {Y}

theorem prefix_described {e : Bytes × Var T} {d : Bytes × Node} (h : d ∈ described Y e) :
    e.1 <+: d.1 := by
  unfold described at h
  split at h
  · cases h
  · rcases List.mem_pair.mp h with rfl | rfl
    · exact List.prefix_refl _
    · exact List.prefix_append ..

theorem described_of_load {e : Bytes × Var T} {n : Node} (h : Y.Load e.2.toString = .ok n) :
    described Y e = [(e.1,n),(e.1++bytes "$description",.scalar e.2.m_description)] := by
  rw [described, h]

theorem assign_new {entries : List (Bytes × Node)} {e : Bytes × Node}
    (h : e.1 ∉ entries.map Prod.fst) : assign entries e = entries++[e] := if_neg h

/-- The key of a description is not a name. -/
theorem ne_description {name : Bytes} (h : name.all isNameChar) (other : Bytes) :
    name ≠ other++bytes "$description" := by
  rintro rfl
  have hdollar := List.all_eq_true.mp h 36 (List.mem_append_right other (by decide))
  exact absurd hdollar (by decide)

theorem foldl_add {l : List (Bytes × Var T)} (entries : List (Bytes × Node))
    (hnamed : ∀ e ∈ l, e.1.all isNameChar ∧ e.2.m_name = e.1)
    (hdistinct : l.Pairwise fun d e => d.1 ≠ e.1)
    (hnew : ∀ k ∈ entries.map Prod.fst, ∀ e ∈ l, k ≠ e.1 ∧ k ≠ e.1++bytes "$description") :
    (l.map Prod.snd).foldl (add Y) entries = entries++l.flatMap (described Y) := by
  induction l generalizing entries with
  | nil => simp
  | cons e l ih =>
    obtain ⟨⟨hall,hname⟩,hnamed⟩ := List.forall_mem_cons.mp hnamed
    obtain ⟨hne,hdistinct⟩ := List.pairwise_cons.mp hdistinct
    have hrest : ∀ k ∈ entries.map Prod.fst, ∀ d ∈ l, k ≠ d.1 ∧ k ≠ d.1++bytes "$description" :=
      fun k hk d hd => hnew k hk d (List.mem_cons_of_mem e hd)
    rw [List.map_cons, List.foldl_cons, List.flatMap_cons, ← List.append_assoc, add, described]
    cases Y.Load e.2.toString with
    | error _ => simpa using ih entries hnamed hdistinct hrest
    | ok n =>
      have hkey : e.1 ∉ entries.map Prod.fst := fun hmem =>
        (hnew _ hmem e List.mem_cons_self).1 rfl
      have hdescription : e.1++bytes "$description" ∉ (entries++[(e.1,n)]).map Prod.fst := by
        rw [List.map_append, List.mem_append, List.map_singleton, List.mem_singleton, not_or]
        exact ⟨fun hmem => (hnew _ hmem e List.mem_cons_self).2 rfl,(ne_description hall e.1).symm⟩
      simp only [hname]
      rw [assign_new (e := (e.1,n)) hkey, assign_new hdescription, List.append_assoc,
        List.singleton_append]
      refine ih _ hnamed hdistinct fun k hk d hd => ?_
      rw [List.map_append, List.mem_append] at hk
      rcases hk with hk | hk
      · exact hrest k hk d hd
      · obtain ⟨hall',-⟩ := hnamed d hd
        rcases List.mem_pair.mp hk with rfl | rfl
        · exact ⟨hne d hd,ne_description hall d.1⟩
        · exact ⟨(ne_description hall' e.1).symm,fun heq => hne d hd (List.append_cancel_right heq)⟩

/-- The keys for variables with different names differ. -/
theorem node_eq (s : ConfigVarMap T) : node Y s = .ofEntries (s.entries.flatMap (described Y)) := by
  have hdistinct : s.entries.Pairwise fun d e => d.1 ≠ e.1 := by
    refine s.sorted.imp fun {d e} hlt heq => ?_
    rw [keyLess, heq] at hlt
    exact List.lt_irrefl _ hlt
  rw [node, ConfigVarMap.Visit, foldl_add [] s.named hdistinct (List.forall_mem_nil _),
    List.nil_append]

end ConfigServlet

/-! ### Nodes that are not taken for a variable -/

variable {registered : Bytes → Bool} {emit : Node → Bytes} {name pre : Bytes} {i : Member}

/-- The call for a node in `all_nodes`. -/
def Member.call (registered : Bytes → Bool) (emit : Node → Bytes) (i : Member) : Option Call :=
  if i.pre = [] then none else
  let key := i.pre.map tolower
  if registered key then some ⟨key,i.pos,textOf emit i.node⟩ else none

/-- A node with the name of a variable is taken for it. -/
theorem Member.call_eq (emit : Node → Bytes) (hne : name ≠ []) (hall : name.all isNameChar)
    (hreg : registered name) (pos : List ℕ) (n : Node) :
    Member.call registered emit ⟨name,pos,n⟩ = some ⟨name,pos,textOf emit n⟩ := by
  rw [Member.call, if_neg hne]
  simp only [ConfigVarMap.tolower_name hall, if_pos hreg]

theorem prefix_of_mem {pos : List ℕ} {node : Node} (h : i ∈ ListAllMember pre pos node) :
    pre <+: i.pre ∧ i.pre.all isNameChar := by
  have heq := ListAllMember_eq [pre] pos node
  rw [show prefixOf [pre] = pre from rfl] at heq
  obtain ⟨v,hv,hi⟩ := List.mem_filterMap.mp (heq ▸ h)
  unfold member at hi
  split_ifs at hi with hall
  cases hi
  exact ⟨prefixOf_mono (prefix_keys [pre] pos node v hv).1,hall⟩

theorem mem_listEntries {pos : List ℕ} {j : ℕ} {entries : List (Bytes × Node)}
    (h : i ∈ listEntries pre pos j entries) :
    ∃ e ∈ entries, ∃ k, i ∈ ListAllMember (extend pre e.1) (pos++[k]) e.2 := by
  induction entries generalizing j with
  | nil =>
    rw [listEntries] at h
    cases h
  | cons e entries ih =>
    rw [listEntries] at h
    rcases List.mem_append.mp h with h | h
    · exact ⟨e,List.mem_cons_self,j,h⟩
    · obtain ⟨d,hd,hmem⟩ := ih h
      exact ⟨d,List.mem_cons_of_mem e hd,hmem⟩

theorem listEntries_append (pre : Bytes) (pos : List ℕ) (j : ℕ) (l m : List (Bytes × Node)) :
    listEntries pre pos j (l++m) = listEntries pre pos j l++listEntries pre pos (j+l.length) m := by
  induction l generalizing j with
  | nil => rw [listEntries]; rfl
  | cons e l ih =>
    rw [List.cons_append, listEntries, listEntries, ih, List.append_assoc, List.length_cons,
      Nat.add_right_comm, Nat.add_assoc]

theorem name_of_call {c : Call} (hall : i.pre.all isNameChar)
    (h : i.call registered emit = some c) : c.name = i.pre := by
  unfold Member.call at h
  split_ifs at h with hpre
  dsimp only at h
  split_ifs at h
  cases h
  exact ConfigVarMap.tolower_name hall

/-- No key of the entries begins the name. -/
theorem calls_ne {entries : List (Bytes × Node)} (h : ∀ e ∈ entries, ¬e.1 <+: name) (j : ℕ) :
    ∀ c ∈ (listEntries [] [] j entries).filterMap (Member.call registered emit), c.name ≠ name := by
  rintro c hc rfl
  obtain ⟨i,hi,hcall⟩ := List.mem_filterMap.mp hc
  obtain ⟨e,he,k,hmem⟩ := mem_listEntries hi
  obtain ⟨hpre,hall⟩ := prefix_of_mem hmem
  rw [name_of_call hall hcall] at h
  exact h e he hpre

/-- Inside the value of a variable the names are longer. -/
theorem ListAllMember_own (registered : Bytes → Bool) (emit : Node → Bytes) (hne : name ≠ [])
    (hall : name.all isNameChar) (pos : List ℕ) (node : Node) :
    ∃ more, ListAllMember name pos node = ⟨name,pos,node⟩ :: more ∧
      ∀ c ∈ more.filterMap (Member.call registered emit), c.name ≠ name := by
  cases node with
  | null | scalar _ | seq _ =>
    refine ⟨[],?_,fun c hc => absurd hc List.not_mem_nil⟩
    rw [ListAllMember, if_pos hall]
  | map entries =>
    refine ⟨listEntries name pos 0 entries,?_,?_⟩
    · rw [ListAllMember, if_pos hall]
    · rintro c hc rfl
      obtain ⟨i,hi,hcall⟩ := List.mem_filterMap.mp hc
      obtain ⟨e,he,k,hmem⟩ := mem_listEntries hi
      obtain ⟨hpre,hall'⟩ := prefix_of_mem hmem
      rw [name_of_call hall' hcall] at hpre hne
      rw [extend, if_neg hne] at hpre
      have hle := hpre.length_le
      simp at hle

/-! ### Loading the page -/

section restores
variable {Y : Library} {s s' : ConfigVarMap T} {t : T.Tag} {v : T.Value t}

/-- The text of the value is loaded, and the text for its node converts back. -/
def LexicalCast.Restores {V : Type} (Y : Library) (c : LexicalCast V) (v : V) : Prop :=
  ∃ text n, c.toString v = .ok text ∧ Y.Load text = .ok n ∧ c.fromString (textOf Y.emit n) = .ok v

/-- The values of nested types are restored, where a text that is loaded as a scalar is its text. -/
theorem Castable.restores {V : Type} {c : LexicalCast V} {P : V → Prop} (h : Castable Y c P) {v : V}
    (hv : P v) (hplain : ∀ text, c.toString v = .ok text → ∀ plain,
      Y.Load text = .ok (.scalar plain) → plain = text) : c.Restores Y v := by
  obtain ⟨text,n,htext,hload,hread,hback⟩ := h.returns hv
  refine ⟨text,n,htext,hload,?_⟩
  cases n with
  | scalar plain => exact (hplain text htext plain hload).symm ▸ hread
  | null | seq _ | map _ => exact hback

theorem calls_eq (registered : Bytes → Bool) (entries : List (Bytes × Node)) :
    LoadFromYaml registered Y.emit (.ofEntries entries) =
      (listEntries [] [] 0 entries).filterMap (Member.call registered Y.emit) := by
  have hcalls : ∀ root, LoadFromYaml registered Y.emit root =
      (ListAllMember [] [] root).filterMap (Member.call registered Y.emit) := fun _ => rfl
  cases entries with
  | nil =>
    rw [hcalls, Node.ofEntries, ListAllMember, listEntries]
    rfl
  | cons e entries =>
    rw [hcalls, show Node.ofEntries (e :: entries) = .map (e :: entries) from rfl, ListAllMember]
    rfl

/-- The call for a variable, and what comes behind it. -/
theorem exists_call (registered : Bytes → Bool) {x : Var T} (hs : s.find name = some x)
    (hne : name ≠ []) {n : Node} (hload : Y.Load x.toString = .ok n) (hreg : registered name) :
    ∃ pos earlier later, LoadFromYaml registered Y.emit (ConfigServlet.node Y s) =
      earlier++⟨name,pos,textOf Y.emit n⟩ :: later ∧ ∀ c ∈ later, c.name ≠ name := by
  obtain ⟨before,behind,hentries⟩ := List.mem_iff_append.mp (ConfigVarMap.mem_of_find hs)
  obtain ⟨hall,-⟩ := s.named _ (ConfigVarMap.mem_of_find hs)
  have hbehind : ∀ e ∈ behind, ¬e.1 <+: name := by
    intro e he hpre
    have hsorted := s.sorted
    rw [hentries] at hsorted
    exact hpre.le ((List.pairwise_cons.mp (List.pairwise_append.mp hsorted).2.1).1 e he)
  have hkeys : ∀ d ∈ (name++bytes "$description",Node.scalar x.m_description) ::
      behind.flatMap (ConfigServlet.described Y), ¬d.1 <+: name := by
    rintro d hd hpre
    rcases List.mem_cons.mp hd with rfl | hd
    · have hle := hpre.length_le
      have hlength : (bytes "$description").length = 12 := by decide
      rw [List.length_append, hlength] at hle
      omega
    · obtain ⟨e,he,hmem⟩ := List.mem_flatMap.mp hd
      exact hbehind e he ((ConfigServlet.prefix_described hmem).trans hpre)
  set j := 0+(before.flatMap (ConfigServlet.described Y)).length
  obtain ⟨more,hmore,hlonger⟩ := ListAllMember_own registered Y.emit hne hall [j] n
  rw [ConfigServlet.node_eq, calls_eq, hentries, List.flatMap_append, List.flatMap_cons,
    ConfigServlet.described_of_load (e := (name,x)) hload, listEntries_append, List.cons_append,
    listEntries, List.singleton_append, List.filterMap_append, List.filterMap_append]
  rw [show ListAllMember (extend [] name) ([]++[j]) n = _ from hmore,
    List.filterMap_cons_some (Member.call_eq Y.emit hne hall hreg [j] n), List.cons_append]
  refine ⟨[j],_,_,rfl,fun c hc => ?_⟩
  rcases List.mem_append.mp hc with hc | hc
  · exact hlonger c hc
  · exact calls_ne hkeys _ c hc

/-- Every variable that is on the page, with the text of its value, has this value behind
`LoadFromYaml`, or one that `operator==` does not tell from it. Variables change only if their names
begin with a name on the page. -/
theorem page_restores (Y : Library) (s s' : ConfigVarMap T) (YamlToJson : Node → Option Bytes)
    (type : Bytes) (htype : type ≠ bytes "json") (response : HttpResponse)
    (hreload : Y.Reloads (ConfigServlet.node Y s)) :
    ∃ root, Y.Load (ConfigServlet.handle Y YamlToJson s type response).body = .ok root ∧
      (∀ name t v, name ≠ [] → s.getValue name t = some v → (s'.getValue name t).isSome →
        (T.cast t).Restores Y v →
          ∃ w, (s'.LoadFromYaml Y root).getValue name t = some w ∧ (w = v ∨ T.eq v w)) ∧
      ∀ name, (∀ e ∈ s.entries, ¬e.1 <+: name) →
        (s'.LoadFromYaml Y root).find name = s'.find name := by
  refine ⟨ConfigServlet.node Y s,?_,?_,?_⟩
  · simp only [ConfigServlet.handle, if_neg htype]
    exact hreload
  · rintro name t v hne hv hs' ⟨text,n,htext,hload,hback⟩
    obtain ⟨x,hx,hvalue⟩ := Option.bind_eq_some_iff.mp hv
    have hload' : Y.Load x.toString = .ok n := by
      rw [Var.toString_eq hvalue htext, hload]
    obtain ⟨x',hx',-⟩ := ConfigVarMap.getValue_isSome.mp hs'
    obtain ⟨pos,earlier,later,hcalls,hlater⟩ := exists_call
      (fun name => (s'.find name).isSome) hx hne hload' (by rw [hx']; rfl)
    rw [ConfigVarMap.LoadFromYaml, hcalls]
    exact ConfigVarMap.getValue_foldl (i := ⟨name,pos,textOf Y.emit n⟩) hs' hlater hback
  · intro name hnames
    refine ConfigVarMap.find_foldl_of_ne ?_ s'
    rw [ConfigServlet.node_eq, calls_eq]
    refine calls_ne (fun d hd => ?_) 0
    obtain ⟨e,he,hmem⟩ := List.mem_flatMap.mp hd
    exact fun hpre => hnames e he ((ConfigServlet.prefix_described hmem).trans hpre)

end restores

/-! ### A value that spells the name of another variable -/

section nested

inductive Tag
  | string
  | map
deriving DecidableEq

def nestedText : Bytes := bytes "a:\n  b: 1\na$description: map\na.b: 2\na.b$description: string"
def innerText : Bytes := bytes "b: 1"
def innerNode : Node := .map [(bytes "b",.scalar (bytes "1"))]

/-- What the library loads and outputs for the page. -/
def nested : Library where
  Load v :=
    if v = nestedText then .ok (.map [(bytes "a",innerNode),
      (bytes "a$description",.scalar (bytes "map")),(bytes "a.b",.scalar (bytes "2")),
      (bytes "a.b$description",.scalar (bytes "string"))])
    else if v = innerText then .ok innerNode
    else .ok (.scalar v)
  emit
    | .scalar text => text
    | .map [_] => innerText
    | .map _ => nestedText
    | .seq _ | .null => []
  numbered _ := []

def nestedTypes : Types where
  Tag := Tag
  Value
    | .string => Bytes
    | .map => Container.Ordered (keyLess (T := Bytes))
  cast
    | .string => castString
    | .map => castMap nested castString
  eq {t} := match t with
    | .string => fun v w => decide (v = w)
    | .map => fun v w => decide (v = w)

theorem nestedTypes_eq {t : Tag} {v w : nestedTypes.Value t} (h : nestedTypes.eq v w) : v = w := by
  cases t with
  | string =>
    have hsame : ∀ v w : Bytes, decide (v = w) = true → v = w := fun _ _ => of_decide_eq_true
    exact hsame v w h
  | map =>
    have hsame : ∀ v w : Container.Ordered (keyLess (T := Bytes)), decide (v = w) = true → v = w :=
      fun _ _ => of_decide_eq_true
    exact hsame v w h

def oneEntry : Container.Ordered (keyLess (T := Bytes)) :=
  ⟨[(bytes "b",bytes "1")],List.pairwise_singleton ..⟩

/-- A process whose variable `a.b` has the value `v`. -/
def twoVariables (a : Container.Ordered (keyLess (T := Bytes))) (v : Bytes) :
    ConfigVarMap nestedTypes :=
  let s := (ConfigVarMap.empty.Lookup (T := nestedTypes) (bytes "a.b") (t := .string) v
    (bytes "string")).2
  (s.Lookup (bytes "a") (t := .map) a (bytes "map")).2

/-- The value of `a` has an entry `b`, which `LoadFromYaml` takes for the variable `a.b` at first. -/
theorem page_restores_nested : ∃ root,
    nested.Load (ConfigServlet.handle nested (fun _ => none) (twoVariables oneEntry (bytes "2"))
      (bytes "yaml") .new).body = .ok root ∧
    let s := (twoVariables ⟨[],.nil⟩ []).LoadFromYaml nested root
    s.getValue (bytes "a") .map = some oneEntry ∧
      s.getValue (bytes "a.b") .string = some (bytes "2") := by
  obtain ⟨root,hload,hrestores,-⟩ := page_restores nested (twoVariables oneEntry (bytes "2"))
    (twoVariables ⟨[],.nil⟩ []) (fun _ => none) (bytes "yaml") (by decide) .new rfl
  refine ⟨root,hload,?_,?_⟩
  · have hmap : (castMap nested castString).Restores nested oneEntry := by
      refine (Castable.leaf castString).map.restores ⟨fun e he => ?_,fun n hn => ?_⟩ ?_
      · obtain rfl := List.mem_singleton.mp he
        exact ⟨bytes "1",.scalar (bytes "1"),rfl,rfl,rfl,rfl⟩
      · have hbuilt : mapNode nested (.ordered keyLess) castString oneEntry = .ok innerNode := rfl
        obtain rfl := Except.ok.inj (hbuilt.symm.trans hn)
        rfl
      · intro text htext plain hload
        have hwritten : (castMap nested castString).toString oneEntry = .ok innerText := rfl
        obtain rfl := Except.ok.inj (hwritten.symm.trans htext)
        cases hload
    obtain ⟨w,hw,rfl | heq⟩ := hrestores (bytes "a") .map oneEntry (by decide) rfl rfl hmap
    · exact hw
    · exact hw.trans (congrArg some (nestedTypes_eq heq).symm)
  · have hstring : (nestedTypes.cast .string).Restores nested (bytes "2") :=
      ⟨bytes "2",.scalar (bytes "2"),rfl,rfl,rfl⟩
    obtain ⟨w,hw,rfl | heq⟩ :=
      hrestores (bytes "a.b") .string (bytes "2") (by decide) rfl rfl hstring
    · exact hw
    · exact hw.trans (congrArg some (nestedTypes_eq heq).symm)

end nested
end CoroutineWebserve.Config
