import CoroutineWebserve.Http.Message
import CoroutineWebserve.Log.Formatter
import CoroutineWebserve.Yaml.Node

/-!
# `Config::LoadFromYaml`

The nodes of a document are listed with the paths of their keys, and the variable of the path in
lower case is set to the text of the node. A filter on the path comes before the change to lower
case.
-/
namespace CoroutineWebserve.Config
open Log (Bytes bytes)
open Http (tolower)
open Yaml

/-- A node in `all_nodes`: its prefix, and where it stands in the document. -/
structure Member where
  pre : Bytes
  pos : List ℕ
  node : Node

/-- What `find_first_not_of` passes. -/
def isNameChar (c : UInt8) : Bool := (bytes "abcdefghikjlmnopqrstuvwxyz._0123456789").contains c

/-- The prefix below a key. -/
def extend (pre key : Bytes) : Bytes := if pre = [] then key else pre++46 :: key

mutual
def ListAllMember (pre : Bytes) (pos : List ℕ) : Node → List Member
  | .map entries =>
    if pre.all isNameChar then ⟨pre,pos,.map entries⟩ :: listEntries pre pos 0 entries else []
  | .null => if pre.all isNameChar then [⟨pre,pos,.null⟩] else []
  | .scalar text => if pre.all isNameChar then [⟨pre,pos,.scalar text⟩] else []
  | .seq items => if pre.all isNameChar then [⟨pre,pos,.seq items⟩] else []
/-- The loop over the entries of a mapping, from the `i`th on. -/
def listEntries (pre : Bytes) (pos : List ℕ) (i : ℕ) : List (Bytes × Node) → List Member
  | [] => []
  | (key,node) :: rest =>
    ListAllMember (extend pre key) (pos++[i]) node++listEntries pre pos (i+1) rest
end

/-- A call of `fromString` for a node. -/
structure Call where
  name : Bytes
  pos : List ℕ
  text : Bytes
deriving DecidableEq

/-- The text for a node; `emit` is its output to a stream. -/
def textOf (emit : Node → Bytes) : Node → Bytes
  | .scalar text => text
  | node => emit node

/-- The calls of `fromString`; `registered` are the names in `s_datas`. -/
def LoadFromYaml (registered : Bytes → Bool) (emit : Node → Bytes) (root : Node) : List Call :=
  (ListAllMember [] [] root).filterMap fun i =>
    if i.pre = [] then none else
    let key := i.pre.map tolower
    if registered key then some ⟨key,i.pos,textOf emit i.node⟩ else none

/-! ### What is expected -/

/-- The path of a node: its keys with dots between them. -/
def keyPath : List Bytes → Bytes
  | [] => []
  | key :: keys => key++keys.flatMap (46 :: ·)

/-- The call for a node that is not the root. -/
def wantedCall (registered : Bytes → Bool) (emit : Node → Bytes) (v : Visit) : Option Call :=
  let key := (keyPath v.keys).map tolower
  if v.keys ≠ [] ∧ registered key then some ⟨key,v.pos,textOf emit v.node⟩ else none

/-- The calls in the order of the document. -/
def wanted (registered : Bytes → Bool) (emit : Node → Bytes) (root : Node) : List Call :=
  (visits [] [] root).filterMap (wantedCall registered emit)

/-! ### Prefixes -/

/-- The prefix of the node below some keys. -/
def prefixOf (keys : List Bytes) : Bytes := keys.foldl extend []

variable {keys : List Bytes} {key : Bytes}

theorem prefixOf_concat (keys : List Bytes) (key : Bytes) :
    prefixOf (keys++[key]) = extend (prefixOf keys) key := by
  rw [prefixOf, List.foldl_append]
  rfl

theorem prefix_extend (pre key : Bytes) : pre <+: extend pre key := by
  unfold extend
  split_ifs with h
  · exact h ▸ List.nil_prefix
  · exact List.prefix_append ..

theorem prefix_foldl (pre : Bytes) (keys : List Bytes) : pre <+: keys.foldl extend pre := by
  induction keys generalizing pre with
  | nil => exact List.prefix_refl _
  | cons key keys ih => exact (prefix_extend pre key).trans (ih _)

theorem prefixOf_mono {keys' : List Bytes} (h : keys <+: keys') :
    prefixOf keys <+: prefixOf keys' := by
  obtain ⟨rest,rfl⟩ := h
  rw [prefixOf, prefixOf, List.foldl_append]
  exact prefix_foldl _ rest

theorem foldl_extend {pre : Bytes} (h : pre ≠ []) (keys : List Bytes) :
    keys.foldl extend pre = pre++keys.flatMap (46 :: ·) := by
  induction keys generalizing pre with
  | nil => simp
  | cons key keys ih =>
    rw [List.foldl_cons, extend, if_neg h, ih (by simp), List.flatMap_cons, List.append_assoc]

/-- Below a key that is not empty the prefix is the path. -/
theorem prefixOf_of_ne (h : key ≠ []) (keys : List Bytes) :
    prefixOf (key :: keys) = keyPath (key :: keys) := by
  rw [prefixOf, List.foldl_cons, extend, if_pos rfl, foldl_extend h, keyPath]

/-- An empty key at the root is lost. -/
theorem prefixOf_nil_cons (keys : List Bytes) : prefixOf ([] :: keys) = prefixOf keys := rfl

theorem length_prefixOf_lt (h : prefixOf keys ≠ []) :
    (prefixOf keys).length < (keyPath ([] :: keys)).length := by
  induction keys with
  | nil => exact absurd rfl h
  | cons key keys ih =>
    rw [keyPath, List.nil_append, List.flatMap_cons, List.length_append, List.length_cons]
    by_cases hkey : key = []
    · rw [hkey, prefixOf_nil_cons] at h ⊢
      have hlt := ih h
      rw [keyPath, List.nil_append] at hlt
      omega
    · rw [prefixOf_of_ne hkey, keyPath, List.length_append]
      omega

/-! ### The list of the nodes -/

/-- What becomes of a node in `all_nodes`. -/
def member (v : Visit) : Option Member :=
  if (prefixOf v.keys).all isNameChar then some ⟨prefixOf v.keys,v.pos,v.node⟩ else none

/-- Below a prefix that the filter does not pass there is nothing. -/
theorem filterMap_member_eq_nil {keys : List Bytes} {vs : List Visit}
    (h : ¬(prefixOf keys).all isNameChar) (hkeys : ∀ v ∈ vs, keys <+: v.keys) :
    vs.filterMap member = [] := by
  refine List.filterMap_eq_nil_iff.mpr fun v hv => if_neg fun hall => h ?_
  rw [List.all_eq_true] at hall ⊢
  exact fun c hc => hall c ((prefixOf_mono (hkeys v hv)).subset hc)

theorem singleton_member (pos : List ℕ) (node : Node) :
    (if (prefixOf keys).all isNameChar then [⟨prefixOf keys,pos,node⟩] else []) =
      [(⟨keys,pos,node⟩ : Visit)].filterMap member := by
  simp only [List.filterMap_cons, List.filterMap_nil, member]
  split_ifs <;> rfl

mutual
theorem ListAllMember_eq (keys : List Bytes) (pos : List ℕ) : ∀ node : Node,
    ListAllMember (prefixOf keys) pos node = (visits keys pos node).filterMap member
  | .map entries => by
    by_cases h : (prefixOf keys).all isNameChar
    · have hroot : member ⟨keys,pos,.map entries⟩ = some ⟨prefixOf keys,pos,.map entries⟩ :=
        if_pos h
      rw [ListAllMember, visits, if_pos h, List.filterMap_cons_some hroot, listEntries_eq]
    · rw [filterMap_member_eq_nil h fun v hv => (prefix_keys keys pos _ v hv).1, ListAllMember,
        if_neg h]
  | .null => by rw [ListAllMember, visits, singleton_member]
  | .scalar text => by rw [ListAllMember, visits, singleton_member]
  | .seq items => by rw [ListAllMember, visits, singleton_member]
theorem listEntries_eq (keys : List Bytes) (pos : List ℕ) (i : ℕ) :
    ∀ entries : List (Bytes × Node),
    listEntries (prefixOf keys) pos i entries = (visitEntries keys pos i entries).filterMap member
  | [] => by rw [listEntries, visitEntries, List.filterMap_nil]
  | (key,node) :: rest => by
    rw [listEntries, visitEntries, List.filterMap_append, ← prefixOf_concat, ListAllMember_eq,
      listEntries_eq]
end

/-! ### The calls -/

variable {registered : Bytes → Bool} {emit : Node → Bytes}

/-- The call that the code makes for a node. -/
def loadCall (registered : Bytes → Bool) (emit : Node → Bytes) (v : Visit) : Option Call :=
  if (prefixOf v.keys).all isNameChar ∧ prefixOf v.keys ≠ [] ∧
      registered ((prefixOf v.keys).map tolower) then
    some ⟨(prefixOf v.keys).map tolower,v.pos,textOf emit v.node⟩
  else none

theorem LoadFromYaml_eq (registered : Bytes → Bool) (emit : Node → Bytes) (root : Node) :
    LoadFromYaml registered emit root =
      (visits [] [] root).filterMap (loadCall registered emit) := by
  have hmembers := ListAllMember_eq [] [] root
  change ListAllMember [] [] root = _ at hmembers
  rw [LoadFromYaml, hmembers, List.filterMap_filterMap]
  refine List.filterMap_congr fun v _ => ?_
  unfold member loadCall
  split_ifs <;> simp_all

/-- Two filters that keep the keys of the elements give the same list only if they agree. -/
theorem filterMap_eq_filterMap_iff {α β κ : Type*} {f g : α → Option β} {p : α → κ} {k : β → κ}
    (hf : ∀ a b, f a = some b → k b = p a) (hg : ∀ a b, g a = some b → k b = p a) {l : List α}
    (hl : (l.map p).Nodup) : l.filterMap f = l.filterMap g ↔ ∀ a ∈ l, f a = g a := by
  refine ⟨fun heq => ?_,List.filterMap_congr⟩
  induction l with
  | nil => exact nofun
  | cons a l ih =>
    obtain ⟨hnot,hl⟩ := List.nodup_cons.mp hl
    have habsent : ∀ (h : α → Option β), (∀ a b, h a = some b → k b = p a) →
        ∀ b ∈ l.filterMap h, k b ≠ p a := by
      intro h hh b hb hkey
      obtain ⟨a',ha',hb⟩ := List.mem_filterMap.mp hb
      exact hnot (List.mem_map.mpr ⟨a',ha',(hh a' b hb).symm.trans hkey⟩)
    have hhead : f a = g a := by
      cases hfa : f a with
      | none =>
        cases hga : g a with
        | none => rfl
        | some b =>
          rw [List.filterMap_cons_none hfa, List.filterMap_cons_some hga] at heq
          exact absurd (hg a b hga) (habsent f hf b (heq ▸ List.mem_cons_self))
      | some b =>
        cases hga : g a with
        | none =>
          rw [List.filterMap_cons_some hfa, List.filterMap_cons_none hga] at heq
          exact absurd (hf a b hfa) (habsent g hg b (heq ▸ List.mem_cons_self))
        | some b' =>
          rw [List.filterMap_cons_some hfa, List.filterMap_cons_some hga] at heq
          rw [(List.cons.inj heq).1]
    have htail : l.filterMap f = l.filterMap g := by
      rw [List.filterMap_cons, List.filterMap_cons, hhead] at heq
      cases hga : g a with
      | none => simpa [hga] using heq
      | some b => simpa [hga] using heq
    intro a' ha'
    rcases List.mem_cons.mp ha' with rfl | ha'
    · exact hhead
    · exact ih hl htail a' ha'

/-- No name is registered of a node that the code does not reach, or reaches under another
name. -/
def Reached (registered : Bytes → Bool) (v : Visit) : Prop :=
  v.keys ≠ [] →
    (registered ((keyPath v.keys).map tolower) →
      v.keys.head? ≠ some [] ∧ (keyPath v.keys).all isNameChar) ∧
    (v.keys.head? = some [] → prefixOf v.keys ≠ [] → (prefixOf v.keys).all isNameChar →
      ¬registered ((prefixOf v.keys).map tolower))

theorem loadCall_eq_iff (v : Visit) :
    loadCall registered emit v = wantedCall registered emit v ↔ Reached registered v := by
  obtain ⟨keys,pos,node⟩ := v
  unfold loadCall wantedCall Reached
  dsimp only
  cases keys with
  | nil => simp [prefixOf]
  | cons key keys =>
    by_cases hkey : key = []
    · subst hkey
      rw [prefixOf_nil_cons]
      by_cases hload : (prefixOf keys).all isNameChar ∧ prefixOf keys ≠ [] ∧
          registered ((prefixOf keys).map tolower)
      · refine iff_of_false (fun heq => ?_) fun h => (h (by simp)).2 rfl hload.2.1 hload.1 hload.2.2
        -- the two names have different lengths
        have hlt := length_prefixOf_lt hload.2.1
        rw [if_pos hload] at heq
        split_ifs at heq
        have hname := congrArg (fun c => c.name.length) (Option.some.inj heq)
        simp only [List.length_map] at hname
        omega
      · rw [if_neg hload, eq_comm, ite_eq_right_iff]
        constructor
        · intro hnone _
          refine ⟨fun hreg => ?_,fun _ hne hall hreg => hload ⟨hall,hne,hreg⟩⟩
          cases hnone ⟨by simp,hreg⟩
        · rintro h ⟨hne,hreg⟩
          exact absurd rfl ((h hne).1 hreg).1
    · rw [prefixOf_of_ne hkey]
      have hne : keyPath (key :: keys) ≠ [] := by simp [keyPath, hkey]
      by_cases hall : (keyPath (key :: keys)).all isNameChar
      · simp [hall, hne, hkey]
      · simp [hall, hne, hkey]

/-- Loading reaches exactly the named variables if and only if the filter passes the path of every
node whose name is registered, and an empty key at the root hides none. -/
theorem LoadFromYaml_eq_wanted_iff (registered : Bytes → Bool) (emit : Node → Bytes)
    (root : Node) : LoadFromYaml registered emit root = wanted registered emit root ↔
      ∀ v ∈ visits [] [] root, Reached registered v := by
  rw [LoadFromYaml_eq, wanted, filterMap_eq_filterMap_iff (p := Visit.pos) (k := Call.pos) ?_ ?_
    (visits_nodup [] [] root)]
  · exact forall₂_congr fun v _ => loadCall_eq_iff v
  · intro v c hc
    unfold loadCall at hc
    split_ifs at hc
    cases hc
    rfl
  · intro v c hc
    unfold wantedCall at hc
    dsimp only at hc
    split_ifs at hc
    cases hc
    rfl

/-- The variable of an upper-case key is not set. -/
theorem LoadFromYaml_upper :
    let registered : Bytes → Bool := (· == bytes "a")
    let root : Node := .map [(bytes "A",.scalar (bytes "1"))]
    LoadFromYaml registered (fun _ => []) root = [] ∧
      wanted registered (fun _ => []) root = [⟨bytes "a",[0],bytes "1"⟩] := by
  decide

end CoroutineWebserve.Config
