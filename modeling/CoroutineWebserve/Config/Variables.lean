import CoroutineWebserve.Config.Cast
import CoroutineWebserve.Config.Load

/-!
# The variables of a process

`Config` keeps its variables in a map. The first `Lookup` of a name decides the type of its
variable, and the name is not removed any more.
-/
namespace CoroutineWebserve.Config
open Log (Bytes bytes)
open Http (tolower)
open Yaml

/-- The types of variables, with `LexicalCast` and `operator==`. -/
structure Types where
  Tag : Type
  [decidable : DecidableEq Tag]
  Value : Tag → Type
  cast (t : Tag) : LexicalCast (Value t)
  eq {t : Tag} : Value t → Value t → Bool

attribute [instance] Types.decidable

variable {T : Types}

/-- A `ConfigVar` of one of the types. -/
structure Var (T : Types) where
  m_name : Bytes
  m_description : Bytes
  type : T.Tag
  m_val : T.Value type

namespace Var

/-- `ConfigVar`, whose name is in lower case. -/
def new (name : Bytes) {t : T.Tag} (default_value : T.Value t) (description : Bytes) : Var T :=
  ⟨name.map tolower,description,t,default_value⟩

def toString (x : Var T) : Bytes := ConfigVar.toString (T.cast x.type) x.m_val

/-- `setValue`, whose listeners do not set variables. -/
def setValue (x : Var T) (v : T.Value x.type) : Var T :=
  if T.eq v x.m_val then x else { x with m_val := v }

def fromString (x : Var T) (val : Bytes) : Var T :=
  match (T.cast x.type).fromString val with
  | .ok v => x.setValue v
  | .error _ => x

/-- `dynamic_pointer_cast` to a type, and `getValue`. -/
def getValue (x : Var T) (t : T.Tag) : Option (T.Value t) :=
  if h : x.type = t then some (h ▸ x.m_val) else none

variable {x : Var T} {t : T.Tag} {v : T.Value t}

theorem setValue_name (x : Var T) (v : T.Value x.type) : (x.setValue v).m_name = x.m_name := by
  unfold setValue
  split_ifs <;> rfl

theorem fromString_name (x : Var T) (val : Bytes) : (x.fromString val).m_name = x.m_name := by
  unfold fromString
  split
  · exact x.setValue_name _
  · rfl

theorem fromString_type (x : Var T) (val : Bytes) : (x.fromString val).type = x.type := by
  unfold fromString setValue
  split
  · split_ifs <;> rfl
  · rfl

theorem getValue_isSome : (x.getValue t).isSome ↔ x.type = t := by
  unfold getValue
  split_ifs with h <;> simp [h]

theorem toString_eq (h : x.getValue t = some v) {text : Bytes}
    (htext : (T.cast t).toString v = .ok text) : x.toString = text := by
  unfold getValue at h
  split_ifs at h with htype
  subst htype
  cases h
  rw [toString, ConfigVar.toString, htext]

/-- Behind `fromString` the value is what the text converts to, or what was equal to it before. -/
theorem getValue_fromString (h : (x.getValue t).isSome) {val : Bytes}
    (hval : (T.cast t).fromString val = .ok v) :
    ∃ w, (x.fromString val).getValue t = some w ∧ (w = v ∨ T.eq v w) := by
  obtain rfl := getValue_isSome.mp h
  have hset : x.fromString val = x.setValue v := by
    rw [fromString, hval]
  rw [hset, setValue]
  split_ifs with heq
  · exact ⟨x.m_val,dif_pos rfl,.inr heq⟩
  · exact ⟨v,dif_pos rfl,.inl rfl⟩

end Var

/-! ### The map -/

/-- `s_datas`, in the order of the names. -/
structure ConfigVarMap (T : Types) where
  entries : List (Bytes × Var T)
  sorted : entries.Pairwise keyLess
  named : ∀ e ∈ entries, e.1.all isNameChar ∧ e.2.m_name = e.1

namespace ConfigVarMap

def empty : ConfigVarMap T := ⟨[],.nil,nofun⟩

def find (s : ConfigVarMap T) (name : Bytes) : Option (Var T) :=
  (s.entries.find? fun e => e.1 = name).map Prod.snd

/-- `GetDatas()[name] = x`. -/
def insert (s : ConfigVarMap T) (name : Bytes) (x : Var T)
    (h : name.all isNameChar ∧ x.m_name = name) : ConfigVarMap T where
  entries := OrderedSet.insert keyLess (name,x) s.entries
  sorted := OrderedSet.pairwise_insert s.sorted
  named e he := by
    rcases OrderedSet.mem_or_eq_of_mem_insert he with rfl | he
    · exact h
    · exact s.named e he

/-- A variable changes. -/
def modify (s : ConfigVarMap T) (name : Bytes) (f : Var T → Var T)
    (hf : ∀ x, (f x).m_name = x.m_name) : ConfigVarMap T where
  entries := s.entries.map fun e => if e.1 = name then (e.1,f e.2) else e
  sorted := by
    refine List.pairwise_map.mpr (s.sorted.imp fun {d e} hlt => ?_)
    unfold keyLess at hlt ⊢
    split_ifs <;> exact hlt
  named e he := by
    obtain ⟨d,hd,rfl⟩ := List.mem_map.mp he
    split_ifs
    · exact (s.named d hd).imp_right (hf d.2).trans
    · exact s.named d hd

theorem tolower_name {name : Bytes} (h : name.all isNameChar) : name.map tolower = name := by
  have hbyte : ∀ n < 256, isNameChar (UInt8.ofNat n) → tolower (UInt8.ofNat n) = UInt8.ofNat n := by
    decide +kernel
  refine (List.map_congr_left fun c hc => ?_).trans name.map_id
  have hc := hbyte c.toNat c.toNat_lt
  rw [UInt8.ofNat_toNat] at hc
  exact hc (List.all_eq_true.mp h c ‹_›)

/-- `Lookup(name, default_value, description)`: the variable, a null pointer when its type is
another one, or what is thrown. -/
def Lookup (s : ConfigVarMap T) (name : Bytes) {t : T.Tag} (default_value : T.Value t)
    (description : Bytes) : Except Bytes (Option (Var T)) × ConfigVarMap T :=
  match s.find name with
  | some x => (.ok (if x.type = t then some x else none),s)
  | none =>
    if h : name.all isNameChar then
      let v := Var.new name default_value description
      (.ok (some v),s.insert name v ⟨h,tolower_name h⟩)
    else (.error name,s)

/-- `Lookup(name)` of a type, and `getValue`. -/
def getValue (s : ConfigVarMap T) (name : Bytes) (t : T.Tag) : Option (T.Value t) :=
  (s.find name).bind (Var.getValue · t)

def fromString (s : ConfigVarMap T) (name val : Bytes) : ConfigVarMap T :=
  s.modify name (Var.fromString · val) (Var.fromString_name · val)

/-- `setValue` behind the pointer to a variable of a type. -/
def setValue (s : ConfigVarMap T) (name : Bytes) {t : T.Tag} (v : T.Value t) : ConfigVarMap T :=
  s.modify name (fun x => if h : t = x.type then x.setValue (h ▸ v) else x) fun x => by
    split_ifs
    · exact x.setValue_name _
    · rfl

def LoadFromYaml (Y : Library) (s : ConfigVarMap T) (root : Node) : ConfigVarMap T :=
  (Config.LoadFromYaml (fun name => (s.find name).isSome) Y.emit root).foldl
    (fun s i => s.fromString i.name i.text) s

/-- `Visit`: the variables that `cb` gets. -/
def Visit (s : ConfigVarMap T) : List (Var T) := s.entries.map Prod.snd

/-! ### What is found -/

variable {s : ConfigVarMap T} {name : Bytes} {x : Var T} {t : T.Tag}

theorem mem_of_find (h : s.find name = some x) : (name,x) ∈ s.entries := by
  obtain ⟨e,he,rfl⟩ := Option.map_eq_some_iff.mp h
  have hname : e.1 = name := by simpa using List.find?_some he
  exact hname ▸ List.mem_of_find?_eq_some he

theorem find_modify (s : ConfigVarMap T) (name name' : Bytes) (f : Var T → Var T)
    (hf : ∀ x, (f x).m_name = x.m_name) :
    (s.modify name f hf).find name' =
      (s.find name').map fun x => if name' = name then f x else x := by
  have hkey : ((fun e : Bytes × Var T => decide (e.1 = name')) ∘
      fun e => if e.1 = name then (e.1,f e.2) else e) = fun e => decide (e.1 = name') := by
    funext e
    dsimp only [Function.comp_apply]
    split_ifs <;> rfl
  rw [find, modify, List.find?_map, hkey, find, Option.map_map, Option.map_map]
  cases hfind : s.entries.find? fun e => decide (e.1 = name') with
  | none => rfl
  | some e =>
    obtain rfl : e.1 = name' := by simpa using List.find?_some hfind
    simp only [Option.map_some, Function.comp_apply]
    split_ifs <;> rfl

theorem find_fromString (s : ConfigVarMap T) (name name' val : Bytes) :
    (s.fromString name val).find name' =
      (s.find name').map fun x => if name' = name then x.fromString val else x :=
  s.find_modify name name' _ _

theorem getValue_isSome : (s.getValue name t).isSome ↔ ∃ x, s.find name = some x ∧ x.type = t := by
  rw [getValue]
  cases s.find name with
  | none => simp
  | some x => simpa using Var.getValue_isSome

/-! ### Calls of `fromString` -/

/-- Calls for other variables. -/
theorem find_foldl_of_ne {calls : List Call} (h : ∀ i ∈ calls, i.name ≠ name) (s : ConfigVarMap T) :
    (calls.foldl (fun s i => s.fromString i.name i.text) s).find name = s.find name := by
  induction calls generalizing s with
  | nil => rfl
  | cons i calls ih =>
    have hne : name ≠ i.name := (h i List.mem_cons_self).symm
    rw [List.foldl_cons, ih (fun j hj => h j (List.mem_cons_of_mem i hj)), find_fromString]
    simp [hne]

/-- A variable keeps its type. -/
theorem isSome_foldl (calls : List Call) (h : (s.getValue name t).isSome) :
    ((calls.foldl (fun s i => s.fromString i.name i.text) s).getValue name t).isSome := by
  induction calls generalizing s with
  | nil => exact h
  | cons i calls ih =>
    refine ih ?_
    obtain ⟨x,hx,htype⟩ := getValue_isSome.mp h
    refine getValue_isSome.mpr ⟨_,by rw [find_fromString, hx]; rfl,?_⟩
    split_ifs
    · rw [Var.fromString_type, htype]
    · exact htype

/-- The last call for a variable tells its value, if the text converts. -/
theorem getValue_foldl {earlier later : List Call} {i : Call} (h : (s.getValue i.name t).isSome)
    (hlater : ∀ j ∈ later, j.name ≠ i.name) {v : T.Value t}
    (hval : (T.cast t).fromString i.text = .ok v) :
    ∃ w, ((earlier++i :: later).foldl (fun s i => s.fromString i.name i.text) s).getValue i.name t =
      some w ∧ (w = v ∨ T.eq v w) := by
  obtain ⟨x,hx,htype⟩ := getValue_isSome.mp (isSome_foldl earlier h)
  rw [List.foldl_append, List.foldl_cons, getValue, find_foldl_of_ne hlater, find_fromString, hx,
    Option.map_some, if_pos rfl, Option.bind_some]
  exact Var.getValue_fromString (Var.getValue_isSome.mpr htype) hval

end ConfigVarMap
end CoroutineWebserve.Config
