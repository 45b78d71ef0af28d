import Mathlib.Data.List.Nodup
import Mathlib.Data.UInt

/-!
# Nodes of YAML documents

The nodes of a document are listed with the keys that lead to them, in the order of the document. Only
mappings have nodes with keys.
-/
namespace CoroutineWebserve.Yaml

/-- The entries of a mapping are in the order of the document. -/
inductive Node
  | null
  | scalar (text : List UInt8)
  | seq (items : List Node)
  | map (entries : List (List UInt8 × Node))

namespace Node

/-- What accesses throw. -/
inductive Error
  | badSubscript
  | badConversion
deriving Repr, DecidableEq

/-- `n[key]`, when it is defined. -/
def subscript (key : List UInt8) : Node → Except Error (Option Node)
  | .map entries => .ok ((entries.find? fun entry => entry.1 == key).map Prod.snd)
  | .scalar _ => .error .badSubscript
  | .null | .seq _ => .ok none

/-- `n.as<std::string>()`. -/
def asString : Node → Except Error (List UInt8)
  | .scalar text => .ok text
  | _ => .error .badConversion

/-- `n[x]` for all `x` below `n.size()`, where `n` is not a mapping. -/
def items : Node → List Node
  | .seq items => items
  | _ => []

/-- A node to which entries are assigned one after the other. -/
def ofEntries : List (List UInt8 × Node) → Node
  | [] => .null
  | entries => .map entries

end Node

/-- A node, the keys that lead to it and the places of these keys in their mappings. -/
structure Visit where
  keys : List (List UInt8)
  pos : List ℕ
  node : Node

mutual
/-- The nodes of a document whose root is reached by `keys`. -/
def visits (keys : List (List UInt8)) (pos : List ℕ) : Node → List Visit
  | .map entries => ⟨keys,pos,.map entries⟩ :: visitEntries keys pos 0 entries
  | .null => [⟨keys,pos,.null⟩]
  | .scalar text => [⟨keys,pos,.scalar text⟩]
  | .seq items => [⟨keys,pos,.seq items⟩]
/-- The nodes of the entries from the `i`th on. -/
def visitEntries (keys : List (List UInt8)) (pos : List ℕ) (i : ℕ) :
    List (List UInt8 × Node) → List Visit
  | [] => []
  | (key,node) :: rest =>
    visits (keys++[key]) (pos++[i]) node++visitEntries keys pos (i+1) rest
end

mutual
theorem prefix_keys (keys : List (List UInt8)) (pos : List ℕ) :
    ∀ (node : Node), ∀ v ∈ visits keys pos node, keys <+: v.keys ∧ pos <+: v.pos
  | .map entries, v, hv => by
    rw [visits] at hv
    rcases List.mem_cons.mp hv with rfl | hv
    · exact ⟨List.prefix_refl _,List.prefix_refl _⟩
    · obtain ⟨key,j,-,hkeys,hpos⟩ := prefix_keys_entries keys pos 0 entries v hv
      exact ⟨(List.prefix_append ..).trans hkeys,(List.prefix_append ..).trans hpos⟩
  | .null, v, hv => by
    obtain rfl := List.mem_singleton.mp (visits.eq_def keys pos .null ▸ hv)
    exact ⟨List.prefix_refl _,List.prefix_refl _⟩
  | .scalar text, v, hv => by
    obtain rfl := List.mem_singleton.mp (visits.eq_def keys pos (.scalar text) ▸ hv)
    exact ⟨List.prefix_refl _,List.prefix_refl _⟩
  | .seq items, v, hv => by
    obtain rfl := List.mem_singleton.mp (visits.eq_def keys pos (.seq items) ▸ hv)
    exact ⟨List.prefix_refl _,List.prefix_refl _⟩
theorem prefix_keys_entries (keys : List (List UInt8)) (pos : List ℕ) (i : ℕ) :
    ∀ (entries : List (List UInt8 × Node)), ∀ v ∈ visitEntries keys pos i entries,
      ∃ key j, i ≤ j ∧ keys++[key] <+: v.keys ∧ pos++[j] <+: v.pos
  | [], _, hv => by
    rw [visitEntries] at hv
    cases hv
  | (key,node) :: rest, v, hv => by
    rw [visitEntries] at hv
    rcases List.mem_append.mp hv with hv | hv
    · exact ⟨key,i,le_refl i,prefix_keys (keys++[key]) (pos++[i]) node v hv⟩
    · obtain ⟨key,j,hj,hpre⟩ := prefix_keys_entries keys pos (i+1) rest v hv
      exact ⟨key,j,by omega,hpre⟩
end

mutual
/-- Every node stands at a place of its own. -/
theorem visits_nodup (keys : List (List UInt8)) (pos : List ℕ) :
    ∀ node : Node, ((visits keys pos node).map Visit.pos).Nodup
  | .map entries => by
    rw [visits, List.map_cons, List.nodup_cons]
    refine ⟨fun hmem => ?_,visitEntries_nodup keys pos 0 entries⟩
    obtain ⟨v,hv,heq⟩ := List.mem_map.mp hmem
    obtain ⟨key,j,-,-,hpos⟩ := prefix_keys_entries keys pos 0 entries v hv
    have hlength : (pos++[j]).length ≤ pos.length := hpos.length_le.trans_eq (congrArg _ heq)
    rw [List.length_append, List.length_singleton] at hlength
    omega
  | .null => List.nodup_singleton _
  | .scalar _ => List.nodup_singleton _
  | .seq _ => List.nodup_singleton _
theorem visitEntries_nodup (keys : List (List UInt8)) (pos : List ℕ) (i : ℕ) :
    ∀ entries : List (List UInt8 × Node), ((visitEntries keys pos i entries).map Visit.pos).Nodup
  | [] => List.nodup_nil
  | (key,node) :: rest => by
    rw [visitEntries, List.map_append]
    refine List.nodup_append'.mpr ⟨visits_nodup _ _ node,visitEntries_nodup _ _ _ rest,?_⟩
    intro p hp hp'
    obtain ⟨v,hv,rfl⟩ := List.mem_map.mp hp
    obtain ⟨w,hw,heq⟩ := List.mem_map.mp hp'
    obtain ⟨-,hpos⟩ := prefix_keys _ _ node v hv
    obtain ⟨_,j,hj,-,hpos'⟩ := prefix_keys_entries _ _ _ rest w hw
    rw [heq] at hpos'
    have hsame := (List.prefix_of_prefix_length_le hpos hpos' (by simp)).eq_of_length (by simp)
    have hij : i = j := by simpa using hsame
    omega
end

end CoroutineWebserve.Yaml
