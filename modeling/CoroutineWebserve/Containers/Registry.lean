import Mathlib.Data.List.Induction
import Mathlib.Data.List.Nodup
import Mathlib.Logic.Function.Basic
import Mathlib.Tactic.Common

/-!
# Tables and the changes that made them

A change sets the value of a key or removes it. What a table holds is told by its changes: the last
change of a key says what its value is, and the last registrations say in which order the keys
stand in a vector to whose end they are moved.
-/
namespace CoroutineWebserve.Registry
variable {K V : Type*}

inductive Change (K V : Type*)
  | set (k : K) (v : V)
  | remove (k : K)

namespace Change

def key : Change K V → K
  | set k _ => k
  | remove k => k

def value : Change K V → Option V
  | set _ v => some v
  | remove _ => none

/-- What a change adds to a vector. -/
def entries : Change K V → List (K × V)
  | set k v => [(k,v)]
  | remove _ => []

theorem mem_entries {c : Change K V} {k : K} {v : V} :
    (k,v) ∈ c.entries ↔ c.key = k ∧ c.value = some v := by
  cases c <;> simp [entries, key, value, eq_comm]

end Change

variable [DecidableEq K]

theorem Change.filter_entries (c : Change K V) (k : K) :
    c.entries.filter (fun e => e.1 ≠ k) = if c.key = k then [] else c.entries := by
  cases c with
  | set k' v => by_cases hk : k' = k <;> simp [entries, key, hk]
  | remove k' => simp [entries]

/-- The value that the last change of the key has left. -/
def latest (h : List (Change K V)) (k : K) : Option V :=
  (h.reverse.find? fun c => c.key = k).bind Change.value

/-- The registrations that no later change of the same key follows, in their order. -/
def live : List (Change K V) → List (K × V)
  | [] => []
  | c :: later => if ∃ d ∈ later, d.key = c.key then live later else c.entries++live later

/-- A change of a vector: the entry of the key goes, and a new one comes to the end. -/
def change (l : List (K × V)) (c : Change K V) : List (K × V) :=
  l.eraseP (fun e => e.1 = c.key)++c.entries

@[simp] theorem latest_nil (k : K) : latest ([] : List (Change K V)) k = none := rfl

theorem latest_concat (h : List (Change K V)) (c : Change K V) (k : K) :
    latest (h++[c]) k = if c.key = k then c.value else latest h k := by
  simp only [latest, List.reverse_append, List.reverse_singleton, List.singleton_append,
    List.find?_cons]
  by_cases hk : c.key = k <;> simp [hk]

/-- A map whose values are set and removed. -/
theorem foldl_update_eq_latest (h : List (Change K V)) :
    h.foldl (fun m c => Function.update m c.key c.value) (fun _ => none) = latest h := by
  induction h using List.reverseRecOn with
  | nil => rfl
  | append_singleton h c ih =>
    rw [List.foldl_append, ih]
    funext k
    rw [latest_concat]
    by_cases hk : c.key = k
    · simp [hk]
    · simp [hk, Function.update_of_ne (Ne.symm hk)]

theorem live_concat (h : List (Change K V)) (c : Change K V) :
    live (h++[c]) = (live h).filter (fun e => e.1 ≠ c.key)++c.entries := by
  induction h with
  | nil => simp [live]
  | cons d h ih =>
    have hlater : (∃ e ∈ h++[c], e.key = d.key) ↔ (∃ e ∈ h, e.key = d.key) ∨ d.key = c.key := by
      simp [or_and_right, exists_or, eq_comm]
    rw [List.cons_append, live, live, ih]
    by_cases hd : ∃ e ∈ h, e.key = d.key
    · rw [if_pos (hlater.mpr (.inl hd)), if_pos hd]
    · rw [if_neg hd, List.filter_append, Change.filter_entries]
      by_cases hc : d.key = c.key
      · rw [if_pos (hlater.mpr (.inr hc)), if_pos hc, List.nil_append]
      · rw [if_neg (mt hlater.mp (not_or.mpr ⟨hd,hc⟩)), if_neg hc, List.append_assoc]

/-- An entry of the vector is what the last change of its key has set. -/
theorem mem_live_iff {h : List (Change K V)} {k : K} {v : V} :
    (k,v) ∈ live h ↔ latest h k = some v := by
  induction h using List.reverseRecOn with
  | nil => simp [live]
  | append_singleton h c ih =>
    rw [live_concat, latest_concat, List.mem_append, List.mem_filter, Change.mem_entries, ih]
    by_cases hk : c.key = k
    · simp [hk]
    · simp [hk, Ne.symm hk]

/-- No two entries have one key. -/
theorem nodup_live (h : List (Change K V)) : ((live h).map Prod.fst).Nodup := by
  induction h using List.reverseRecOn with
  | nil => exact List.nodup_nil
  | append_singleton h c ih =>
    have hsub : List.Sublist (((live h).filter fun e => e.1 ≠ c.key).map Prod.fst)
        ((live h).map Prod.fst) := List.filter_sublist.map _
    rw [live_concat, List.map_append]
    refine List.nodup_append'.mpr ⟨ih.sublist hsub,?_,?_⟩
    · cases c <;> simp [Change.entries]
    · intro k hk hc
      obtain ⟨⟨k₁,v₁⟩,he,rfl⟩ := List.mem_map.mp hk
      obtain ⟨⟨k₂,v₂⟩,hd,hkey⟩ := List.mem_map.mp hc
      have hne := (List.mem_filter.mp he).2
      have heq := (Change.mem_entries.mp hd).1
      simp_all

theorem find_live (h : List (Change K V)) (k : K) :
    ((live h).find? fun e => e.1 = k).map Prod.snd = latest h k := by
  cases hfind : (live h).find? fun e => e.1 = k with
  | none =>
    cases hlatest : latest h k with
    | none => rfl
    | some v =>
      have hmem := mem_live_iff.mpr hlatest
      simpa using List.find?_eq_none.mp hfind _ hmem
  | some e =>
    have hkey : e.1 = k := by simpa using List.find?_some hfind
    have hlatest : latest h e.1 = some e.2 := mem_live_iff.mp (List.mem_of_find?_eq_some hfind)
    rw [← hkey, hlatest, Option.map_some]

/-- Where no two entries have one key, the first entry of a key is the only one. -/
theorem eraseP_eq_filter {l : List (K × V)} (hl : (l.map Prod.fst).Nodup) (k : K) :
    l.eraseP (fun e => e.1 = k) = l.filter fun e => e.1 ≠ k := by
  induction l with
  | nil => rfl
  | cons e l ih =>
    obtain ⟨he,hl⟩ := List.nodup_cons.mp hl
    by_cases hk : e.1 = k
    · have hnot : ∀ d ∈ l, d.1 ≠ k := by
        intro d hd hdk
        exact he (hk ▸ hdk ▸ List.mem_map_of_mem hd)
      rw [List.eraseP_cons_of_pos (by simpa using hk), List.filter_cons_of_neg (by simpa using hk)]
      exact (List.filter_eq_self.mpr fun d hd => by simpa using hnot d hd).symm
    · rw [List.eraseP_cons_of_neg (by simpa using hk), List.filter_cons_of_pos (by simpa using hk),
        ih hl]

/-- A vector from which the key is erased before it is put at the end. -/
theorem foldl_change_eq_live (h : List (Change K V)) : h.foldl change [] = live h := by
  induction h using List.reverseRecOn with
  | nil => rfl
  | append_singleton h c ih =>
    rw [List.foldl_append, ih, live_concat]
    exact congrArg (·++c.entries) (eraseP_eq_filter (nodup_live h) c.key)

end CoroutineWebserve.Registry
