import CoroutineWebserve.Containers.Rebuild
import CoroutineWebserve.Log.Formatter
import CoroutineWebserve.Yaml.Node

/-!
# Values of configuration variables as YAML

`LexicalCast` writes a container as a sequence or a mapping of what it writes for the elements, and
reads it with what it reads for them. So containers may be nested.
-/
namespace CoroutineWebserve.Config
open Log (Bytes bytes)
open Yaml

/-- What a conversion throws. -/
inductive CastError
  | yaml (e : Node.Error)
  | invalidNode
  | badLexicalCast
deriving Repr, DecidableEq

/-- `YAML::Load`, the output of a node to a stream, and the outputs of `node[0]` up to
`node[node.size()-1]` for a mapping. -/
structure Library where
  Load : Bytes → Except CastError Node
  emit : Node → Bytes
  numbered : List (Bytes × Node) → List Bytes

/-- `LexicalCast<T, std::string>` and `LexicalCast<std::string, T>`. -/
structure LexicalCast (T : Type) where
  toString : T → Except CastError Bytes
  fromString : Bytes → Except CastError T

/-- `LexicalCast<std::string, std::string>`, which is `boost::lexical_cast`. -/
def castString : LexicalCast Bytes := ⟨.ok,.ok⟩

section casts
variable (Y : Library) {E T C : Type}

/-- `YAML::Load(LexicalCast<T, std::string>()(i))`. -/
def LexicalCast.load (c : LexicalCast T) (i : T) : Except CastError Node := do
  let text ← c.toString i
  Y.Load text

/-! ### Sequences -/

/-- What the loop over `node[i]` outputs. -/
def Library.texts : Node → List Bytes
  | .seq items => items.map Y.emit
  | .map entries => Y.numbered entries
  | .null | .scalar _ => []

def seqNode (K : Container E C) (c : LexicalCast E) (v : C) : Except CastError Node := do
  let items ← (K.iterate v).mapM (c.load Y)
  return .seq items

def castSeq (K : Container E C) (c : LexicalCast E) : LexicalCast C where
  toString v := do
    let node ← seqNode Y K c v
    return Y.emit node
  fromString v := do
    let node ← Y.Load v
    (Y.texts node).foldlM (fun vec text => do return K.insert vec (← c.fromString text)) K.empty

/-- `std::vector<T>`. -/
def castVector : LexicalCast T → LexicalCast (List T) := castSeq Y .pushBack

/-- `std::list<T>`. -/
def castList : LexicalCast T → LexicalCast (List T) := castSeq Y .pushBack

/-- `std::set<T>`, in the order of `operator<`. -/
def castSet (lt : T → T → Prop) [DecidableRel lt] [IsStrictOrder T lt] :
    LexicalCast T → LexicalCast (Container.Ordered lt) := castSeq Y (.ordered lt)

/-- `std::unordered_set<T>`. -/
def castUnorderedSet [DecidableEq T] (order : Container.Order T) :
    LexicalCast T → LexicalCast (Finset T) := castSeq Y (.unordered order)

/-! ### Mappings -/

/-- `node[key] = value`. -/
def assign (entries : List (Bytes × Node)) (e : Bytes × Node) : List (Bytes × Node) :=
  if e.1 ∈ entries.map Prod.fst then
    entries.map fun d => if d.1 = e.1 then (d.1,e.2) else d
  else entries++[e]

def mapNode (K : Container (Bytes × T) C) (c : LexicalCast T) (v : C) :
    Except CastError Node := do
  let entries ← (K.iterate v).foldlM
    (fun entries i => do return assign entries (i.1,← c.load Y i.2)) []
  return .map entries

/-- The loop from `node.begin()` to `node.end()`; in a sequence there is no `it->first`. -/
def fromEntries (K : Container (Bytes × T) C) (c : LexicalCast T) : Node → Except CastError C
  | .map entries => entries.foldlM
      (fun vec e => do return K.insert vec (e.1,← c.fromString (Y.emit e.2))) K.empty
  | .seq (_ :: _) => .error .invalidNode
  | .seq [] | .null | .scalar _ => .ok K.empty

def castMapping (K : Container (Bytes × T) C) (c : LexicalCast T) : LexicalCast C where
  toString v := do
    let node ← mapNode Y K c v
    return Y.emit node
  fromString v := do
    let node ← Y.Load v
    fromEntries Y K c node

/-- The order of the keys of a `std::map`. -/
def keyLess (d e : Bytes × T) : Prop := d.1 < e.1

instance : DecidableRel (keyLess : Bytes × T → Bytes × T → Prop) :=
  fun d e => inferInstanceAs (Decidable (d.1 < e.1))

instance : IsStrictOrder (Bytes × T) keyLess where
  irrefl d := List.lt_irrefl d.1
  trans _ _ _ := List.lt_trans

/-- `std::map<std::string, T>`. -/
def castMap : LexicalCast T → LexicalCast (Container.Ordered (keyLess (T := T))) :=
  castMapping Y (.ordered keyLess)

/-- `std::unordered_map<std::string, T>`. -/
def castUnorderedMap [DecidableEq T] (order : Container.Order (Bytes × T)) :
    LexicalCast T → LexicalCast (Container.Dictionary Bytes T) :=
  castMapping Y (.dictionary order)

end casts

/-! ### Variables -/

/-- `ConfigVar::toString`: an exception is logged. -/
def ConfigVar.toString {T : Type} (c : LexicalCast T) (m_val : T) : Bytes :=
  match c.toString m_val with
  | .ok text => text
  | .error _ => []

/-- `ConfigVar::fromString`: the value behind it. -/
def ConfigVar.fromString {T : Type} (c : LexicalCast T) (val : Bytes) (m_val : T) : T :=
  match c.fromString val with
  | .ok v => v
  | .error _ => m_val

/-! ### Round trips -/

section returns
variable (Y : Library) {E T C : Type}

/-- The text that is written for a value gives the value, and so does the output of its node. -/
def LexicalCast.Returns (c : LexicalCast T) (v : T) : Prop :=
  ∃ text n, c.toString v = .ok text ∧ Y.Load text = .ok n ∧ c.fromString text = .ok v ∧
    c.fromString (Y.emit n) = .ok v

/-- The output of the node is loaded as this node. -/
def Library.Reloads (n : Node) : Prop := Y.Load (Y.emit n) = .ok n

/-- The conversions for a type, with the values for which the library is relied on: what it outputs
for the nodes that are built for them, it loads. -/
inductive Castable : {T : Type} → LexicalCast T → (T → Prop) → Prop
  | leaf {T : Type} (c : LexicalCast T) : Castable c (c.Returns Y)
  | seq {E C : Type} {c : LexicalCast E} {P : E → Prop} (K : Container E C) (h : Castable c P) :
    Castable (castSeq Y K c) fun v =>
      (∀ x ∈ K.iterate v, P x) ∧ ∀ n, seqNode Y K c v = .ok n → Y.Reloads n
  | mapping {T C : Type} {c : LexicalCast T} {P : T → Prop} (K : Container (Bytes × T) C)
      (hkeys : ∀ v, ((K.iterate v).map Prod.fst).Nodup) (h : Castable c P) :
    Castable (castMapping Y K c) fun v =>
      (∀ e ∈ K.iterate v, P e.2) ∧ ∀ n, mapNode Y K c v = .ok n → Y.Reloads n

variable {Y}

theorem LexicalCast.Returns.load {c : LexicalCast T} {v : T} (h : c.Returns Y v) :
    ∃ n, c.load Y v = .ok n ∧ c.fromString (Y.emit n) = .ok v := by
  obtain ⟨text,n,htext,hload,-,hback⟩ := h
  refine ⟨n,?_,hback⟩
  rw [LexicalCast.load, htext]
  exact hload

/-- What is output is read back, if it is loaded as the node it is the output of. -/
theorem returns_of_node {c : LexicalCast T} {v : T} {n : Node} (hwrite : c.toString v = .ok (Y.emit n))
    (hread : c.fromString (Y.emit n) = .ok v) (h : Y.Reloads n) : c.Returns Y v :=
  ⟨Y.emit n,n,hwrite,h,hread,hread⟩

section seq
variable {c : LexicalCast E}

theorem mapM_load {l : List E} (h : ∀ x ∈ l, c.Returns Y x) :
    ∃ nodes, l.mapM (c.load Y) = .ok nodes ∧
      List.Forall₂ (fun x n => c.fromString (Y.emit n) = .ok x) l nodes := by
  induction l with
  | nil => exact ⟨[],rfl,.nil⟩
  | cons x l ih =>
    obtain ⟨n,hload,hback⟩ := (h x List.mem_cons_self).load
    obtain ⟨nodes,hrun,hall⟩ := ih fun y hy => h y (List.mem_cons_of_mem x hy)
    refine ⟨n :: nodes,?_,.cons hback hall⟩
    rw [List.mapM_cons, hload, hrun]
    rfl

theorem foldlM_texts {K : Container E C} {l : List E} {nodes : List Node}
    (h : List.Forall₂ (fun x n => c.fromString (Y.emit n) = .ok x) l nodes) (vec : C) :
    (nodes.map Y.emit).foldlM (fun vec text => do return K.insert vec (← c.fromString text)) vec =
      .ok (l.foldl K.insert vec) := by
  induction h generalizing vec with
  | nil => rfl
  | cons hback _ ih =>
    rw [List.map_cons, List.foldlM_cons, hback]
    exact ih _

theorem castSeq_returns {K : Container E C} {v : C} (h : ∀ x ∈ K.iterate v, c.Returns Y x)
    (hnode : ∀ n, seqNode Y K c v = .ok n → Y.Reloads n) : (castSeq Y K c).Returns Y v := by
  obtain ⟨nodes,hrun,hall⟩ := mapM_load h
  have hbuilt : seqNode Y K c v = .ok (.seq nodes) := by
    rw [seqNode, hrun]
    rfl
  have hreload := hnode _ hbuilt
  refine returns_of_node (n := .seq nodes) ?_ ?_ hreload
  · simp only [castSeq, hbuilt]
    rfl
  · have hfold := foldlM_texts (K := K) hall K.empty
    rw [K.rebuild] at hfold
    simp only [castSeq]
    rw [hreload]
    exact hfold

end seq

section mapping
variable {c : LexicalCast T}

theorem foldlM_assign {l : List (Bytes × T)} (h : ∀ e ∈ l, c.Returns Y e.2)
    (entries : List (Bytes × Node)) (hkeys : (entries.map Prod.fst++l.map Prod.fst).Nodup) :
    ∃ more, l.foldlM (fun entries i => do return assign entries (i.1,← c.load Y i.2)) entries =
        .ok (entries++more) ∧
      List.Forall₂ (fun e d => d.1 = e.1 ∧ c.fromString (Y.emit d.2) = .ok e.2) l more := by
  induction l generalizing entries with
  | nil => exact ⟨[],by simp; rfl,.nil⟩
  | cons e l ih =>
    obtain ⟨n,hload,hback⟩ := (h e List.mem_cons_self).load
    have hnew : e.1 ∉ entries.map Prod.fst := fun hmem =>
      (List.nodup_append'.mp hkeys).2.2 hmem List.mem_cons_self
    have hassign : assign entries (e.1,n) = entries++[(e.1,n)] := if_neg hnew
    obtain ⟨more,hrun,hall⟩ := ih (fun d hd => h d (List.mem_cons_of_mem e hd))
      (entries++[(e.1,n)]) (by simpa using hkeys)
    refine ⟨(e.1,n) :: more,?_,.cons ⟨rfl,hback⟩ hall⟩
    rw [List.foldlM_cons, hload]
    change l.foldlM _ (assign entries (e.1,n)) = _
    rw [hassign, hrun, List.append_assoc, List.singleton_append]

theorem foldlM_entries {K : Container (Bytes × T) C} {l : List (Bytes × T)}
    {entries : List (Bytes × Node)}
    (h : List.Forall₂ (fun e d => d.1 = e.1 ∧ c.fromString (Y.emit d.2) = .ok e.2) l entries)
    (vec : C) :
    entries.foldlM (fun vec e => do return K.insert vec (e.1,← c.fromString (Y.emit e.2))) vec =
      .ok (l.foldl K.insert vec) := by
  induction h generalizing vec with
  | nil => rfl
  | @cons e d _ _ hback _ ih =>
    rw [List.foldlM_cons, hback.2, hback.1]
    exact ih _

theorem castMapping_returns {K : Container (Bytes × T) C} {v : C}
    (hkeys : ((K.iterate v).map Prod.fst).Nodup) (h : ∀ e ∈ K.iterate v, c.Returns Y e.2)
    (hnode : ∀ n, mapNode Y K c v = .ok n → Y.Reloads n) : (castMapping Y K c).Returns Y v := by
  obtain ⟨entries,hrun,hall⟩ := foldlM_assign h [] hkeys
  have hbuilt : mapNode Y K c v = .ok (.map entries) := by
    rw [mapNode, hrun]
    rfl
  have hreload := hnode _ hbuilt
  refine returns_of_node (n := .map entries) ?_ ?_ hreload
  · simp only [castMapping, hbuilt]
    rfl
  · have hfold := foldlM_entries (K := K) hall K.empty
    rw [K.rebuild] at hfold
    simp only [castMapping]
    rw [hreload]
    exact hfold

end mapping

theorem Castable.returns {c : LexicalCast T} {P : T → Prop} (h : Castable Y c P) {v : T} (hv : P v) :
    c.Returns Y v := by
  induction h with
  | leaf c => exact hv
  | seq K _ ih => exact castSeq_returns (fun x hx => ih (hv.1 x hx)) hv.2
  | mapping K hkeys _ ih => exact castMapping_returns (hkeys v) (fun e he => ih (hv.1 e he)) hv.2

namespace Castable
variable {c : LexicalCast T} {P : T → Prop} (h : Castable Y c P)

theorem nodup_ordered (v : Container.Ordered (keyLess (T := T))) : (v.val.map Prod.fst).Nodup := by
  refine List.pairwise_map.mpr (v.property.imp fun {d e} hlt heq => ?_)
  rw [keyLess, heq] at hlt
  exact List.lt_irrefl _ hlt

theorem nodup_dictionary [DecidableEq T] (order : Container.Order (Bytes × T))
    (v : Container.Dictionary Bytes T) : ((order.list v.val).map Prod.fst).Nodup := by
  refine (order.nodup v.val).map_on fun d hd e he heq => ?_
  have hmem : ∀ x ∈ order.list v.val, x ∈ v.val := fun x hx => by
    rw [← order.toFinset v.val]
    exact List.mem_toFinset.mpr hx
  exact v.property (hmem d hd) (hmem e he) heq

include h

theorem vector : Castable Y (castVector Y c) fun v =>
    (∀ x ∈ v, P x) ∧ ∀ n, seqNode Y .pushBack c v = .ok n → Y.Reloads n := .seq _ h

theorem list : Castable Y (castList Y c) fun v =>
    (∀ x ∈ v, P x) ∧ ∀ n, seqNode Y .pushBack c v = .ok n → Y.Reloads n := .seq _ h

theorem set (lt : T → T → Prop) [DecidableRel lt] [IsStrictOrder T lt] :
    Castable Y (castSet Y lt c) fun v =>
      (∀ x ∈ v.val, P x) ∧ ∀ n, seqNode Y (.ordered lt) c v = .ok n → Y.Reloads n := .seq _ h

theorem unorderedSet [DecidableEq T] (order : Container.Order T) :
    Castable Y (castUnorderedSet Y order c) fun v =>
      (∀ x ∈ order.list v, P x) ∧ ∀ n, seqNode Y (.unordered order) c v = .ok n → Y.Reloads n :=
  .seq _ h

theorem map : Castable Y (castMap Y c) fun v =>
    (∀ e ∈ v.val, P e.2) ∧ ∀ n, mapNode Y (.ordered keyLess) c v = .ok n → Y.Reloads n :=
  .mapping _ nodup_ordered h

theorem unorderedMap [DecidableEq T] (order : Container.Order (Bytes × T)) :
    Castable Y (castUnorderedMap Y order c) fun v =>
      (∀ e ∈ order.list v.val, P e.2) ∧
        ∀ n, mapNode Y (.dictionary order) c v = .ok n → Y.Reloads n :=
  .mapping _ (nodup_dictionary order) h

end Castable
end returns

/-! ### Lists of strings under keys -/

def listsText : Bytes := bytes "a:\n  - x\n  - y"
def listText : Bytes := bytes "- x\n- y"
def listNode : Node := .seq [.scalar (bytes "x"),.scalar (bytes "y")]

/-- The library on the nodes of one value. -/
def twoStrings : Library where
  Load v :=
    if v = listsText then .ok (.map [(bytes "a",listNode)])
    else if v = listText then .ok listNode
    else .ok (.scalar v)
  emit
    | .scalar text => text
    | .map _ => listsText
    | .seq _ | .null => listText
  numbered _ := []

end CoroutineWebserve.Config
