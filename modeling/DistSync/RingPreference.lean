/-
**The nodes of a key, in order of preference.**

`get_nodes` of `utils/hashing.py` walks around the ring from the point after a key and collects the
nodes that it meets, each once, until it has as many as it was asked for.  The order in which it
meets them is the key's order of preference: its first node is the owner that `get_node` returns,
and the answers for different counts are beginnings of it.

When a node leaves, it is struck out of the order of every key, and nothing else changes.  So a key
that it did not own keeps its owner, and a key that it owned goes to the next node of its order.

Main definitions:

* `ConsistentHashRing.getNodes` — the walk;
* `ConsistentHashRing.preferences` — **the order of preference**.

Main results:

* `ConsistentHashRing.getNodes_eq` — the walk returns the beginning of the order;
* `ConsistentHashRing.mem_preferences` — every node occurs in it;
* `ConsistentHashRing.preferences_filter` — **a node that leaves is struck out of the order**;
* `ConsistentHashRing.getNodes_walk`, `ConsistentHashRing.minimal_disruption`.
-/

import DistSync.ConsistentHashRing
import DistSync.FirstOccurrences
import DistSync.HashRingWalk
import Mathlib.Data.Finset.Insert

set_option relaxedAutoImplicit false
set_option autoImplicit false

namespace ConsistentHashRing

open FirstOccurrences HashRing

/-! ### The walk -/

/-- `self.ring[self.sorted_keys[position]]`. -/
def nodeAt (r : ConsistentHashRing) (position : ℕ) : Option String :=
  r.sortedKeys[position]?.bind r.ring.get?

/-- The loop of `get_nodes`, over the offsets that are left. -/
def collect (r : ConsistentHashRing) (index : ℕ) (count : ℤ) :
    List ℕ → Finset String → List String → Option (List String)
  | [], _, result => some result
  | offset :: offsets, seen, result =>
      match r.nodeAt ((index + offset) % r.sortedKeys.length) with
      | none => none
      | some node =>
          let (seen, result) :=
            if node ∉ seen then (insert node seen, result ++ [node]) else (seen, result)
          if count ≤ result.length then some result
          else r.collect index count offsets seen result

/-- `get_nodes`. -/
def getNodes (r : ConsistentHashRing) (key : String) (count : ℤ) : Option (List String) :=
  if r.sortedKeys.isEmpty = true ∨ count ≤ 0 then some []
  else
    let index := bisectRight r.sortedKeys (hash key)
    let index := if index = r.sortedKeys.length then 0 else index
    r.collect index count (List.range r.sortedKeys.length) ∅ []

/-- The nodes of the points, in the order in which the points are met after a key. -/
def owners (r : ConsistentHashRing) (key : String) : List String :=
  (around r.sortedKeys (hash key)).filterMap r.ring.get?

/-- **The order of preference of a key.** -/
def preferences (r : ConsistentHashRing) (key : String) : List String :=
  (r.owners key).eraseDups

/-- **The loop of `get_nodes`**, when it will meet the nodes `nodes`: it returns the first `count` of
the different nodes among those that it has and those that it meets. -/
theorem collect_eq {r : ConsistentHashRing} {index count : ℕ} (offsets : List ℕ)
    (nodes : List String) (seen : Finset String) (result : List String)
    (hnodes : offsets.map (fun offset => r.nodeAt ((index + offset) % r.sortedKeys.length)) =
      nodes.map some)
    (hseen : ∀ node, node ∈ seen ↔ node ∈ result) (hnodup : result.Nodup)
    (hlength : result.length < count) :
    r.collect index count offsets seen result =
      some ((result ++ nodes).eraseDups.take count) := by
  induction offsets generalizing nodes seen result with
  | nil =>
      obtain rfl : nodes = [] := by simpa using hnodes.symm
      rw [collect, List.append_nil, eraseDups_of_nodup hnodup, List.take_of_length_le hlength.le]
  | cons offset offsets ih =>
      cases nodes with
      | nil => cases hnodes
      | cons node nodes =>
          obtain ⟨hnode, hrest⟩ := List.cons.inj hnodes
          rw [collect, show r.nodeAt _ = some node from hnode]
          by_cases hmem : node ∈ seen
          · -- a node that was met before
            have hlt : ¬ (count : ℤ) ≤ result.length := by omega
            simp only [hmem, not_true_eq_false, if_false, hlt]
            rw [ih nodes seen result hrest hseen hnodup hlength,
              eraseDups_append_cons_of_mem ((hseen node).1 hmem)]
          · have hnodup' : (result ++ [node]).Nodup := by
              rw [List.nodup_append]
              refine ⟨hnodup, List.nodup_singleton node, fun a ha b hb => ?_⟩
              rintro rfl
              rw [List.mem_singleton.1 hb] at ha
              exact hmem ((hseen node).2 ha)
            have hcons : result ++ node :: nodes = (result ++ [node]) ++ nodes := by
              rw [List.append_assoc, List.singleton_append]
            have hlength' : (result ++ [node]).length = result.length + 1 := List.length_append
            simp only [hmem, not_false_eq_true, if_true]
            rw [hcons]
            by_cases hfull : (count : ℤ) ≤ (result ++ [node]).length
            · -- the walk ends here
              have hcount : count = (result ++ [node]).length := by omega
              rw [if_pos hfull, hcount, take_eraseDups_append hnodup']
            · rw [if_neg hfull]
              refine ih nodes _ _ hrest (fun a => ?_) hnodup' (by omega)
              rw [Finset.mem_insert, hseen, List.mem_append, List.mem_singleton, or_comm]

/-! ### What `get_nodes` returns -/

/-- Where all values are there, none is left out. -/
theorem map_eq_map_some_filterMap {α β : Type*} {f : α → Option β} {l : List α}
    (hl : ∀ a ∈ l, ∃ b, f a = some b) : l.map f = (l.filterMap f).map some := by
  induction l with
  | nil => rfl
  | cons a l ih =>
      obtain ⟨⟨b, hb⟩, hl⟩ := List.forall_mem_cons.1 hl
      rw [List.map_cons, List.filterMap_cons_some hb, List.map_cons, hb, ih hl]

section Preferences

variable {r : ConsistentHashRing} {nodes : List String}

/-- Every point in the list has an owner. -/
theorem get?_of_mem (hinj : Set.InjOn hash (pointsOf nodes r.replicas)) {key : ℕ}
    (hkey : key ∈ (r.setNodes nodes).sortedKeys) :
    ∃ node ∈ nodes, (r.setNodes nodes).ring.get? key = some node := by
  obtain ⟨node, hnode, replica, hreplica, rfl⟩ := mem_sortedKeys.1 hkey
  exact ⟨node, hnode, get?_setNodes hinj hnode hreplica⟩

/-- The points that the walk meets, offset by offset. -/
theorem map_nodeAt (hinj : Set.InjOn hash (pointsOf nodes r.replicas)) (key : String) :
    (List.range (r.setNodes nodes).sortedKeys.length).map (fun offset =>
      (r.setNodes nodes).nodeAt
        (((if bisectRight (r.setNodes nodes).sortedKeys (hash key) =
            (r.setNodes nodes).sortedKeys.length then 0
          else bisectRight (r.setNodes nodes).sortedKeys (hash key)) + offset) %
            (r.setNodes nodes).sortedKeys.length)) =
      ((r.setNodes nodes).owners key).map some := by
  have hpoints : ∀ p ∈ around (r.setNodes nodes).sortedKeys (hash key),
      ∃ node, (r.setNodes nodes).ring.get? p = some node := fun p hp => by
    obtain ⟨node, -, hget⟩ := get?_of_mem hinj (mem_around.1 hp)
    exact ⟨node, hget⟩
  rw [owners, ← map_eq_map_some_filterMap hpoints]
  refine List.ext_getElem ?_ fun offset hoffset hoffset' => ?_
  · rw [List.length_map, List.length_range, List.length_map, length_around]
  rw [List.length_map, List.length_range] at hoffset
  rw [List.getElem_map, List.getElem_range, List.getElem_map, nodeAt,
    getElem?_around sorted_setNodes _ hoffset, List.getElem?_eq_getElem]
  rfl

/-- **`get_nodes` returns the beginning of the order of preference.** -/
theorem getNodes_eq (hinj : Set.InjOn hash (pointsOf nodes r.replicas)) (key : String)
    (count : ℤ) :
    (r.setNodes nodes).getNodes key count =
      some (((r.setNodes nodes).preferences key).take count.toNat) := by
  unfold getNodes
  split
  · next h =>
      rcases h with hempty | hcount
      · have hnone : around ([] : List ℕ) (hash key) = [] := by
          rw [around, List.drop_nil, List.take_nil, List.append_nil]
        rw [preferences, owners, List.isEmpty_iff.1 hempty, hnone, List.filterMap_nil,
          List.eraseDups_nil, List.take_nil]
      · rw [Int.toNat_eq_zero.2 hcount, List.take_zero]
  · next h =>
      obtain ⟨hempty, hcount⟩ := not_or.1 h
      obtain ⟨n, rfl⟩ := Int.eq_ofNat_of_zero_le (Int.le_of_lt (not_le.1 hcount))
      refine collect_eq _ _ ∅ [] (map_nodeAt hinj key) (by simp) List.nodup_nil ?_
      rw [List.length_nil]
      omega

/-- The owner of a key is the first node of its order. -/
theorem getNode_eq_head? (hinj : Set.InjOn hash (pointsOf nodes r.replicas)) (key : String) :
    (r.setNodes nodes).getNode key = ((r.setNodes nodes).preferences key).head? := by
  rw [getNode_eq, preferences, head?_eraseDups, owners, ← head?_around sorted_setNodes]
  cases haround : around (r.setNodes nodes).sortedKeys (hash key) with
  | nil => rfl
  | cons p rest =>
      have hp : p ∈ (r.setNodes nodes).sortedKeys :=
        mem_around.1 (haround ▸ List.mem_cons_self)
      obtain ⟨node, -, hget⟩ := get?_of_mem hinj hp
      rw [List.filterMap_cons_some hget]
      exact hget

/-- **Every node occurs in the order**, and no other one. -/
theorem mem_preferences (hinj : Set.InjOn hash (pointsOf nodes r.replicas))
    (hreplicas : 0 < r.replicas) {key node : String} :
    node ∈ (r.setNodes nodes).preferences key ↔ node ∈ nodes := by
  rw [preferences, List.mem_eraseDups, owners, List.mem_filterMap]
  constructor
  · rintro ⟨p, hp, hget⟩
    obtain ⟨node', hnode', hget'⟩ := get?_of_mem hinj (mem_around.1 hp)
    rwa [Option.some_inj.1 (hget.symm.trans hget')]
  · intro hnode
    exact ⟨_, mem_around.2 (mem_sortedKeys.2 ⟨node, hnode, 0, hreplicas, rfl⟩),
      get?_setNodes hinj hnode hreplicas⟩

/-! ### A node leaves -/

/-- With fewer nodes there are fewer points. -/
theorem injOn_filter (hinj : Set.InjOn hash (pointsOf nodes r.replicas)) (node : String) :
    Set.InjOn hash (pointsOf (nodes.filter (· ≠ node)) r.replicas) :=
  hinj.mono (by
    rintro value ⟨id, hid, replica, hreplica, rfl⟩
    exact ⟨id, List.mem_of_mem_filter hid, replica, hreplica, rfl⟩)

theorem pairs_filter (nodes : List String) (replicas : ℕ) (node : String) :
    pairs (nodes.filter (· ≠ node)) replicas =
      (pairs nodes replicas).filter (·.1 ≠ node) := by
  induction nodes with
  | nil => rfl
  | cons id nodes ih =>
      have hcons : ∀ nodes, pairs (id :: nodes) replicas =
          (List.range replicas).map (Prod.mk id) ++ pairs nodes replicas := fun _ => rfl
      by_cases hid : id = node
      · have hnone : ((List.range replicas).map (Prod.mk id)).filter (·.1 ≠ node) = [] := by
          simp [List.filter_map, Function.comp_def, hid]
        rw [hcons, List.filter_append, hnone, List.nil_append, ← ih, List.filter_cons_of_neg (by
          simpa using hid)]
      · have hall : ((List.range replicas).map (Prod.mk id)).filter (·.1 ≠ node) =
            (List.range replicas).map (Prod.mk id) := by
          simp [List.filter_map, Function.comp_def, hid]
        rw [hcons, List.filter_append, hall, ← ih, List.filter_cons_of_pos (by simpa using hid),
          hcons]

/-- A point of another node keeps its owner. -/
theorem get?_setNodes_filter (hinj : Set.InjOn hash (pointsOf nodes r.replicas)) (node : String)
    {p : ℕ} (hp : p ∈ (r.setNodes nodes).sortedKeys)
    (howner : (r.setNodes nodes).ring.get? p ≠ some node) :
    (r.setNodes (nodes.filter (· ≠ node))).ring.get? p = (r.setNodes nodes).ring.get? p := by
  obtain ⟨id, hid, replica, hreplica, rfl⟩ := mem_sortedKeys.1 hp
  have hget := get?_setNodes hinj hid hreplica
  have hne : id ≠ node := fun h => howner (h ▸ hget)
  rw [hget, get?_setNodes (injOn_filter hinj node)
    (List.mem_filter.2 ⟨hid, decide_eq_true hne⟩) hreplica]

/-- The points of the other nodes are the points that another node owns. -/
theorem sortedKeys_filter (hinj : Set.InjOn hash (pointsOf nodes r.replicas)) (node : String) :
    (r.setNodes (nodes.filter (· ≠ node))).sortedKeys =
      (r.setNodes nodes).sortedKeys.filter
        (fun p => (r.setNodes nodes).ring.get? p ≠ some node) := by
  refine List.Perm.eq_of_pairwise (fun a b _ _ hab hba => le_antisymm hab hba) sorted_setNodes
    (sorted_setNodes.filter _) ?_
  have hkeys : ∀ nodes, ((pairs nodes r.replicas).map fun p => hash (point p.1 p.2)).Perm
      (r.setNodes nodes).sortedKeys := fun nodes => by
    rw [setNodes_eq]
    exact (List.perm_insertionSort _ _).symm
  refine (hkeys _).symm.trans (List.Perm.trans ?_ ((hkeys nodes).filter _))
  rw [pairs_filter, List.filter_map]
  refine List.Perm.of_eq (congrArg _ (List.filter_congr fun p hp => ?_))
  obtain ⟨hnode, hreplica⟩ := mem_pairs.1 hp
  rw [Function.comp_apply, get?_setNodes hinj hnode hreplica]
  simp

/-- **A node that leaves is struck out of the order of every key**, and nothing else changes. -/
theorem preferences_filter (hinj : Set.InjOn hash (pointsOf nodes r.replicas)) (node key : String) :
    (r.setNodes (nodes.filter (· ≠ node))).preferences key =
      ((r.setNodes nodes).preferences key).filter (· ≠ node) := by
  rw [preferences, preferences, filter_eraseDups, owners, owners, sortedKeys_filter hinj,
    ← filter_around sorted_setNodes, List.filterMap_filter, List.filter_filterMap]
  congr 1
  refine List.filterMap_congr fun p hp => ?_
  have hp' := mem_around.1 hp
  by_cases howner : (r.setNodes nodes).ring.get? p = some node
  · simp [howner, Option.filter]
  · obtain ⟨id, -, hid⟩ := get?_of_mem hinj hp'
    have hne : id ≠ node := fun h => howner (h ▸ hid)
    rw [get?_setNodes_filter hinj node hp' howner, hid]
    simp [hne, Option.filter]

/-- The ring is built anew. -/
theorem setNodes_setNodes (r : ConsistentHashRing) (nodes nodes' : List String) :
    (r.setNodes nodes).setNodes nodes' = r.setNodes nodes' := by
  rw [setNodes_eq, setNodes_eq, setNodes_eq]

/-- The order holds as many nodes as there are. -/
theorem length_preferences (hinj : Set.InjOn hash (pointsOf nodes r.replicas))
    (hreplicas : 0 < r.replicas) (key : String) :
    ((r.setNodes nodes).preferences key).length = nodes.dedup.length :=
  length_eraseDups_of_mem_iff fun node => by
    rw [← mem_preferences hinj hreplicas, preferences, List.mem_eraseDups]

end Preferences

/-! ### Counts, and a node that leaves -/

section Walk

variable {r : ConsistentHashRing} {nodes : List String}

/-- **What `get_nodes` returns**: different nodes, as many as were asked for or all, the owner of the
key first; with a greater count it returns the same nodes and then more. -/
theorem getNodes_walk (hinj : Set.InjOn hash (pointsOf nodes r.replicas))
    (hreplicas : 0 < r.replicas) (hnodes : nodes ≠ []) (key : String) {count count' : ℤ}
    (hcount : 0 < count) (hle : count ≤ count') :
    ∃ result result' node,
      (r.setNodes nodes).getNodes key count = some result ∧
      (r.setNodes nodes).getNodes key count' = some result' ∧
      (r.setNodes nodes).getNode key = some node ∧
      result.Nodup ∧ (result.length : ℤ) = min count nodes.dedup.length ∧
      result.head? = some node ∧ result <+: result' := by
  obtain ⟨node, -, -, -, -, hnode⟩ := exists_getNode hinj hnodes hreplicas key
  have hlength := length_preferences hinj hreplicas key
  refine ⟨_, _, node, getNodes_eq hinj key count, getNodes_eq hinj key count', hnode,
    (List.take_sublist _ _).nodup (nodup_eraseDups _), ?_, ?_, ?_⟩
  · rw [List.length_take, hlength]
    omega
  · rw [List.head?_take, if_neg (by omega), ← getNode_eq_head? hinj, hnode]
  · exact List.take_prefix_take_left (by omega)

end Walk

/-- A ring of three nodes, one of them named twice, with one point for each name. -/
def threeNodes : List String := ["a", "b", "a", "c"]

theorem injOn_hash_threeNodes : Set.InjOn hash (pointsOf threeNodes 1) :=
  injOn_hash_of_nodup (by decide +kernel)

theorem getNodes_walk_threeNodes : ∃ result result' node,
    (setNodes ⟨1, ∅, []⟩ threeNodes).getNodes "k" 2 = some result ∧
    (setNodes ⟨1, ∅, []⟩ threeNodes).getNodes "k" 5 = some result' ∧
    (setNodes ⟨1, ∅, []⟩ threeNodes).getNode "k" = some node ∧
    result.Nodup ∧ (result.length : ℤ) = min 2 (threeNodes.dedup.length : ℕ) ∧
    result.head? = some node ∧ result <+: result' :=
  getNodes_walk injOn_hash_threeNodes (by decide) (by decide) "k" (by decide) (by decide)

section Leave

variable {r : ConsistentHashRing} {nodes : List String}

/-- **A node leaves, and only its keys move**: each to the next node of its order. -/
theorem minimal_disruption (hinj : Set.InjOn hash (pointsOf nodes r.replicas))
    (hreplicas : 0 < r.replicas) {node : String} (hnode : node ∈ nodes) (key : String) :
    let full := r.setNodes nodes
    let rest := full.setNodes (nodes.filter (· ≠ node))
    (full.getNode key ≠ some node → rest.getNode key = full.getNode key) ∧
      (full.getNode key = some node → ∃ order,
        full.getNodes key nodes.dedup.length = some order ∧
          rest.getNode key = order.find? (· ≠ node)) ∧
      (rest.getNode key = none ↔ ∀ id ∈ nodes, id = node) := by
  intro full rest
  have hrest : rest.getNode key = (full.preferences key).find? (· ≠ node) := by
    show ((r.setNodes nodes).setNodes _).getNode key = _
    rw [setNodes_setNodes, getNode_eq_head? (injOn_filter hinj node), preferences_filter hinj,
      List.head?_filter]
  refine ⟨fun howner => ?_, fun howner => ?_, ?_⟩
  · obtain ⟨owner, -, -, -, -, hget⟩ :=
      exists_getNode hinj (List.ne_nil_of_mem hnode) hreplicas key
    have hhead := getNode_eq_head? hinj key
    rw [hget] at hhead
    obtain ⟨others, horder⟩ := List.head?_eq_some_iff.1 hhead.symm
    have hne : owner ≠ node := fun h => howner (h ▸ hget)
    rw [hrest, show full.getNode key = some owner from hget,
      show full.preferences key = owner :: others from horder,
      List.find?_cons_of_pos (by simpa using hne)]
  · refine ⟨_, getNodes_eq hinj key _, ?_⟩
    rw [hrest, Int.toNat_natCast, ← length_preferences hinj hreplicas key, List.take_length]
  · rw [hrest, List.find?_eq_none]
    simp only [ne_eq, decide_not, Bool.not_eq_true, Bool.not_eq_false', decide_eq_true_eq]
    exact forall_congr' fun id => by
      rw [show id ∈ full.preferences key ↔ id ∈ nodes from mem_preferences hinj hreplicas]

end Leave

/-- The key of the node that leaves goes to the next node. -/
theorem minimal_disruption_threeNodes :
    (setNodes ⟨1, ∅, []⟩ threeNodes).getNode "k" = some "b" ∧ ∃ order,
      (setNodes ⟨1, ∅, []⟩ threeNodes).getNodes "k" 3 = some order ∧
        ((setNodes ⟨1, ∅, []⟩ threeNodes).setNodes ["a", "a", "c"]).getNode "k" =
          order.find? (· ≠ "b") := by
  have howner : (setNodes ⟨1, ∅, []⟩ threeNodes).getNode "k" = some "b" := by decide +kernel
  exact ⟨howner, (minimal_disruption (r := ⟨1, ∅, []⟩) injOn_hash_threeNodes (by decide)
    (show "b" ∈ threeNodes by decide) "k").2.1 howner⟩

end ConsistentHashRing
