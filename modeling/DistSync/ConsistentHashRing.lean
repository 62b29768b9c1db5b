/-
**The consistent hash ring.**

This module is a transcription of `ConsistentHashRing` in `utils/hashing.py`.  Every node has a
number of points on the ring, the hashes of its id with a replica number, and a key belongs to the
node of the next point after its own hash.

A queue node builds its ring from its own id followed by the ids of its peers, so two nodes build it
from different lists, in which ids may occur several times; then the sorted list of points holds
their points several times too.  None of this matters as long as the hash gives every point to one
id only: which node a key belongs to depends on the set of ids alone.

Main definitions:

* `ConsistentHashRing.setNodes`, `ConsistentHashRing.getNode`;
* `ConsistentHashRing.hash` — the SHA-1 digest of a string, as a number;
* `ConsistentHashRing.pointsOf` — the strings that are hashed for a list of nodes.

Main results:

* `ConsistentHashRing.get?_setNodes` — a point belongs to the node it was made for;
* `ConsistentHashRing.getNode_congr` — **lists with the same ids make rings with the same owners**;
* `ConsistentHashRing.exists_getNode` — every key has an owner.
-/

import DistSync.Dict
import DistSync.HashRing
import DistSync.Sha1
import Mathlib.Data.List.Dedup
import Mathlib.Data.List.Sort
import Mathlib.Data.Set.Function

set_option relaxedAutoImplicit false
set_option autoImplicit false

/-! ### The ring -/

/-- The ring: the owner of every point, and the points in order. -/
structure ConsistentHashRing where
  replicas : ℕ
  ring : Dict ℕ String
  sortedKeys : List ℕ

namespace ConsistentHashRing

open HashRing

/-- `value.encode("utf-8")`. -/
def encode (value : String) : List ℕ :=
  value.toList.flatMap fun c => (String.utf8EncodeChar c).map UInt8.toNat

/-- `_hash`. -/
def hash (value : String) : ℕ := Sha1.digest (encode value)

example : hash "abc" = 0xA9993E364706816ABA3E25717850C26C9CD0D89D := by decide +kernel

/-- `f"{node}:{replica}"`. -/
def point (node : String) (replica : ℕ) : String := node ++ ":" ++ toString replica

/-- The body of the inner loop of `set_nodes`. -/
def addPoint (r : ConsistentHashRing) (node : String) (replica : ℕ) : ConsistentHashRing :=
  let key := hash (point node replica)
  { r with ring := r.ring.set key node, sortedKeys := r.sortedKeys ++ [key] }

/-- `set_nodes`. -/
def setNodes (r : ConsistentHashRing) (nodes : List String) : ConsistentHashRing :=
  let r := nodes.foldl (fun r node =>
    (List.range r.replicas).foldl (fun r replica => r.addPoint node replica) r)
    { r with ring := ∅, sortedKeys := [] }
  { r with sortedKeys := r.sortedKeys.insertionSort (· ≤ ·) }

/-- `__init__`, with the default number of replicas. -/
def init (nodes : List String) : ConsistentHashRing := setNodes ⟨100, ∅, []⟩ nodes

/-- `get_node`. -/
def getNode (r : ConsistentHashRing) (key : String) : Option String :=
  if r.sortedKeys.isEmpty = true then none
  else
    let index := bisectRight r.sortedKeys (hash key)
    let index := if index = r.sortedKeys.length then 0 else index
    r.sortedKeys[index]?.bind r.ring.get?

theorem getNode_eq (r : ConsistentHashRing) (key : String) :
    r.getNode key = (clockwise r.sortedKeys (hash key)).bind r.ring.get? := by
  unfold getNode
  split
  · next hempty =>
      rw [List.isEmpty_iff.1 hempty, clockwise_nil]
      rfl
  · rfl

/-! ### Points -/

/-- The nodes and replica numbers that `set_nodes` goes through. -/
def pairs (nodes : List String) (replicas : ℕ) : List (String × ℕ) :=
  nodes.flatMap fun node => (List.range replicas).map (Prod.mk node)

theorem mem_pairs {nodes : List String} {replicas : ℕ} {p : String × ℕ} :
    p ∈ pairs nodes replicas ↔ p.1 ∈ nodes ∧ p.2 < replicas := by
  simp only [pairs, List.mem_flatMap, List.mem_map, List.mem_range]
  constructor
  · rintro ⟨node, hnode, replica, hreplica, rfl⟩
    exact ⟨hnode, hreplica⟩
  · rintro ⟨hnode, hreplica⟩
    exact ⟨p.1, hnode, p.2, hreplica, rfl⟩

/-- The strings that are hashed for the points of a list of nodes. -/
def pointsOf (nodes : List String) (replicas : ℕ) : Set String :=
  {value | ∃ node ∈ nodes, ∃ replica < replicas, value = point node replica}

/-- A list is determined by what comes before the last occurrence of an element. -/
theorem eq_of_append_cons_eq {α : Type*} {l l' d d' : List α} {c : α} (hd : c ∉ d) (hd' : c ∉ d')
    (h : l ++ c :: d = l' ++ c :: d') : l = l' := by
  rcases List.append_eq_append_iff.1 h with ⟨a, rfl, heq⟩ | ⟨a, rfl, heq⟩
  · cases a with
    | nil => exact (List.append_nil l).symm
    | cons x a =>
        obtain ⟨-, rfl⟩ := List.cons.inj heq
        exact absurd (List.mem_append_right a List.mem_cons_self) hd
  · cases a with
    | nil => exact List.append_nil l'
    | cons x a =>
        obtain ⟨-, rfl⟩ := List.cons.inj heq
        exact absurd (List.mem_append_right a List.mem_cons_self) hd'

/-- The digits of a number do not contain a colon. -/
theorem colon_notMem_toString (n : ℕ) : ':' ∉ (toString n).toList := by
  intro h
  have hdigit := Nat.isDigit_of_mem_toDigits (by decide) (by decide)
    (show ':' ∈ Nat.toDigits 10 n by simpa [Nat.repr] using h)
  exact absurd hdigit (by decide)

/-- The node can be read off the string of a point: it ends before the last colon. -/
theorem node_eq_of_point_eq {node node' : String} {replica replica' : ℕ}
    (h : point node replica = point node' replica') : node = node' := by
  have hlist := congrArg String.toList h
  simp only [point, String.toList_append, List.append_assoc] at hlist
  exact String.toList_injective
    (eq_of_append_cons_eq (colon_notMem_toString replica) (colon_notMem_toString replica') hlist)

/-- The strings have different hashes, when the list of the hashes has no repetition.  A node that
is named twice counts once. -/
theorem injOn_hash_of_nodup {nodes : List String} {replicas : ℕ}
    (h : ((pairs nodes.dedup replicas).map fun p => hash (point p.1 p.2)).Nodup) :
    Set.InjOn hash (pointsOf nodes replicas) := by
  rintro _ ⟨node, hnode, replica, hreplica, rfl⟩ _ ⟨node', hnode', replica', hreplica', rfl⟩ heq
  have hpair := List.inj_on_of_nodup_map h
    (mem_pairs.2 ⟨List.mem_dedup.2 hnode, hreplica⟩ : (node, replica) ∈ _)
    (mem_pairs.2 ⟨List.mem_dedup.2 hnode', hreplica'⟩ : (node', replica') ∈ _) heq
  obtain ⟨rfl, rfl⟩ := Prod.mk.inj hpair
  rfl

/-! ### What `set_nodes` builds -/

/-- The points are added one after the other. -/
theorem foldl_addPoint_eq (r : ConsistentHashRing) (l : List (String × ℕ)) :
    l.foldl (fun r p => r.addPoint p.1 p.2) r =
      ⟨r.replicas, l.foldl (fun d p => d.set (hash (point p.1 p.2)) p.1) r.ring,
        r.sortedKeys ++ l.map fun p => hash (point p.1 p.2)⟩ := by
  induction l generalizing r with
  | nil => rw [List.map_nil, List.append_nil]; rfl
  | cons p l ih =>
      rw [List.foldl_cons, ih, List.foldl_cons, List.map_cons]
      simp [addPoint]

/-- The loops of `set_nodes` go through the pairs. -/
theorem foldl_nodes (r : ConsistentHashRing) (nodes : List String) :
    nodes.foldl (fun r node =>
      (List.range r.replicas).foldl (fun r replica => r.addPoint node replica) r) r =
        (pairs nodes r.replicas).foldl (fun r p => r.addPoint p.1 p.2) r := by
  induction nodes generalizing r with
  | nil => rfl
  | cons node nodes ih =>
      have hinner : (List.range r.replicas).foldl (fun r replica => r.addPoint node replica) r =
          ((List.range r.replicas).map (Prod.mk node)).foldl (fun r p => r.addPoint p.1 p.2) r := by
        rw [List.foldl_map]
      have hreplicas : ((List.range r.replicas).foldl
          (fun r replica => r.addPoint node replica) r).replicas = r.replicas := by
        rw [hinner, foldl_addPoint_eq]
      rw [List.foldl_cons, ih, hreplicas, hinner, ← List.foldl_append]
      rfl

/-- **What `set_nodes` builds.** -/
theorem setNodes_eq (r : ConsistentHashRing) (nodes : List String) :
    r.setNodes nodes =
      ⟨r.replicas,
        (pairs nodes r.replicas).foldl (fun d p => d.set (hash (point p.1 p.2)) p.1) ∅,
        ((pairs nodes r.replicas).map fun p => hash (point p.1 p.2)).insertionSort (· ≤ ·)⟩ := by
  rw [setNodes, foldl_nodes, foldl_addPoint_eq]
  rfl

section SetNodes

variable {r : ConsistentHashRing} {nodes : List String}

theorem sorted_setNodes : (r.setNodes nodes).sortedKeys.Pairwise (· ≤ ·) := by
  rw [setNodes_eq]
  exact List.pairwise_insertionSort _ _

theorem mem_sortedKeys {key : ℕ} : key ∈ (r.setNodes nodes).sortedKeys ↔
    ∃ node ∈ nodes, ∃ replica < r.replicas, key = hash (point node replica) := by
  rw [setNodes_eq, List.mem_insertionSort, List.mem_map]
  constructor
  · rintro ⟨⟨node, replica⟩, hp, rfl⟩
    obtain ⟨hnode, hreplica⟩ := mem_pairs.1 hp
    exact ⟨node, hnode, replica, hreplica, rfl⟩
  · rintro ⟨node, hnode, replica, hreplica, rfl⟩
    exact ⟨(node, replica), mem_pairs.2 ⟨hnode, hreplica⟩, rfl⟩

/-- **A point belongs to the node it was made for**, when no two of the strings have the same
hash. -/
theorem get?_setNodes (hinj : Set.InjOn hash (pointsOf nodes r.replicas)) {node : String}
    (hnode : node ∈ nodes) {replica : ℕ} (hreplica : replica < r.replicas) :
    (r.setNodes nodes).ring.get? (hash (point node replica)) = some node := by
  rw [setNodes_eq]
  refine @Dict.get?_foldl_set _ _ _ _ _ _ _ _ (node, replica) (mem_pairs.2 ⟨hnode, hreplica⟩) ?_
  intro p hp heq
  obtain ⟨hnode', hreplica'⟩ := mem_pairs.1 hp
  exact node_eq_of_point_eq
    (hinj ⟨p.1, hnode', p.2, hreplica', rfl⟩ ⟨node, hnode, replica, hreplica, rfl⟩ heq)

/-- The owner of a key is the node of the next point. -/
theorem exists_getNode (hinj : Set.InjOn hash (pointsOf nodes r.replicas)) (hnodes : nodes ≠ [])
    (hreplicas : 0 < r.replicas) (key : String) :
    ∃ node ∈ nodes, ∃ replica < r.replicas,
      clockwise (r.setNodes nodes).sortedKeys (hash key) = some (hash (point node replica)) ∧
        (r.setNodes nodes).getNode key = some node := by
  obtain ⟨first, hfirst⟩ := List.exists_mem_of_ne_nil nodes hnodes
  have hmem : hash (point first 0) ∈ (r.setNodes nodes).sortedKeys :=
    mem_sortedKeys.2 ⟨first, hfirst, 0, hreplicas, rfl⟩
  obtain ⟨p, hp⟩ := exists_clockwise sorted_setNodes (List.ne_nil_of_mem hmem) (hash key)
  obtain ⟨node, hnode, replica, hreplica, rfl⟩ :=
    mem_sortedKeys.1 (isNext_clockwise sorted_setNodes hp).1
  refine ⟨node, hnode, replica, hreplica, hp, ?_⟩
  rw [getNode_eq, hp]
  exact get?_setNodes hinj hnode hreplica

end SetNodes

/-- **Lists with the same ids make rings with the same owners.** -/
theorem getNode_congr {nodes nodes' : List String} (hmem : ∀ id, id ∈ nodes ↔ id ∈ nodes')
    (hinj : Set.InjOn hash (pointsOf nodes 100)) (key : String) :
    (init nodes).getNode key = (init nodes').getNode key := by
  rcases eq_or_ne nodes [] with rfl | hne
  · have hnil : nodes' = [] := List.eq_nil_iff_forall_not_mem.2 fun id hid => by
      cases (hmem id).2 hid
    rw [hnil]
  · have hpoints : pointsOf nodes' 100 = pointsOf nodes 100 := by
      simp only [pointsOf, hmem]
    have hinj' : Set.InjOn hash (pointsOf nodes' 100) := hpoints ▸ hinj
    have hkeys : ∀ k, k ∈ (init nodes).sortedKeys ↔ k ∈ (init nodes').sortedKeys := by
      intro k
      rw [init, mem_sortedKeys, init, mem_sortedKeys]
      simp only [hmem]
    obtain ⟨node, hnode, replica, hreplica, hp, hget⟩ :=
      @exists_getNode ⟨100, ∅, []⟩ nodes hinj hne (Nat.zero_lt_succ _) key
    have hclockwise := clockwise_congr sorted_setNodes sorted_setNodes hkeys (hash key)
    have hget' : (init nodes').getNode key = some node := by
      rw [init, getNode_eq, ← hclockwise, hp]
      exact get?_setNodes hinj' ((hmem node).1 hnode) hreplica
    rw [hget']
    exact hget

end ConsistentHashRing
