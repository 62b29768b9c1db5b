/-
**Names in the URLs between the nodes.**

Two requests between the nodes carry a name in the query of their URL: the internal read of a cache
node, and the statistics that a queue node asks the owner for.  Both put the name into the URL as it
is.  So the peer reads the same name exactly when that is fit for a query, and for other names it
reads another one.

Main definitions:

* `InternalUrls.readKey`, `InternalUrls.statsQueue` — **the names that the peer reads**.

Main results:

* `InternalUrls.names_iff` — **exactly the fit names survive**; for a fit key the peers then give
  values of this key only;
* `InternalUrls.names_fail` — a get that returns and keeps the value of another key.
-/

import DistSync.CacheFailures
import DistSync.UrlQuery
import Mathlib.Data.List.DropRight

set_option relaxedAutoImplicit false
set_option autoImplicit false

namespace InternalUrls

open UrlQuery CacheNode

/-- The URL of a peer, which has neither a query nor a fragment. -/
structure PeerUrl where
  url : String
  noQuery : '?' ∉ url.toList
  noFragment : '#' ∉ url.toList

/-- `url.rstrip("/")`. -/
def rstrip (url : String) : String := String.ofList (url.toList.rdropWhile (· = '/'))

/-- The URL of a request in `MessageBus.send_json`. -/
def sendUrl (peer : PeerUrl) (path : String) : String := rstrip peer.url ++ path

/-- The path of the internal read in `DistributedCacheNode.handle_get`. -/
def readPath (key : String) : String := "/internal/cache/read?key=" ++ key

/-- The URL of the owner in `DistributedQueueNode.handle_stats`. -/
def statsUrl (peer : PeerUrl) (queue : String) : String :=
  rstrip peer.url ++ ("/queue/stats?queue=" ++ queue)

/-- `request.query.get(name)`. -/
def queryGet (name url : String) : Option String :=
  (lookup name.toList url.toList).map String.ofList

/-- The key that `handle_internal_read` reads for a key of `handle_get`. -/
def readKey (peer : PeerUrl) (key : String) : Option String :=
  queryGet "key" (sendUrl peer (readPath key))

/-- The queue that `handle_stats` of the owner reads. -/
def statsQueue (peer : PeerUrl) (queue : String) : Option String :=
  queryGet "queue" (statsUrl peer queue)

/-- The name is fit for a query: it has none of `#`, `&` and `+`, and no `%` with two hexadecimal
digits.  These are the rules of a URL; that a client takes tabs and line ends out of a URL before it
sends it is not one of them. -/
def FitName (s : String) : Prop := Fit s.toList

/-! ### What the peer reads -/

/-- A name that was put into the URL of a peer as it is, behind a path and the beginning of a
query. -/
theorem queryGet_eq_iff (peer : PeerUrl) {path name : String} {place : List Char} (s : String)
    (hpath : path.toList = place ++ '?' :: name.toList ++ ['=']) (hmark : '?' ∉ place)
    (hfragment : '#' ∉ place) (hname : Name name.toList) :
    queryGet name (rstrip peer.url ++ (path ++ s)) = some s ↔ FitName s := by
  have hbase : ∀ c, c ∉ peer.url.toList → c ∉ place →
      c ∉ peer.url.toList.rdropWhile (· = '/') ++ place := by
    intro c hurl hplace hmem
    rcases List.mem_append.1 hmem with hmem | hmem
    · exact hurl ((List.rdropWhile_prefix _ _).sublist.mem hmem)
    · exact hplace hmem
  have hurl : (rstrip peer.url ++ (path ++ s)).toList =
      (peer.url.toList.rdropWhile (· = '/') ++ place) ++ '?' :: name.toList ++ '=' :: s.toList := by
    simp [rstrip, String.toList_append, hpath]
  rw [FitName, ← lookup_eq_iff s.toList (hbase '?' peer.noQuery hmark)
    (hbase '#' peer.noFragment hfragment) hname, queryGet, hurl]
  constructor
  · intro h
    obtain ⟨found, hfound, heq⟩ := Option.map_eq_some_iff.1 h
    rw [hfound, ← heq, String.toList_ofList]
  · intro h
    rw [h, Option.map_some, String.ofList_toList]

theorem readKey_eq_iff (peer : PeerUrl) (s : String) : readKey peer s = some s ↔ FitName s :=
  @queryGet_eq_iff peer "/internal/cache/read?key=" "key" "/internal/cache/read".toList s
    (by decide +kernel) (by decide +kernel) (by decide +kernel)
    ⟨by decide +kernel, by decide +kernel⟩

theorem statsQueue_eq_iff (peer : PeerUrl) (s : String) :
    statsQueue peer s = some s ↔ FitName s :=
  @queryGet_eq_iff peer "/queue/stats?queue=" "queue" "/queue/stats".toList s
    (by decide +kernel) (by decide +kernel) (by decide +kernel)
    ⟨by decide +kernel, by decide +kernel⟩

/-- **Exactly the fit names survive.**  What the peers give for such a key is a value that one of
them serves for this key. -/
theorem names_iff {ν β : Type*} (peer : PeerUrl) (s : String) :
    (readKey peer s = some s ∧ statsQueue peer s = some s ↔ FitName s) ∧
    ∀ M : Setup ν, M.queryKey = readKey peer → FitName s →
      ∀ (reached : ν → Bool) (n : ν) (nodes : ν → DistributedCacheNode β) (v : β),
        peerData M reached n s nodes = some v →
          ∃ m ∈ M.peers n, reached m = true ∧ Serves (nodes m) s v := by
  refine ⟨?_, fun M hquery hfit reached n nodes v hdata => ?_⟩
  · rw [readKey_eq_iff, statsQueue_eq_iff, and_self]
  · refine serves_of_peerData ?_ hdata
    rw [hquery]
    exact (readKey_eq_iff peer s).2 hfit

/-! ### Two nodes -/

/-- The second node of a pair. -/
def secondUrl : PeerUrl := ⟨"http://node2:8001", by decide +kernel, by decide +kernel⟩

/-- Two nodes that read keys from URLs. -/
def linked : Setup (Fin 2) := { pair with queryKey := readKey secondUrl }

theorem queryKey_linked : linked.queryKey = readKey secondUrl := by rw [linked]

/-- The nodes after a put at the node `n` that reaches nobody. -/
def putAt (n : Fin 2) (key : String) (value : ℕ) : Fin 2 → DistributedCacheNode ℕ :=
  (handlePut linked (fun _ => false) n key value (started fun _ => 1)).1

/-- A fit name, with an equals sign and a percent sign. -/
theorem names_iff_equalsSign :
    (readKey secondUrl "a=b?50%" = some "a=b?50%" ∧
      statsQueue secondUrl "a=b?50%" = some "a=b?50%") ∧
    ∃ m, Serves (putAt 0 "a=b?50%" 1 m) "a=b?50%" 1 := by
  have hfit : FitName "a=b?50%" := by
    rw [FitName]
    decide +kernel
  have hdata : peerData linked everyone 1 "a=b?50%" (putAt 0 "a=b?50%" 1) = some 1 := by
    decide +kernel
  have hnames := @names_iff (Fin 2) ℕ secondUrl "a=b?50%"
  obtain ⟨m, -, -, hserves⟩ := hnames.2 linked queryKey_linked hfit _ _ _ _ hdata
  exact ⟨hnames.1.2 hfit, m, hserves⟩

/-- A plus sign is read as a space; and a get of `a#b` returns the value of `a`, which was never put
for it. -/
theorem names_fail :
    (¬ ∀ (peer : PeerUrl) (s : String), s ≠ "" →
      readKey peer s = some s ∧ statsQueue peer s = some s) ∧
    ¬ ∀ (calls : List (Call (Fin 2) ℕ)) (n : Fin 2) (key : String) (value : ℕ) (state : Mesi),
      (handleGet linked (fun _ => false) everyone n key
        (calls.foldl (serve linked fun _ => false) (started fun _ => 1))).2 =
          .value key value state → ∃ call ∈ calls, call.request = .put key value := by
  constructor
  · intro hall
    have hread := (hall secondUrl "a+b" (by decide +kernel)).1
    revert hread
    decide +kernel
  · intro hall
    have hget : (handleGet linked (fun _ => false) everyone 1 "a#b"
        ([⟨everyone, 0, .put "a" 1⟩].foldl (serve linked fun _ => false) (started fun _ => 1))).2 =
          .value "a#b" 1 .S := by decide +kernel
    obtain ⟨call, hcall, hput⟩ := hall _ _ _ _ _ hget
    have hkey : "a" = "a#b" := (Request.put.inj ((List.mem_singleton.1 hcall) ▸ hput)).1
    revert hkey
    decide +kernel

end InternalUrls
