/-
**Who is in the cluster, from the environment.**

Every node learns the other nodes from the variable `PEERS`, which `parse_peers` reads in one of two
forms: a JSON array of objects, when the text begins with a bracket, or a list with commas.  All
that the nodes do as a cluster rests on what comes out.  The majorities of two Raft nodes need only
meet when both count the same members, and two queue nodes only agree on the owner of a queue when
their rings are made of the same ids.

What is written in one of the forms is read back, whatever stands between the parts, so that it does
not matter which form a node gets; and a list with commas gives only names that can be written in
it.

Main definitions:

* `PeerConfig.strip` — `str.strip`;
* `PeerConfig.parsePeers` — **`parse_peers`**, with its exceptions;
* `PeerConfig.Written`, `PeerConfig.Spells` — the texts in which a list of peers is written;
* `PeerConfig.membership` — the members of a Raft cluster, as its nodes learn them.

Main results:

* `PeerConfig.parsePeers_iff_written` — **a list with commas gives exactly the peers in it**;
* `PeerConfig.parsePeers_of_loads` — what is read from a JSON array;
* `PeerConfig.Spells.dumps` — an array that `json.dumps` has written is one;
* `PeerConfig.nodesAgree` — **nodes that are given one list, in any form, make up one cluster**.
-/

import DistSync.JsonText
import DistSync.QueueRouting
import DistSync.RaftCluster
import DistSync.UrlQuery
import Mathlib.Data.List.DropRight

set_option relaxedAutoImplicit false
set_option autoImplicit false

namespace PeerConfig

open JsonText

/-! ### Stripped texts -/

/-- The characters that `str.isspace` accepts. -/
def isPySpace (c : Char) : Bool :=
  decide (c.toNat ∈ [0x09, 0x0a, 0x0b, 0x0c, 0x0d, 0x1c, 0x1d, 0x1e, 0x1f, 0x20, 0x85, 0xa0, 0x1680,
    0x2000, 0x2001, 0x2002, 0x2003, 0x2004, 0x2005, 0x2006, 0x2007, 0x2008, 0x2009, 0x200a, 0x2028,
    0x2029, 0x202f, 0x205f, 0x3000])

/-- `str.strip()`. -/
def strip (s : List Char) : List Char := (s.dropWhile isPySpace).rdropWhile isPySpace

/-- Only spaces. -/
def Blank (s : List Char) : Prop := ∀ c ∈ s, isPySpace c = true

theorem strip_of_blank {s : List Char} (h : Blank s) : strip s = [] := by
  rw [strip, List.dropWhile_eq_nil_iff.2 h, List.rdropWhile_nil]

theorem rdropWhile_append_blank (s : List Char) {b : List Char} (hb : Blank b) :
    (s ++ b).rdropWhile isPySpace = s.rdropWhile isPySpace := by
  have hrev : ∀ c ∈ b.reverse, isPySpace c = true := fun c hc => hb c (List.mem_reverse.1 hc)
  rw [List.rdropWhile, List.rdropWhile, List.reverse_append, List.dropWhile_append_of_pos hrev]

/-- **Spaces around a text do not matter.** -/
theorem strip_pad {a s b : List Char} (ha : Blank a) (hb : Blank b) :
    strip (a ++ s ++ b) = strip s := by
  rw [strip, strip, List.append_assoc, List.dropWhile_append_of_pos ha, List.dropWhile_append]
  split
  · next hnil =>
      -- nothing but spaces
      rw [List.isEmpty_iff] at hnil
      rw [hnil, List.dropWhile_eq_nil_iff.2 hb]
  · exact rdropWhile_append_blank _ hb

theorem mem_of_mem_strip {s : List Char} {c : Char} (h : c ∈ strip s) : c ∈ s :=
  (List.dropWhile_suffix _).subset ((List.rdropWhile_prefix _ _).subset h)

/-- A text that neither begins nor ends with a space. -/
theorem strip_eq_self {s : List Char} (hhead : ∀ c ∈ s.head?, isPySpace c = false)
    (hlast : ∀ c ∈ s.getLast?, isPySpace c = false) : strip s = s := by
  have hdrop : s.dropWhile isPySpace = s := by
    cases s with
    | nil => rfl
    | cons c s => exact List.dropWhile_cons_of_neg (by simp [hhead c rfl])
  rw [strip, hdrop, List.rdropWhile_eq_self_iff]
  intro hne
  rw [hlast _ (List.getLast?_eq_getLast_of_ne_nil hne)]
  exact Bool.false_ne_true

theorem strip_strip (s : List Char) : strip (strip s) = strip s := by
  have hne : ∀ {c : Char}, c ∈ (strip s).head? ∨ c ∈ (strip s).getLast? → strip s ≠ [] := by
    rintro c (hc | hc) hnil <;> rw [hnil] at hc <;> cases hc
  refine strip_eq_self (fun c hc => ?_) fun c hc => ?_
  · -- the first character is the first one that is no space
    obtain ⟨rest, hrest⟩ := List.rdropWhile_prefix isPySpace (l := s.dropWhile isPySpace)
    have hhead := List.head?_dropWhile_not isPySpace s
    rw [← hrest, ← strip, List.head?_append_of_ne_nil _ (hne (.inl hc)), Option.mem_def.1 hc]
      at hhead
    exact hhead
  · have hlast := List.rdropWhile_last_not isPySpace (s.dropWhile isPySpace) (hne (.inr hc))
    rw [List.getLast?_eq_getLast_of_ne_nil (hne (.inr hc)), Option.mem_def] at hc
    rw [← Option.some.inj hc]
    exact Bool.eq_false_iff.2 hlast

/-! ### Peers -/

/-- An entry of the list.  In the JSON form the two fields are whatever the object has. -/
structure PeerInfo where
  nodeId : Value
  url : Value

/-- An entry whose fields are strings. -/
def PeerInfo.ofTexts (nodeId url : List Char) : PeerInfo :=
  ⟨.string (String.ofList nodeId), .string (String.ofList url)⟩

/-- The exceptions of `parse_peers`. -/
inductive PyError
  | jsonDecodeError
  | attributeError
deriving DecidableEq, Repr

/-- `bool(value)`. -/
def truthy : Value → Bool
  | .atom a => !(a.text = ['n', 'u', 'l', 'l'] || a.text = ['f', 'a', 'l', 's', 'e'] ||
      number? a.text = some 0)
  | .string s => s ≠ ""
  | .array items => !items.isEmpty
  | .object members => !members.isEmpty

/-- `item.get("id") or item.get("node_id")`. -/
def idOf (item : Value) : Option Value :=
  match item.get? "id" with
  | some value => if truthy value = true then some value else item.get? "node_id"
  | none => item.get? "node_id"

/-- One round of the loop over the JSON array. -/
def parseItem : Value → Except PyError (Option PeerInfo)
  | .object members =>
      match idOf (.object members), (Value.object members).get? "url" with
      | some nodeId, some url =>
          if truthy nodeId = true ∧ truthy url = true then .ok (some ⟨nodeId, url⟩) else .ok none
      | _, _ => .ok none
  -- anything else has no method `get`
  | _ => .error .attributeError

/-- One round of the loop over the parts of a list with commas. -/
def parsePart (part : List Char) : Option PeerInfo :=
  let part := strip part
  if part = [] then none
  else if '=' ∈ part then
    some (.ofTexts (strip (part.takeWhile (· ≠ '='))) (strip ((part.dropWhile (· ≠ '=')).drop 1)))
  else some (.ofTexts part part)

/-- **`parse_peers`.** -/
def parsePeers (raw : List Char) : Except PyError (List PeerInfo) :=
  if raw = [] then .ok []
  else
    let raw := strip raw
    if raw.head? = some '[' then
      match loads raw with
      | none => .error .jsonDecodeError
      | some (.array items) => (items.mapM parseItem).map fun peers => peers.filterMap id
      -- a text that begins with a bracket is no other value
      | some _ => .error .attributeError
    else .ok ((raw.splitOn ',').filterMap parsePart)

/-! ### Lists with commas -/

/-- An id and a URL that can be written in a list with commas. -/
structure PeerText where
  nodeId : List Char
  url : List Char
  nodeId_strip : strip nodeId = nodeId
  url_strip : strip url = url
  nodeId_comma : ',' ∉ nodeId
  nodeId_equals : '=' ∉ nodeId
  url_comma : ',' ∉ url

/-- The entry that is read. -/
def PeerText.info (p : PeerText) : PeerInfo := .ofTexts p.nodeId p.url

/-- **A part of the list**: an id and a URL with an equals sign between them, a single text that is
both, or nothing; and spaces. -/
inductive Part : Option PeerText → List Char → Prop
  | blank {s : List Char} (h : Blank s) : Part none s
  | pair (p : PeerText) {a b c d : List Char} (ha : Blank a) (hb : Blank b) (hc : Blank c)
      (hd : Blank d) : Part (some p) ((a ++ p.nodeId ++ b) ++ '=' :: (c ++ p.url ++ d))
  | single (p : PeerText) {a b : List Char} (ha : Blank a) (hb : Blank b)
      (hurl : p.url = p.nodeId) (hne : p.nodeId ≠ []) : Part (some p) (a ++ p.nodeId ++ b)

theorem not_mem_of_blank {s : List Char} (h : Blank s) {c : Char} (hc : isPySpace c = false) :
    c ∉ s := by
  intro hmem
  rw [h c hmem] at hc
  cases hc

theorem blank_rtakeWhile (s : List Char) : Blank (s.rtakeWhile isPySpace) :=
  fun _ hc => List.mem_rtakeWhile_imp hc

theorem strip_dropWhile (s : List Char) : strip (s.dropWhile isPySpace) = strip s := by
  rw [strip, List.dropWhile_idempotent, strip]

theorem strip_rdropWhile (s : List Char) : strip (s.rdropWhile isPySpace) = strip s := by
  have hpad := @strip_pad [] (s.rdropWhile isPySpace) _ (fun _ hc => by cases hc)
    (blank_rtakeWhile s)
  rw [List.nil_append, List.rdropWhile_append_rtakeWhile] at hpad
  exact hpad.symm

/-- A text is its stripped text with spaces around it. -/
theorem exists_pad (s : List Char) : ∃ a b, Blank a ∧ Blank b ∧ s = a ++ strip s ++ b := by
  refine ⟨s.takeWhile isPySpace, (s.dropWhile isPySpace).rtakeWhile isPySpace,
    fun c hc => List.mem_takeWhile_imp hc, blank_rtakeWhile _, ?_⟩
  rw [List.append_assoc, strip, List.rdropWhile_append_rtakeWhile,
    List.takeWhile_append_dropWhile]

/-- Stripping a text with an equals sign. -/
theorem strip_equals (x y : List Char) : strip (x ++ '=' :: y) =
    x.dropWhile isPySpace ++ '=' :: y.rdropWhile isPySpace := by
  have hdrop : (x ++ '=' :: y).dropWhile isPySpace = x.dropWhile isPySpace ++ '=' :: y := by
    rw [List.dropWhile_append]
    split
    · next hnil =>
        rw [List.isEmpty_iff.1 hnil, List.dropWhile_cons_of_neg (by decide), List.nil_append]
    · rfl
  rw [strip, hdrop, List.rdropWhile, List.reverse_append, List.reverse_cons, List.append_assoc,
    List.dropWhile_append]
  split
  · next hnil =>
      rw [List.singleton_append, List.dropWhile_cons_of_neg (by decide), List.reverse_cons,
        List.reverse_reverse, List.rdropWhile, List.isEmpty_iff.1 hnil]
      simp
  · rw [List.reverse_append, List.singleton_append, List.reverse_cons, List.reverse_reverse,
      List.append_assoc]
    rfl

/-- **What is read from a part.** -/
theorem parsePart_of_part {p : Option PeerText} {s : List Char} (h : Part p s) :
    parsePart s = p.map PeerText.info := by
  cases h with
  | blank h => rw [parsePart, strip_of_blank h, if_pos rfl, Option.map_none]
  | @pair p a b c d ha hb hc hd =>
      have hx : '=' ∉ (a ++ p.nodeId ++ b).dropWhile isPySpace := by
        intro hmem
        have hmem' := (List.dropWhile_suffix isPySpace).subset hmem
        rcases List.mem_append.1 hmem' with hmem' | hmem'
        · rcases List.mem_append.1 hmem' with hmem' | hmem'
          · exact not_mem_of_blank ha (by decide) hmem'
          · exact p.nodeId_equals hmem'
        · exact not_mem_of_blank hb (by decide) hmem'
      simp only [parsePart, strip_equals]
      rw [if_neg (by simp), if_pos (by simp), UrlQuery.takeWhile_append_of_not_mem hx,
        UrlQuery.dropWhile_append_of_not_mem hx]
      simp only [ne_eq, not_true_eq_false, decide_false, Bool.false_eq_true, not_false_eq_true,
        List.takeWhile_cons_of_neg, List.dropWhile_cons_of_neg, List.append_nil,
        List.drop_succ_cons, List.drop_zero]
      rw [strip_dropWhile, strip_rdropWhile, strip_pad ha hb, strip_pad hc hd, p.nodeId_strip,
        p.url_strip]
      rfl
  | @single p a b ha hb hurl hne =>
      simp only [parsePart, strip_pad ha hb, p.nodeId_strip]
      rw [if_neg hne, if_neg p.nodeId_equals, Option.map_some, PeerText.info, hurl]

/-- Every text without commas is a part. -/
theorem exists_part {s : List Char} (hcomma : ',' ∉ s) : ∃ p, Part p s := by
  by_cases hequals : '=' ∈ s
  · -- the first equals sign ends the id
    obtain ⟨x, y, rfl, hx⟩ := List.eq_append_cons_of_mem hequals
    obtain ⟨a, b, ha, hb, hxs⟩ := exists_pad x
    obtain ⟨c, d, hc, hd, hys⟩ := exists_pad y
    let p : PeerText :=
      { nodeId := strip x
        url := strip y
        nodeId_strip := strip_strip x
        url_strip := strip_strip y
        nodeId_comma := fun h => hcomma (List.mem_append_left _ (mem_of_mem_strip h))
        nodeId_equals := fun h => hx (mem_of_mem_strip h)
        url_comma := fun h =>
          hcomma (List.mem_append_right _ (List.mem_cons_of_mem _ (mem_of_mem_strip h))) }
    refine ⟨some p, ?_⟩
    have hpart := Part.pair p ha hb hc hd
    rw [← hxs, ← hys] at hpart
    exact hpart
  · obtain ⟨a, b, ha, hb, hs⟩ := exists_pad s
    by_cases hnil : strip s = []
    · rw [hnil, List.append_nil] at hs
      refine ⟨none, .blank ?_⟩
      rw [hs]
      intro c hc
      exact (List.mem_append.1 hc).elim (ha c) (hb c)
    · let p : PeerText :=
        { nodeId := strip s
          url := strip s
          nodeId_strip := strip_strip s
          url_strip := strip_strip s
          nodeId_comma := fun h => hcomma (mem_of_mem_strip h)
          nodeId_equals := fun h => hequals (mem_of_mem_strip h)
          url_comma := fun h => hcomma (mem_of_mem_strip h) }
      refine ⟨some p, ?_⟩
      have hpart := Part.single p ha hb rfl hnil
      rw [← hs] at hpart
      exact hpart

theorem comma_of_part {p : Option PeerText} {s : List Char} (h : Part p s) : ',' ∉ s := by
  have hspace : ∀ {a : List Char}, Blank a → ',' ∉ a := fun ha => not_mem_of_blank ha (by decide)
  cases h with
  | blank h => exact hspace h
  | pair p ha hb hc hd =>
      simp [hspace ha, hspace hb, hspace hc, hspace hd, p.nodeId_comma, p.url_comma]
  | single p ha hb hurl hne => simp [hspace ha, hspace hb, p.nodeId_comma]

theorem parsePart_congr {s s' : List Char} (h : strip s = strip s') :
    parsePart s = parsePart s' := by
  rw [parsePart, parsePart, h]

/-- Spaces in front of a list with commas are spaces in front of its first part. -/
theorem splitOn_blank_append {a : List Char} (ha : Blank a) (s : List Char) :
    (a ++ s).splitOn ',' = (s.splitOn ',').modifyHead (a ++ ·) := by
  induction a with
  | nil =>
      cases hs : s.splitOn ',' <;> simp [hs]
  | cons c a ih =>
      have hc : ¬ (c == ',') = true := by
        rintro hc
        have hspace := ha c List.mem_cons_self
        rw [eq_of_beq hc] at hspace
        exact absurd hspace (by decide)
      rw [List.cons_append, List.splitOn_cons_eq_if_modifyHead, if_neg hc,
        ih fun c hc => ha c (List.mem_cons_of_mem _ hc), List.modifyHead_modifyHead]
      rfl

/-- Spaces after a list with commas are spaces after its last part. -/
theorem splitOn_append_blank (s : List Char) {b : List Char} (hb : Blank b) :
    ∃ parts last, s.splitOn ',' = parts ++ [last] ∧
      (s ++ b).splitOn ',' = parts ++ [last ++ b] := by
  induction s with
  | nil =>
      have hcomma : ',' ∉ b := not_mem_of_blank hb (by decide)
      exact ⟨[], [], List.splitOn_nil _, List.splitOn_eq_singleton hcomma⟩
  | cons c s ih =>
      obtain ⟨parts, last, hs, hsb⟩ := ih
      rw [List.cons_append, List.splitOn_cons_eq_if_modifyHead,
        List.splitOn_cons_eq_if_modifyHead, hs, hsb]
      split
      · exact ⟨[] :: parts, last, rfl, rfl⟩
      · cases parts with
        | nil => exact ⟨[], c :: last, rfl, rfl⟩
        | cons part parts => exact ⟨(c :: part) :: parts, last, rfl, rfl⟩

/-- **So a list with commas is not stripped for its sake.** -/
theorem filterMap_parsePart_strip (s : List Char) :
    ((strip s).splitOn ',').filterMap parsePart = (s.splitOn ',').filterMap parsePart := by
  obtain ⟨a, b, ha, hb, hs⟩ := exists_pad s
  obtain ⟨parts, last, hsplit, hsplitb⟩ := splitOn_append_blank (a ++ strip s) hb
  have hlast : parsePart (last ++ b) = parsePart last :=
    parsePart_congr (by simpa using @strip_pad [] last b (fun _ hc => by cases hc) hb)
  have hright : (s.splitOn ',').filterMap parsePart =
      ((a ++ strip s).splitOn ',').filterMap parsePart := by
    conv_lhs => rw [hs, hsplitb]
    rw [hsplit, List.filterMap_append, List.filterMap_append, List.filterMap_cons,
      List.filterMap_cons, hlast]
  rw [hright, splitOn_blank_append ha]
  cases (strip s).splitOn ',' with
  | nil => rfl
  | cons part parts =>
      have hpart : parsePart (a ++ part) = parsePart part :=
        parsePart_congr (by simpa using @strip_pad a part [] ha (fun _ hc => by cases hc))
      rw [List.modifyHead_cons, List.filterMap_cons, List.filterMap_cons, hpart]

/-- **A list of peers, written with commas.** -/
def Written (peers : List PeerText) (raw : List Char) : Prop :=
  ∃ parts : List (Option PeerText × List Char), (∀ part ∈ parts, Part part.1 part.2) ∧
    parts.filterMap Prod.fst = peers ∧ raw = [','].intercalate (parts.map Prod.snd)

theorem filterMap_parsePart {parts : List (Option PeerText × List Char)}
    (h : ∀ part ∈ parts, Part part.1 part.2) :
    (parts.map Prod.snd).filterMap parsePart =
      (parts.filterMap Prod.fst).map PeerText.info := by
  rw [List.filterMap_map, List.map_filterMap]
  exact List.filterMap_congr fun part hpart => parsePart_of_part (h part hpart)

/-- What is read from a text that does not begin with a bracket. -/
theorem parsePeers_eq {raw : List Char} (hhead : (strip raw).head? ≠ some '[') :
    parsePeers raw = .ok ((raw.splitOn ',').filterMap parsePart) := by
  simp only [parsePeers]
  split
  · next hnil =>
      have hpart : parsePart [] = none := rfl
      rw [hnil, List.splitOn_nil, List.filterMap_cons, hpart, List.filterMap_nil]
  · rw [filterMap_parsePart_strip]

/-- **The peers that are written are read.** -/
theorem parsePeers_of_written {peers : List PeerText} {raw : List Char} (h : Written peers raw)
    (hhead : (strip raw).head? ≠ some '[') :
    parsePeers raw = .ok (peers.map PeerText.info) := by
  obtain ⟨parts, hparts, rfl, rfl⟩ := h
  rw [parsePeers_eq hhead, ← filterMap_parsePart hparts]
  cases hcases : parts.map Prod.snd with
  | nil => rfl
  | cons s rest =>
      rw [List.splitOn_intercalate]
      · intro l hl
        rw [← hcases] at hl
        obtain ⟨part, hpart, rfl⟩ := List.mem_map.1 hl
        exact comma_of_part (hparts part hpart)
      · exact List.cons_ne_nil _ _

theorem comma_of_mem_splitOn (s : List Char) : ∀ part ∈ s.splitOn ',', ',' ∉ part := by
  induction s with
  | nil => simp
  | cons c s ih =>
      rw [List.splitOn_cons_eq_if_modifyHead]
      split
      · rintro part (_ | ⟨_, hpart⟩)
        · exact List.not_mem_nil
        · exact ih part hpart
      · next hc =>
          cases hs : s.splitOn ',' with
          | nil => simp
          | cons first rest =>
              rw [hs] at ih
              rintro part (_ | ⟨_, hpart⟩)
              · rintro (_ | ⟨_, hmem⟩)
                · exact hc rfl
                · exact ih first List.mem_cons_self hmem
              · exact ih part (List.mem_cons_of_mem _ hpart)

/-- Every text can be taken as a list with commas. -/
theorem exists_written (raw : List Char) : ∃ peers, Written peers raw := by
  have hparts : ∀ l : List (List Char), (∀ s ∈ l, ',' ∉ s) →
      ∃ parts : List (Option PeerText × List Char), (∀ part ∈ parts, Part part.1 part.2) ∧
        parts.map Prod.snd = l := by
    intro l
    induction l with
    | nil => exact fun _ => ⟨[], by simp, rfl⟩
    | cons s l ih =>
        intro hl
        obtain ⟨p, hp⟩ := exists_part (hl s List.mem_cons_self)
        obtain ⟨parts, hparts, rfl⟩ := ih fun s' hs' => hl s' (List.mem_cons_of_mem _ hs')
        exact ⟨(p, s) :: parts, List.forall_mem_cons.2 ⟨hp, hparts⟩, rfl⟩
  obtain ⟨parts, hall, hmap⟩ := hparts _ (comma_of_mem_splitOn raw)
  exact ⟨parts.filterMap Prod.fst, parts, hall, rfl, by rw [hmap, List.intercalate_splitOn]⟩

/-- **A text that does not begin with a bracket gives exactly the peers that it lists.** -/
theorem parsePeers_iff_written {raw : List Char} (hhead : (strip raw).head? ≠ some '[')
    (infos : List PeerInfo) : parsePeers raw = .ok infos ↔
      ∃ peers, Written peers raw ∧ infos = peers.map PeerText.info := by
  constructor
  · intro h
    obtain ⟨peers, hpeers⟩ := exists_written raw
    rw [parsePeers_of_written hpeers hhead] at h
    exact ⟨peers, hpeers, (Except.ok.inj h).symm⟩
  · rintro ⟨peers, hpeers, rfl⟩
    exact parsePeers_of_written hpeers hhead

theorem parsePeers_iff_written_spaces :
    ∃ peers, Written peers " queue-2 = http://queue-2:80, ,queue-3 ".toList ∧
      [PeerInfo.ofTexts "queue-2".toList "http://queue-2:80".toList,
        PeerInfo.ofTexts "queue-3".toList "queue-3".toList] = peers.map PeerText.info :=
  (parsePeers_iff_written (by decide +kernel) _).1 rfl

/-! ### JSON arrays -/

/-- An entry with the fields of a configured peer. -/
def PeerInfo.of (peer : QueueNode.PeerInfo) : PeerInfo := ⟨.string peer.nodeId, .string peer.url⟩

/-- An object that is read as a peer.  It can have further members. -/
structure Describes (item : Value) (peer : QueueNode.PeerInfo) : Prop where
  isObject : ∃ members, item = .object members
  nodeId : idOf item = some (.string peer.nodeId)
  url : item.get? "url" = some (.string peer.url)
  nodeId_ne : peer.nodeId ≠ ""
  url_ne : peer.url ≠ ""

theorem parseItem_of_describes {item : Value} {peer : QueueNode.PeerInfo}
    (h : Describes item peer) : parseItem item = .ok (some (.of peer)) := by
  obtain ⟨⟨members, rfl⟩, hid, hurl, hid', hurl'⟩ := h
  simp only [parseItem, hid, hurl]
  exact if_pos ⟨decide_eq_true hid', decide_eq_true hurl'⟩

theorem mapM_parseItem {items : List Value} {peers : List QueueNode.PeerInfo}
    (h : List.Forall₂ Describes items peers) :
    items.mapM parseItem = .ok (peers.map fun peer => some (.of peer)) := by
  induction h with
  | nil => rfl
  | cons hitem hitems ih =>
      rw [List.mapM_cons, parseItem_of_describes hitem, ih]
      rfl

theorem exists_dumpsItems (separator : List Char) (items : List Value) :
    ∃ text, dumpsItems separator items = text ++ [']'] := by
  induction items generalizing separator with
  | nil => exact ⟨[], rfl⟩
  | cons item items ih =>
      obtain ⟨text, htext⟩ := ih [',', ' ']
      exact ⟨separator ++ dumps item ++ text, by rw [dumpsItems, htext, ← List.append_assoc]⟩

/-- Nothing is stripped from the text of an array. -/
theorem strip_dumps_array (items : List Value) :
    strip (dumps (.array items)) = dumps (.array items) := by
  obtain ⟨text, htext⟩ := exists_dumpsItems [] items
  rw [dumps, htext]
  refine strip_eq_self (fun c hc => ?_) fun c hc => ?_
  · rw [← Option.some.inj hc]
    decide
  · rw [← List.cons_append, List.getLast?_append, List.getLast?_singleton, Option.some_or] at hc
    rw [← Option.some.inj hc]
    decide

/-- **What is read from a JSON array.** -/
theorem parsePeers_of_loads {raw : List Char} {items : List Value}
    (hhead : (strip raw).head? = some '[') (hloads : loads (strip raw) = some (.array items)) :
    parsePeers raw = (items.mapM parseItem).map fun peers => peers.filterMap id := by
  have hne : raw ≠ [] := by
    rintro rfl
    cases hhead
  simp only [parsePeers, if_neg hne, if_pos hhead, hloads]

/-! ### Clusters -/

/-- The peer that is written. -/
def PeerText.peer (p : PeerText) : QueueNode.PeerInfo :=
  ⟨String.ofList p.nodeId, String.ofList p.url⟩

/-- **A text for a list of peers**: a list with commas, or a JSON array of objects, in any spelling
that `json.loads` reads. -/
inductive Spells : List Char → List QueueNode.PeerInfo → Prop
  | commas {raw : List Char} {peers : List PeerText} (h : Written peers raw)
      (hhead : (strip raw).head? ≠ some '[') : Spells raw (peers.map PeerText.peer)
  | json {raw : List Char} {items : List Value} {peers : List QueueNode.PeerInfo}
      (hhead : (strip raw).head? = some '[') (hloads : loads (strip raw) = some (.array items))
      (h : List.Forall₂ Describes items peers) : Spells raw peers

/-- **What `json.dumps` writes for such objects spells the peers**, with spaces around it or not. -/
theorem Spells.dumps {a b : List Char} (ha : Blank a) (hb : Blank b) {items : List Value}
    {peers : List QueueNode.PeerInfo} (h : List.Forall₂ Describes items peers) :
    Spells (a ++ JsonText.dumps (.array items) ++ b) peers := by
  have hstrip : strip (a ++ JsonText.dumps (.array items) ++ b) =
      JsonText.dumps (.array items) := by
    rw [strip_pad ha hb, strip_dumps_array]
  refine .json ?_ ?_ h
  · rw [hstrip, JsonText.dumps]
    rfl
  · rw [hstrip]
    simpa using @loads_dumps (.array items) [] (fun _ hc => by cases hc)

theorem parsePeers_of_spells {raw : List Char} {peers : List QueueNode.PeerInfo}
    (h : Spells raw peers) : parsePeers raw = .ok (peers.map PeerInfo.of) := by
  cases h with
  | commas h hhead =>
      rw [parsePeers_of_written h hhead, List.map_map]
      rfl
  | json hhead hloads h =>
      have hmap : (id ∘ fun peer => some (PeerInfo.of peer)) = some ∘ PeerInfo.of := rfl
      rw [parsePeers_of_loads hhead hloads, mapM_parseItem h, Except.map, List.filterMap_map, hmap,
        List.filterMap_eq_map]

/-- `peer_ids`, in the constructor of a lock manager: the ids of the list but for its own. -/
def peerIds (nodeId : String) (peers : List PeerInfo) : List Value :=
  (peers.map PeerInfo.nodeId).filter fun
    | .string id => decide (id ≠ nodeId)
    | _ => true

/-- **What the nodes find in `PEERS`**: the text of each node lists the ids of the others, each
once, with or without its own. -/
structure Listed (nodes : List String) (raw : String → List Char)
    (listed : String → List QueueNode.PeerInfo) : Prop where
  nodup : nodes.Nodup
  spells : ∀ n ∈ nodes, Spells (raw n) (listed n)
  listed_nodup : ∀ n ∈ nodes, ((listed n).map QueueNode.PeerInfo.nodeId).Nodup
  mem_iff : ∀ n ∈ nodes, ∀ id,
    id ∈ n :: (listed n).map QueueNode.PeerInfo.nodeId ↔ id ∈ nodes

variable {nodes : List String} {raw : String → List Char}
  {listed : String → List QueueNode.PeerInfo}

/-- The members of the Raft cluster. -/
def membership (h : Listed nodes raw listed) : Raft.Membership String where
  nodes := nodes
  nodup := h.nodup
  peers := fun n => ((listed n).map QueueNode.PeerInfo.nodeId).filter fun id => decide (id ≠ n)
  peers_perm := by
    intro n hn
    have hfilter : (n :: ((listed n).map QueueNode.PeerInfo.nodeId).filter
        fun id => decide (id ≠ n)).Nodup :=
      List.nodup_cons.2 ⟨by simp, (h.listed_nodup n hn).filter _⟩
    rw [List.perm_ext_iff_of_nodup hfilter h.nodup]
    intro id
    rw [← h.mem_iff n hn id, List.mem_cons, List.mem_cons, List.mem_filter, decide_eq_true_iff]
    by_cases hid : id = n <;> simp [hid]

theorem peerIds_of (n : String) (peers : List QueueNode.PeerInfo) :
    peerIds n (peers.map PeerInfo.of) =
      ((peers.map QueueNode.PeerInfo.nodeId).filter fun id => decide (id ≠ n)).map
        Value.string := by
  rw [peerIds, List.map_map, List.filter_map, List.filter_map, List.map_map]
  rfl

/-- **Nodes that are given one list, in any form, make up one cluster**: the peers of a lock manager
are those of a member of one Raft cluster, and all queue nodes see the owner that the ring of the
cluster has. -/
theorem nodesAgree (h : Listed nodes raw listed)
    (hinj : Set.InjOn ConsistentHashRing.hash (ConsistentHashRing.pointsOf nodes 100)) {n : String}
    (hn : n ∈ nodes) :
    ∃ infos, parsePeers (raw n) = .ok infos ∧
      peerIds n infos = ((membership h).peers n).map Value.string ∧
      ∃ router : QueueNode.Router, router.nodeId = n ∧ router.peers.map PeerInfo.of = infos ∧
        ∀ queueName, router.ring.getNode queueName =
          (ConsistentHashRing.init nodes).getNode queueName := by
  have hmem : ∀ id, id ∈ nodes ↔ id ∈ (QueueNode.Router.mk n (listed n)).ids :=
    fun id => (h.mem_iff n hn id).symm
  exact ⟨_, parsePeers_of_spells (h.spells n hn), peerIds_of n (listed n), ⟨n, listed n⟩, rfl, rfl,
    fun queueName => (ConsistentHashRing.getNode_congr hmem hinj queueName).symm⟩

/-- A peer, and two objects. -/
def mixedPeer : PeerText where
  nodeId := "queue-2".toList
  url := "http://queue-2:8000".toList
  nodeId_strip := by decide +kernel
  url_strip := by decide +kernel
  nodeId_comma := by decide
  nodeId_equals := by decide
  url_comma := by decide

def mixedItems : List Value :=
  [.object [("node_id", .string "queue-2"), ("url", .string "http://queue-2:8000")],
    .object [("url", .string "http://queue-1:8000"), ("id", .string "queue-1")]]

/-- The array without spaces, as one writes it by hand. -/
def compactArray : List Char :=
  ("[\x7b\"node_id\":\"queue-2\",\"url\":\"http://queue-2:8000\"\x7d," ++
    "\x7b\"url\":\"http://queue-1:8000\",\"id\":\"queue-1\"\x7d]").toList

/-- A list with commas for the first node, a JSON array for the second one. -/
def mixedTexts (n : String) : List Char :=
  if n = "queue-1" then " queue-2=http://queue-2:8000, ".toList else compactArray

def mixedPeers (n : String) : List QueueNode.PeerInfo :=
  if n = "queue-1" then QueueNode.firstNode.peers else QueueNode.secondNode.peers

theorem listed_mixed : Listed QueueNode.firstNode.ids mixedTexts mixedPeers where
  nodup := by decide
  spells := by
    have hspace : Blank " ".toList := by
      intro c hc
      rw [List.mem_singleton.1 hc]
      decide
    have hnil : Blank [] := fun c hc => by cases hc
    have hone : Spells (mixedTexts "queue-1") [mixedPeer.peer] := by
      have hwritten : Written [mixedPeer] (mixedTexts "queue-1") := by
        refine ⟨[(some mixedPeer, " queue-2=http://queue-2:8000".toList), (none, " ".toList)], ?_,
          rfl, rfl⟩
        rintro part (_ | ⟨_, _ | ⟨_, hpart⟩⟩)
        · exact Part.pair mixedPeer hspace hnil hnil hnil
        · exact Part.blank hspace
        · cases hpart
      exact Spells.commas hwritten (by decide +kernel)
    have htwo : Spells (mixedTexts "queue-2") QueueNode.secondNode.peers := by
      have hstrip : strip (mixedTexts "queue-2") = compactArray := by decide +kernel
      have hloads : loads compactArray = some (.array mixedItems) := by rfl
      refine Spells.json (by rw [hstrip]; rfl) (hstrip ▸ hloads)
        (.cons ⟨⟨_, rfl⟩, rfl, rfl, by decide, by decide⟩
          (.cons ⟨⟨_, rfl⟩, rfl, rfl, by decide, by decide⟩ .nil))
    rintro n (_ | ⟨_, _ | ⟨_, hn⟩⟩)
    · exact hone
    · exact htwo
    · cases hn
  listed_nodup := by decide
  mem_iff := by
    rintro n (_ | ⟨_, _ | ⟨_, hn⟩⟩) id
    · rfl
    · simp [mixedPeers, QueueNode.secondNode, QueueNode.firstNode, QueueNode.Router.ids]
      tauto
    · cases hn

theorem nodesAgree_mixed : ∃ infos, parsePeers (mixedTexts "queue-2") = .ok infos ∧
    peerIds "queue-2" infos = [.string "queue-1"] := by
  obtain ⟨infos, hread, hids, -⟩ := nodesAgree listed_mixed QueueNode.injOn_hash_firstNode
    (List.mem_cons_of_mem _ (List.mem_cons_self (l := [])))
  exact ⟨infos, hread, hids⟩

end PeerConfig
