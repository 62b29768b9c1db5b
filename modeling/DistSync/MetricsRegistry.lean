/-
**The metrics of a node.**

A series of metrics is a name with labels, but the registry only knows one string for it, which the
name and the sorted labels are put into: `name{a=1,b=2}`.  So two series can fall together, and the
samples of one be counted for the other.  As long as the names have no brace and the labels no comma
(and their names no equals sign) this does not happen, whatever order the labels are given in: each
series has the sum, the last value or the count of its own samples, and of no others.

The values are any type with an addition, which need be neither associative nor commutative, as
that of floating point numbers is not.

Main definitions:

* `Metrics.metricKey` — the string for a series;
* `Metrics.MetricsRegistry` — the registry, with its three operations;
* `Metrics.renderPrometheus` — the text of `/metrics`, and `Metrics.scrape`, a reader for it.

Main results:

* `Metrics.metricKey_inj` — different series have different strings;
* `Metrics.ownSamples` — **each series has its own samples**;
* `Metrics.scrape_renderPrometheus` — **what is shown can be read back**.
-/

import DistSync.Dict
import DistSync.UrlQuery
import Mathlib.Data.List.DropRight
import Mathlib.Data.List.Sort
import Mathlib.Data.String.Basic

set_option relaxedAutoImplicit false
set_option autoImplicit false

namespace Metrics

variable {α β : Type*}

/-! ### Sorted items -/

/-- `sorted(d.items())`: no two items have the same key, so that the keys decide. -/
def sortedItems (d : Dict String β) : List (String × β) :=
  d.entries.insertionSort fun e e' => e.1 ≤ e'.1

theorem sortedItems_perm (d : Dict String β) : (sortedItems d).Perm d.entries :=
  List.perm_insertionSort _ _

theorem mem_sortedItems {d : Dict String β} {k : String} {v : β} :
    (k, v) ∈ sortedItems d ↔ d.get? k = some v := by
  rw [(sortedItems_perm d).mem_iff, Dict.get?_eq_some_iff]

/-! ### Series -/

/-- A name with labels, which can be missing. -/
structure Series where
  name : String
  labels : Option (Dict String String)

/-- The labels in their order. -/
def Series.items (s : Series) : List (String × String) := sortedItems (s.labels.getD ∅)

/-- The same name, and the same labels when they are sorted. -/
def Series.Same (s s' : Series) : Prop := s.name = s'.name ∧ s.items = s'.items

instance Series.decidableSame (s s' : Series) : Decidable (s.Same s') :=
  inferInstanceAs (Decidable (_ ∧ _))

/-- The text of a label. -/
def labelText (label : String × String) : List Char := label.1.toList ++ '=' :: label.2.toList

/-- `_label_key`. -/
def labelKey (s : Series) : List Char := [','].intercalate (s.items.map labelText)

/-- **`_metric_key`.** -/
def metricKey (s : Series) : String :=
  if labelKey s = [] then s.name
  else String.ofList (s.name.toList ++ '{' :: (labelKey s ++ ['}']))

/-- The name has no brace, the labels have no commas and their names no equals signs. -/
structure Series.Plain (s : Series) : Prop where
  name : '{' ∉ s.name.toList
  labels : ∀ label ∈ s.items,
    '=' ∉ label.1.toList ∧ ',' ∉ label.1.toList ∧ ',' ∉ label.2.toList

variable {s s' : Series}

theorem Series.Same.symm (h : s.Same s') : s'.Same s := ⟨h.1.symm, h.2.symm⟩

theorem metricKey_congr (h : s.Same s') : metricKey s = metricKey s' := by
  rw [metricKey, metricKey, labelKey, labelKey, h.1, h.2]

theorem labelText_inj {label label' : String × String} (h : '=' ∉ label.1.toList)
    (h' : '=' ∉ label'.1.toList) (heq : labelText label = labelText label') : label = label' := by
  have htake := congrArg (List.takeWhile (· ≠ '=')) heq
  have hdrop := congrArg (List.dropWhile (· ≠ '=')) heq
  rw [labelText, labelText, UrlQuery.takeWhile_append_of_not_mem h,
    UrlQuery.takeWhile_append_of_not_mem h'] at htake
  rw [labelText, labelText, UrlQuery.dropWhile_append_of_not_mem h,
    UrlQuery.dropWhile_append_of_not_mem h'] at hdrop
  refine Prod.ext (String.toList_injective ?_) (String.toList_injective ?_)
  · simpa using htake
  · simpa using hdrop

theorem labelKey_eq_nil : labelKey s = [] ↔ s.items = [] := by
  rw [labelKey]
  cases s.items with
  | nil => simp
  | cons label labels =>
      cases labels with
      | nil => simp [labelText]
      | cons label' labels => simp [labelText, List.intercalate_cons_cons]

theorem comma_notMem_labelText (hs : s.Plain) : ∀ text ∈ s.items.map labelText, ',' ∉ text := by
  intro text htext
  obtain ⟨label, hlabel, rfl⟩ := List.mem_map.1 htext
  obtain ⟨-, hname, hvalue⟩ := hs.labels label hlabel
  simp [labelText, hname, hvalue]

theorem map_labelText_inj {labels labels' : List (String × String)}
    (h : ∀ label ∈ labels, '=' ∉ label.1.toList) (h' : ∀ label ∈ labels', '=' ∉ label.1.toList)
    (heq : labels.map labelText = labels'.map labelText) : labels = labels' := by
  induction labels generalizing labels' with
  | nil => exact (List.map_eq_nil_iff.1 heq.symm).symm
  | cons label labels ih =>
      cases labels' with
      | nil => cases heq
      | cons label' labels' =>
          rw [List.forall_mem_cons] at h h'
          rw [List.map_cons, List.map_cons, List.cons.injEq] at heq
          rw [labelText_inj h.1 h'.1 heq.1, ih h.2 h'.2 heq.2]

theorem items_of_labelKey (hs : s.Plain) (hs' : s'.Plain) (hne : s.items ≠ [])
    (hne' : s'.items ≠ []) (h : labelKey s = labelKey s') : s.items = s'.items := by
  have htexts := congrArg (List.splitOn ',') h
  rw [labelKey, labelKey,
    List.splitOn_intercalate _ (comma_notMem_labelText hs) (by simpa using hne),
    List.splitOn_intercalate _ (comma_notMem_labelText hs') (by simpa using hne')] at htexts
  exact map_labelText_inj (fun label hl => (hs.labels label hl).1)
    (fun label hl => (hs'.labels label hl).1) htexts

/-- **Different series have different strings.** -/
theorem metricKey_inj (hs : s.Plain) (hs' : s'.Plain) :
    metricKey s = metricKey s' ↔ s.Same s' := by
  refine ⟨fun h => ?_, metricKey_congr⟩
  -- the brace shows whether there are labels, and where the name ends
  have hbrace : ∀ {s s' : Series}, s.Plain → labelKey s = [] → labelKey s' ≠ [] →
      metricKey s ≠ metricKey s' := by
    intro s s' hs hnil hne h
    rw [metricKey, metricKey, if_pos hnil, if_neg hne] at h
    refine hs.name ?_
    rw [h, String.toList_ofList]
    simp
  by_cases hnil : labelKey s = [] <;> by_cases hnil' : labelKey s' = []
  · rw [metricKey, metricKey, if_pos hnil, if_pos hnil'] at h
    exact ⟨h, (labelKey_eq_nil.1 hnil).trans (labelKey_eq_nil.1 hnil').symm⟩
  · exact absurd h (hbrace hs hnil hnil')
  · exact absurd h.symm (hbrace hs' hnil' hnil)
  · rw [metricKey, metricKey, if_neg hnil, if_neg hnil'] at h
    have htext := String.ofList_injective h
    have htake := congrArg (List.takeWhile (· ≠ '{')) htext
    have hdrop := congrArg (List.dropWhile (· ≠ '{')) htext
    rw [UrlQuery.takeWhile_append_of_not_mem hs.name,
      UrlQuery.takeWhile_append_of_not_mem hs'.name] at htake
    rw [UrlQuery.dropWhile_append_of_not_mem hs.name,
      UrlQuery.dropWhile_append_of_not_mem hs'.name] at hdrop
    refine ⟨String.toList_injective (by simpa using htake), items_of_labelKey hs hs' ?_ ?_ ?_⟩
    · exact fun hitems => hnil (labelKey_eq_nil.2 hitems)
    · exact fun hitems => hnil' (labelKey_eq_nil.2 hitems)
    · simpa using hdrop

/-! ### The registry -/

structure MetricsRegistry (α : Type*) where
  counters : Dict String α
  gauges : Dict String α
  histograms : Dict String (ℕ × α)

/-- A sample for one of the three kinds of series. -/
inductive Update (α : Type*)
  | incCounter (s : Series) (value : α)
  | setGauge (s : Series) (value : α)
  | observe (s : Series) (value : α)

def Update.series : Update α → Series
  | .incCounter s _ | .setGauge s _ | .observe s _ => s

namespace MetricsRegistry

/-- `MetricsRegistry.__init__`. -/
def init : MetricsRegistry α := ⟨∅, ∅, ∅⟩

variable [Add α] [Zero α]

/-- `inc_counter`. -/
def incCounter (r : MetricsRegistry α) (s : Series) (value : α) : MetricsRegistry α :=
  { r with
    counters := r.counters.set (metricKey s) ((r.counters.get? (metricKey s)).getD 0 + value) }

omit [Add α] [Zero α] in
/-- `set_gauge`. -/
def setGauge (r : MetricsRegistry α) (s : Series) (value : α) : MetricsRegistry α :=
  { r with gauges := r.gauges.set (metricKey s) value }

/-- `observe`. -/
def observe (r : MetricsRegistry α) (s : Series) (value : α) : MetricsRegistry α :=
  let (count, total) := (r.histograms.get? (metricKey s)).getD (0, 0)
  { r with histograms := r.histograms.set (metricKey s) (count + 1, total + value) }

/-- One of the three. -/
def apply (r : MetricsRegistry α) : Update α → MetricsRegistry α
  | .incCounter s value => r.incCounter s value
  | .setGauge s value => r.setGauge s value
  | .observe s value => r.observe s value

end MetricsRegistry

open MetricsRegistry

/-- The value of a sample that belongs to a counter. -/
def Update.increment (s : Series) : Update α → Option α
  | .incCounter s' value => if s'.Same s then some value else none
  | _ => none

/-- The value of a sample that belongs to a gauge. -/
def Update.setting (s : Series) : Update α → Option α
  | .setGauge s' value => if s'.Same s then some value else none
  | _ => none

/-- The value of a sample that belongs to a histogram. -/
def Update.observation (s : Series) : Update α → Option α
  | .observe s' value => if s'.Same s then some value else none
  | _ => none

/-- **A fold, seen through one entry**: if each step either leaves the entry alone or updates it
with a value, then the entry is the fold of these values. -/
theorem foldl_entry {σ γ : Type*} {step : σ → γ → σ} (entry : σ → Option β) (value : γ → Option α)
    (update : Option β → α → β) {us : List γ}
    (hstep : ∀ u ∈ us, ∀ s, entry (step s u) = match value u with
      | some a => some (update (entry s) a)
      | none => entry s) (s : σ) :
    entry (us.foldl step s) =
      (us.filterMap value).foldl (fun b a => some (update b a)) (entry s) := by
  induction us generalizing s with
  | nil => rfl
  | cons u us ih =>
      rw [List.forall_mem_cons] at hstep
      rw [List.foldl_cons, ih hstep.2, hstep.1, List.filterMap_cons]
      cases value u <;> rfl

/-- A fold that begins with nothing. -/
theorem foldl_some {update : Option β → α → β} {f : β → α → β} {zero : β}
    (hupdate : ∀ b a, update b a = f (b.getD zero) a) (values : List α) :
    values.foldl (fun b a => some (update b a)) none =
      if values = [] then none else some (values.foldl f zero) := by
  have hsome : ∀ (values : List α) (b : β),
      values.foldl (fun b a => some (update b a)) (some b) = some (values.foldl f b) := by
    intro values
    induction values with
    | nil => exact fun b => rfl
    | cons a values ih =>
        intro b
        rw [List.foldl_cons, ih, hupdate]
        rfl
  cases values with
  | nil => rfl
  | cons a values =>
      rw [List.foldl_cons, hsome, hupdate]
      rfl

theorem foldl_pair [Add α] (values : List α) (count : ℕ) (total : α) :
    values.foldl (fun (b : ℕ × α) a => (b.1 + 1, b.2 + a)) (count, total) =
      (count + values.length, values.foldl (· + ·) total) := by
  induction values generalizing count total with
  | nil => rfl
  | cons a values ih =>
      rw [List.foldl_cons, ih, List.length_cons, List.foldl_cons, Nat.add_assoc, Nat.add_comm 1]

theorem foldl_last (values : List α) :
    values.foldl (fun _ a => some a) none = values.getLast? := by
  induction values using List.reverseRecOn with
  | nil => rfl
  | append_singleton values a _ => simp

section Samples

variable [Add α] [Zero α] {updates : List (Update α)}

theorem get?_counters_apply (hs : s.Plain) {u : Update α} (hu : u.series.Plain)
    (r : MetricsRegistry α) : (r.apply u).counters.get? (metricKey s) =
      match u.increment s with
      | some value => some ((r.counters.get? (metricKey s)).getD 0 + value)
      | none => r.counters.get? (metricKey s) := by
  cases u with
  | incCounter s' value =>
      have hkey : metricKey s = metricKey s' ↔ s.Same s' := metricKey_inj hs hu
      simp only [apply, incCounter, Dict.get?_set, Update.increment, hkey]
      by_cases hsame : s'.Same s
      · rw [if_pos hsame.symm, if_pos hsame, metricKey_congr hsame]
      · rw [if_neg fun h => hsame h.symm, if_neg hsame]
  | setGauge s' value => rfl
  | observe s' value => rfl

theorem get?_gauges_apply (hs : s.Plain) {u : Update α} (hu : u.series.Plain)
    (r : MetricsRegistry α) : (r.apply u).gauges.get? (metricKey s) =
      match u.setting s with
      | some value => some value
      | none => r.gauges.get? (metricKey s) := by
  cases u with
  | incCounter s' value => rfl
  | setGauge s' value =>
      have hkey : metricKey s = metricKey s' ↔ s.Same s' := metricKey_inj hs hu
      simp only [apply, setGauge, Dict.get?_set, Update.setting, hkey]
      by_cases hsame : s'.Same s
      · rw [if_pos hsame.symm, if_pos hsame]
      · rw [if_neg fun h => hsame h.symm, if_neg hsame]
  | observe s' value => rfl

theorem get?_histograms_apply (hs : s.Plain) {u : Update α} (hu : u.series.Plain)
    (r : MetricsRegistry α) : (r.apply u).histograms.get? (metricKey s) =
      match u.observation s with
      | some value =>
          some ((((r.histograms.get? (metricKey s)).getD (0, 0)).1 + 1,
            ((r.histograms.get? (metricKey s)).getD (0, 0)).2 + value))
      | none => r.histograms.get? (metricKey s) := by
  cases u with
  | incCounter s' value => rfl
  | setGauge s' value => rfl
  | observe s' value =>
      have hkey : metricKey s = metricKey s' ↔ s.Same s' := metricKey_inj hs hu
      simp only [apply, observe, Dict.get?_set, Update.observation, hkey]
      by_cases hsame : s'.Same s
      · rw [if_pos hsame.symm, if_pos hsame, metricKey_congr hsame]
      · rw [if_neg fun h => hsame h.symm, if_neg hsame]

/-- **Each series has its own samples**, however those of other series come in between: a counter
has the sum of its increments, in their order, a gauge the value set last, and a histogram the
number and the sum of its observations. -/
theorem ownSamples (hupdates : ∀ u ∈ updates, u.series.Plain) (hs : s.Plain) :
    let r := updates.foldl apply init
    let increments := updates.filterMap (Update.increment s)
    let observations := updates.filterMap (Update.observation s)
    r.counters.get? (metricKey s) =
        (if increments = [] then none else some (increments.foldl (· + ·) 0)) ∧
      r.gauges.get? (metricKey s) = (updates.filterMap (Update.setting s)).getLast? ∧
      r.histograms.get? (metricKey s) =
        (if observations = [] then none
        else some (observations.length, observations.foldl (· + ·) 0)) := by
  refine ⟨?_, ?_, ?_⟩
  · rw [foldl_entry (fun r : MetricsRegistry α => r.counters.get? (metricKey s))
      (Update.increment s) (fun b a => b.getD 0 + a)
      (fun u hu r => get?_counters_apply hs (hupdates u hu) r)]
    exact foldl_some (fun _ _ => rfl) _
  · rw [foldl_entry (fun r : MetricsRegistry α => r.gauges.get? (metricKey s))
      (Update.setting s) (fun _ a => a)
      (fun u hu r => get?_gauges_apply hs (hupdates u hu) r)]
    exact foldl_last _
  · rw [foldl_entry (fun r : MetricsRegistry α => r.histograms.get? (metricKey s))
      (Update.observation s) (fun b a => ((b.getD (0, 0)).1 + 1, (b.getD (0, 0)).2 + a))
      (fun u hu r => get?_histograms_apply hs (hupdates u hu) r)]
    have hpairs := foldl_pair (updates.filterMap (Update.observation s)) 0 (0 : α)
    rw [Nat.zero_add] at hpairs
    rw [← hpairs]
    exact @foldl_some α (ℕ × α) _ (fun b a => (b.1 + 1, b.2 + a)) (0, 0) (fun _ _ => rfl) _

end Samples

/-- Labels in two orders, between samples of other series. -/
def hits : Series := ⟨"cache_hit_total", some ⟨[("node", "n1"), ("role", "cache")], by decide⟩⟩

def hitsAgain : Series := ⟨"cache_hit_total", some ⟨[("role", "cache"), ("node", "n1")], by decide⟩⟩

def misses : Series := ⟨"cache_miss_total", none⟩

theorem plain_hits : hits.Plain ∧ hitsAgain.Plain ∧ misses.Plain :=
  ⟨⟨by decide, by decide⟩, ⟨by decide, by decide⟩, ⟨by decide, by decide⟩⟩

theorem ownSamples_hits :
    ([Update.incCounter hits 1, .incCounter misses 5, .observe hits 7,
      .incCounter hitsAgain 2].foldl apply (init : MetricsRegistry ℕ)).counters.get?
        "cache_hit_total{node=n1,role=cache}" = some 3 := by
  have hplain : ∀ u ∈ [Update.incCounter hits 1, .incCounter misses 5, .observe hits 7,
      .incCounter hitsAgain 2], u.series.Plain := by
    simp [Update.series, plain_hits]
  have hkey : metricKey hits = "cache_hit_total{node=n1,role=cache}" := by decide
  have hcounter := (ownSamples hplain plain_hits.1).1
  rw [hkey] at hcounter
  exact hcounter

/-! ### What is shown -/

/-- A line of the text. -/
def line (key value : String) : List Char := key.toList ++ ' ' :: value.toList

/-- What there is to show, in the order of the text: counters, gauges, and two lines for each
histogram. -/
def MetricsRegistry.samples (format : α → String) (r : MetricsRegistry α) :
    List (String × String) :=
  (sortedItems r.counters).map (fun e => (e.1, format e.2)) ++
    (sortedItems r.gauges).map (fun e => (e.1, format e.2)) ++
    (sortedItems r.histograms).flatMap fun e =>
      [(e.1 ++ "_count", toString e.2.1), (e.1 ++ "_sum", format e.2.2)]

/-- **`render_prometheus`**, with the text that a value has in an f-string. -/
def renderPrometheus (format : α → String) (r : MetricsRegistry α) : List Char :=
  let lines : List (List Char) :=
    (sortedItems r.counters).map (fun e => line e.1 (format e.2)) ++
      (sortedItems r.gauges).map (fun e => line e.1 (format e.2)) ++
      (sortedItems r.histograms).flatMap fun e =>
        [line (e.1 ++ "_count") (toString e.2.1), line (e.1 ++ "_sum") (format e.2.2)]
  ['\n'].intercalate lines ++ ['\n']

/-- Reading a line: the value begins after the last space. -/
def readLine (text : List Char) : String × String :=
  (String.ofList (text.rdropWhile (· ≠ ' ')).dropLast,
    String.ofList (text.rtakeWhile (· ≠ ' ')))

/-- Reading the text: a line is a sample, unless it is empty. -/
def scrape (text : List Char) : List (String × String) :=
  ((text.splitOn '\n').filter (· ≠ [])).map readLine

theorem readLine_line {key value : String} (h : ' ' ∉ value.toList) :
    readLine (line key value) = (key, value) := by
  have hvalue : ∀ c ∈ value.toList.reverse, decide (c ≠ ' ') = true := by
    intro c hc
    rw [decide_eq_true_iff]
    rintro rfl
    exact h (List.mem_reverse.1 hc)
  have hreverse : (line key value).reverse =
      value.toList.reverse ++ ' ' :: key.toList.reverse := by
    simp [line]
  have hdrop : (line key value).rdropWhile (· ≠ ' ') = key.toList ++ [' '] := by
    rw [List.rdropWhile, hreverse, List.dropWhile_append_of_pos hvalue,
      List.dropWhile_cons_of_neg (by simp)]
    simp
  have htake : (line key value).rtakeWhile (· ≠ ' ') = value.toList := by
    rw [List.rtakeWhile, hreverse, List.takeWhile_append_of_pos hvalue,
      List.takeWhile_cons_of_neg (by simp)]
    simp
  rw [readLine, hdrop, htake, List.dropLast_concat, String.ofList_toList, String.ofList_toList]

theorem notMem_toString (n : ℕ) {c : Char} (hc : c.isDigit = false) :
    c ∉ (toString n).toList := by
  intro h
  have hdigit := Nat.isDigit_of_mem_toDigits (by decide) (by decide)
    (show c ∈ Nat.toDigits 10 n by simpa [Nat.repr] using h)
  rw [hc] at hdigit
  cases hdigit

theorem renderPrometheus_eq (format : α → String) (r : MetricsRegistry α) :
    renderPrometheus format r =
      ['\n'].intercalate ((r.samples format).map fun e => line e.1 e.2) ++ ['\n'] := by
  simp only [renderPrometheus, samples, List.map_append, List.map_map, List.map_flatMap]
  rfl

theorem scrape_lines {samples : List (String × String)}
    (h : ∀ e ∈ samples, '\n' ∉ e.1.toList ∧ '\n' ∉ e.2.toList ∧ ' ' ∉ e.2.toList) :
    scrape (['\n'].intercalate (samples.map fun e => line e.1 e.2) ++ ['\n']) = samples := by
  have hline : ∀ text ∈ samples.map (fun e => line e.1 e.2), '\n' ∉ text := by
    intro text htext
    obtain ⟨e, he, rfl⟩ := List.mem_map.1 htext
    simp [line, h e he]
  have hread : ∀ samples : List (String × String), (∀ e ∈ samples, ' ' ∉ e.2.toList) →
      ((samples.map fun e => line e.1 e.2).filter (· ≠ [])).map readLine = samples := by
    intro samples hsamples
    induction samples with
    | nil => rfl
    | cons e samples ih =>
        rw [List.forall_mem_cons] at hsamples
        rw [List.map_cons, List.filter_cons_of_pos (by simp [line]), List.map_cons,
          readLine_line hsamples.1, ih hsamples.2]
  cases hcases : samples with
  | nil => rfl
  | cons e rest =>
      have hne : (samples.map fun e => line e.1 e.2) ≠ [] := by
        rw [hcases]
        exact List.cons_ne_nil _ _
      rw [← hcases, scrape, List.splitOn_append_cons_self, List.splitOn_nil,
        List.splitOn_intercalate _ hline hne, List.filter_append, List.map_append,
        hread samples fun e he => (h e he).2.2]
      simp

/-- The keys of the registry are those of its samples. -/
theorem key_apply [Add α] [Zero α] {r : MetricsRegistry α} {u : Update α} {key : String}
    (h : key ∈ (r.apply u).counters.keys ∨ key ∈ (r.apply u).gauges.keys ∨
      key ∈ (r.apply u).histograms.keys) :
    (key ∈ r.counters.keys ∨ key ∈ r.gauges.keys ∨ key ∈ r.histograms.keys) ∨
      key = metricKey u.series := by
  have hset : ∀ {γ : Type _} {d : Dict String γ} {k : String} {v : γ},
      key ∈ (d.set k v).keys → key ∈ d.keys ∨ key = k := by
    intro γ d k v hkey
    obtain ⟨v', hv'⟩ := Dict.mem_keys_iff.1 hkey
    rw [Dict.get?_set] at hv'
    split at hv'
    · next heq => exact .inr heq
    · exact .inl (Dict.mem_keys_iff.2 ⟨v', hv'⟩)
  cases u with
  | incCounter s value =>
      rcases h with h | h | h
      · exact (hset h).imp .inl id
      · exact .inl (.inr (.inl h))
      · exact .inl (.inr (.inr h))
  | setGauge s value =>
      rcases h with h | h | h
      · exact .inl (.inl h)
      · exact (hset h).imp (fun h => .inr (.inl h)) id
      · exact .inl (.inr (.inr h))
  | observe s value =>
      rcases h with h | h | h
      · exact .inl (.inl h)
      · exact .inl (.inr (.inl h))
      · exact (hset h).imp (fun h => .inr (.inr h)) id

theorem key_foldl_apply [Add α] [Zero α] {updates : List (Update α)} {key : String}
    {r : MetricsRegistry α}
    (h : key ∈ (updates.foldl apply r).counters.keys ∨
      key ∈ (updates.foldl apply r).gauges.keys ∨ key ∈ (updates.foldl apply r).histograms.keys) :
    (key ∈ r.counters.keys ∨ key ∈ r.gauges.keys ∨ key ∈ r.histograms.keys) ∨
      ∃ u ∈ updates, key = metricKey u.series := by
  induction updates generalizing r with
  | nil => exact .inl h
  | cons u updates ih =>
      rcases ih h with hkey | ⟨u', hu', hkey⟩
      · rcases key_apply hkey with hkey | hkey
        · exact .inl hkey
        · exact .inr ⟨u, List.mem_cons_self, hkey⟩
      · exact .inr ⟨u', List.mem_cons_of_mem _ hu', hkey⟩

theorem mem_keys_of_mem_sortedItems {d : Dict String β} {e : String × β} (h : e ∈ sortedItems d) :
    e.1 ∈ d.keys := by
  obtain ⟨k, v⟩ := e
  exact Dict.mem_keys_iff.2 ⟨v, mem_sortedItems.1 h⟩

/-- **What is shown can be read back**: if no series of the samples has a line break in its string,
and no value a space or a line break, then the text of `/metrics` shows the counters, the gauges and
the histograms, each in the order of their keys, and nothing else. -/
theorem scrape_renderPrometheus [Add α] [Zero α] {format : α → String}
    {updates : List (Update α)}
    (hformat : ∀ a, '\n' ∉ (format a).toList ∧ ' ' ∉ (format a).toList)
    (hupdates : ∀ u ∈ updates, '\n' ∉ (metricKey u.series).toList) :
    scrape (renderPrometheus format (updates.foldl apply init)) =
      (updates.foldl apply init).samples format := by
  have hkeys : ∀ key, key ∈ (updates.foldl apply init).counters.keys ∨
      key ∈ (updates.foldl apply init).gauges.keys ∨
      key ∈ (updates.foldl apply init).histograms.keys → '\n' ∉ key.toList := by
    intro key hkey
    rcases key_foldl_apply hkey with hkey | ⟨u, hu, rfl⟩
    · rcases hkey with hkey | hkey | hkey <;> cases hkey
    · exact hupdates u hu
  rw [renderPrometheus_eq]
  refine scrape_lines fun e he => ?_
  simp only [samples, List.mem_append, List.mem_map, List.mem_flatMap, List.mem_cons,
    List.not_mem_nil, or_false] at he
  rcases he with (⟨e, he, rfl⟩ | ⟨e, he, rfl⟩) | ⟨e, he, rfl | rfl⟩
  · exact ⟨hkeys _ (.inl (mem_keys_of_mem_sortedItems he)), hformat _⟩
  · exact ⟨hkeys _ (.inr (.inl (mem_keys_of_mem_sortedItems he))), hformat _⟩
  · have hkey := hkeys _ (.inr (.inr (mem_keys_of_mem_sortedItems he)))
    refine ⟨?_, notMem_toString _ (by decide), notMem_toString _ (by decide)⟩
    rw [String.toList_append, List.mem_append, not_or]
    exact ⟨hkey, by decide⟩
  · have hkey := hkeys _ (.inr (.inr (mem_keys_of_mem_sortedItems he)))
    refine ⟨?_, hformat _⟩
    rw [String.toList_append, List.mem_append, not_or]
    exact ⟨hkey, by decide⟩

theorem scrape_renderPrometheus_hits :
    scrape (renderPrometheus (toString : ℕ → String)
      ([Update.incCounter hits 1, .observe misses 7].foldl apply init)) =
      [("cache_hit_total{node=n1,role=cache}", "1"), ("cache_miss_total_count", "1"),
        ("cache_miss_total_sum", "7")] := by
  rw [scrape_renderPrometheus]
  · decide +kernel
  · exact fun n => ⟨notMem_toString n (by decide), notMem_toString n (by decide)⟩
  · simp only [List.forall_mem_cons, List.not_mem_nil, IsEmpty.forall_iff, implies_true, and_true]
    exact ⟨by decide +kernel, by decide +kernel⟩

end Metrics
