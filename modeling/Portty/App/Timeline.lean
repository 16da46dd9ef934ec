import Portty.App.Policy
import Portty.Lib.Recent

/-!
# Timelines (`App.tsx`, `session.rs`)

The host numbers the events of an agent session from 1 on. The phone gets live events one by one and
snapshots of what the host has kept, and merges both into its own list by number
(`mergeAgentBatch`). It keeps the 2000 latest and the last event of each `ReducerType`.

`Log.delivered` are the numbers that have reached the phone. `Faithful` says what the phone's list
is worth then:

* its events are events of the log that were delivered, by number;
* a tool event is one of the 2000 latest of the list;
* a delivered tool event that is missing was cut off by 2000 later ones, or was delivered before the
  list was started again, and then everything in the list is later.

So the tool events of the list are the last ones of those delivered (`Faithful.tools_suffix`), and
what they say about a request is what the delivered ones say.
-/

namespace Portty

namespace Timeline

open Policy Recent

/-- The timeline of one session in one run of the host. -/
structure Log where
  events : List AgentEvent := []
  /-- The numbers of the events that have reached the phone. -/
  delivered : List Nat := []
  /-- The number of events when the connection began, or when the phone was told that the session is
  gone. Live events are later. -/
  base : Nat := 0

namespace Log

variable (l : Log)

/-- The events under their numbers, from 1 on. -/
def entries : List AgentTimelineEvent :=
  l.events.mapIdx fun n event => { seq := n + 1, event }

/-- The events that have reached the phone. -/
def own : List AgentTimelineEvent := l.entries.filter fun x => x.seq ∈ l.delivered

/-- `push_agent_event` -/
def emit (event : AgentEvent) : Log := { l with events := l.events ++ [event] }

/-- A connection begins, or the phone is told that the session is gone. -/
def cut : Log := { l with base := l.events.length }

/-- A batch has reached the phone. -/
def deliver (batch : List AgentTimelineEvent) : Log :=
  { l with delivered := l.delivered ++ batch.map (·.seq) }

/-- `StickyAgentEvent`: the last event of its type. -/
def isSticky (entries : List AgentTimelineEvent) (x : AgentTimelineEvent) : Bool :=
  match x.event with
  | .reducer type => entries.all fun y => y.event ≠ .reducer type || y.seq ≤ x.seq
  | _ => false

/-- `AgentHistory::snapshot` when the log had `upto` events, of which those before `since` were
evicted. -/
def snapshot (since upto : Nat) : List AgentTimelineEvent :=
  let known := l.entries.filter (·.seq ≤ upto)
  known.filter fun x => since ≤ x.seq || isSticky known x

end Log

/-! ## `mergeAgentBatch` -/

/-- The events that are not counted among the reducers. -/
def maxTimelineEvents : Nat := 2000

/-- The types of which the last event is kept. -/
def reducerTypes : List ReducerType :=
  [.availableCommands, .modeState, .configOptions, .sessionInfo, .replaying, .authRequired, .usage]

/-- The last event of the type is kept. -/
def keepLatest (ordered retained : List AgentTimelineEvent) (type : ReducerType) :
    List AgentTimelineEvent :=
  match ordered.reverse.find? (·.event = .reducer type) with
  | none => retained
  | some x => if retained.any (·.seq = x.seq) then retained else retained ++ [x]

/-- The phone's list of a session after a batch. -/
def mergeAgentBatch (existing batch : List AgentTimelineEvent) : List AgentTimelineEvent :=
  let ordered := Recent.ordered AgentTimelineEvent.seq (existing ++ batch)
  let retained := latest maxTimelineEvents ordered
  (reducerTypes.foldl (keepLatest ordered) retained).insertionSort fun x y => x.seq ≤ y.seq

/-! ## What the merge keeps -/

open AgentTimelineEvent (seq)

variable {ordered retained existing batch R : List AgentTimelineEvent} {x y : AgentTimelineEvent}
variable {l : Log}

/-- The list between the latest events and all of them, where only reducer events are older. -/
structure Retains (ordered retained : List AgentTimelineEvent) : Prop where
  nodup : (retained.map (·.seq)).Nodup
  subset : retained ⊆ ordered
  latest : latest maxTimelineEvents ordered ⊆ retained
  tool : ∀ x ∈ retained, x.isTool → x ∈ Recent.latest maxTimelineEvents ordered

/-- Another type only adds its last event. -/
theorem Retains.keepLatest (h : Retains ordered retained) (type : ReducerType) :
    Retains ordered (keepLatest ordered retained type) := by
  unfold Timeline.keepLatest
  split
  · exact h
  · next x hx =>
    split
    · exact h
    · next hnew =>
      have hmem : x ∈ ordered := List.mem_reverse.mp (List.mem_of_find?_eq_some hx)
      have hred : x.event = .reducer type := by simpa using List.find?_some hx
      refine ⟨?_, ?_, fun y hy => List.mem_append_left _ (h.latest hy), ?_⟩
      · rw [List.map_append, List.nodup_append]
        refine ⟨h.nodup, by simp, ?_⟩
        intro a ha b hb hab
        obtain ⟨y, hy, rfl⟩ := List.mem_map.mp ha
        obtain rfl : b = x.seq := by simpa using hb
        exact hnew (List.any_eq_true.mpr ⟨y, hy, by simpa using hab⟩)
      · exact List.append_subset.mpr ⟨h.subset, by simpa using hmem⟩
      · intro y hy ht
        obtain hy | hy := List.mem_append.mp hy
        · exact h.tool y hy ht
        · obtain rfl := List.mem_singleton.mp hy
          simp [AgentTimelineEvent.isTool, hred] at ht

theorem Retains.foldl (h : Retains ordered retained) (types : List ReducerType) :
    Retains ordered (types.foldl (Timeline.keepLatest ordered) retained) := by
  induction types generalizing retained with
  | nil => exact h
  | cons type types ih => exact ih (h.keepLatest type)

theorem retains_latest (h : Ascending seq ordered) :
    Retains ordered (latest maxTimelineEvents ordered) where
  nodup := List.pairwise_map.mpr ((h.latest _).imp Nat.ne_of_lt)
  subset := latest_subset _ _
  latest := fun _ h => h
  tool := fun _ h _ => h

theorem mergeAgentBatch_retains (existing batch : List AgentTimelineEvent) :
    Retains (Recent.ordered seq (existing ++ batch)) (mergeAgentBatch existing batch) := by
  have h := (retains_latest (ascending_ordered seq (existing ++ batch))).foldl reducerTypes
  have hp := List.perm_insertionSort (fun x y : AgentTimelineEvent => x.seq ≤ y.seq)
    (reducerTypes.foldl (keepLatest (Recent.ordered seq (existing ++ batch)))
      (latest maxTimelineEvents (Recent.ordered seq (existing ++ batch))))
  exact
    { nodup := (hp.map _).nodup_iff.mpr h.nodup
      subset := fun x hx => h.subset (hp.mem_iff.mp hx)
      latest := fun x hx => hp.mem_iff.mpr (h.latest hx)
      tool := fun x hx => h.tool x (hp.mem_iff.mp hx) }

theorem ascending_mergeAgentBatch (existing batch : List AgentTimelineEvent) :
    Ascending seq (mergeAgentBatch existing batch) := by
  have hs : (mergeAgentBatch existing batch).Pairwise fun x y => x.seq ≤ y.seq :=
    List.pairwise_insertionSort _ _
  have hn := (mergeAgentBatch_retains existing batch).nodup
  rw [List.Nodup, List.pairwise_map] at hn
  exact (hs.and hn).imp fun h => lt_of_le_of_ne h.1 h.2

/-! ## The log -/

theorem mem_entries : x ∈ l.entries ↔ ∃ n, x.seq = n + 1 ∧ l.events[n]? = some x.event := by
  rw [Log.entries, List.mem_iff_getElem?]
  simp only [List.getElem?_mapIdx, Option.map_eq_some_iff]
  constructor
  · rintro ⟨n, event, he, rfl⟩
    exact ⟨n, rfl, he⟩
  · rintro ⟨n, hn, he⟩
    exact ⟨n, x.event, he, by rw [← hn]⟩

theorem ascending_entries (l : Log) : Ascending seq l.entries := by
  rw [Log.entries, Ascending, List.pairwise_iff_getElem]
  intro i j hi hj hij
  simpa using hij

theorem seq_le_of_mem_entries (h : x ∈ l.entries) : x.seq ≤ l.events.length := by
  obtain ⟨n, hn, he⟩ := mem_entries.mp h
  have := (List.getElem?_eq_some_iff.mp he).1
  omega

theorem ascending_own (l : Log) : Ascending seq l.own := (ascending_entries l).filter _

theorem mem_own : x ∈ l.own ↔ x ∈ l.entries ∧ x.seq ∈ l.delivered := by
  simp [Log.own]

/-- What was delivered, was there. -/
def Log.Delivered (l : Log) : Prop := ∀ n ∈ l.delivered, n ≤ l.events.length

theorem mem_entries_emit (event : AgentEvent) :
    x ∈ (l.emit event).entries ↔ x ∈ l.entries ∨ x = ⟨l.events.length + 1, event⟩ := by
  rw [Log.entries, Log.emit, List.mapIdx_append, List.mem_append, Log.entries]
  simp

/-- A new event has not reached the phone yet. -/
theorem mem_own_emit (h : l.Delivered) (event : AgentEvent) :
    x ∈ (l.emit event).own ↔ x ∈ l.own := by
  rw [mem_own, mem_own, mem_entries_emit]
  constructor
  · rintro ⟨hx | rfl, hd⟩
    · exact ⟨hx, hd⟩
    · have : l.events.length + 1 ≤ l.events.length := h _ hd
      omega
  · exact fun hx => ⟨.inl hx.1, hx.2⟩

theorem mem_own_deliver (hb : batch ⊆ l.entries) :
    x ∈ (l.deliver batch).own ↔ x ∈ l.own ∨ x ∈ batch := by
  rw [mem_own, mem_own]
  simp only [Log.deliver, List.mem_append, List.mem_map]
  constructor
  · rintro ⟨hx, hd | ⟨y, hy, hyx⟩⟩
    · exact .inl ⟨hx, hd⟩
    · have hyx : y = x := (ascending_entries l).consistent y (hb hy) x hx hyx
      exact .inr (hyx ▸ hy)
  · rintro (⟨hx, hd⟩ | hx)
    · exact ⟨hx, .inl hd⟩
    · exact ⟨hb hx, .inr ⟨x, hx, rfl⟩⟩

/-! ## The phone's list -/

/-- The list `R` of the phone is what was delivered, as far as tools are concerned. -/
structure Faithful (l : Log) (R : List AgentTimelineEvent) : Prop where
  delivered : l.Delivered
  ascending : Ascending seq R
  own : R ⊆ l.own
  window : ∀ x ∈ R, x.isTool → R.countP (x.seq < ·.seq) < maxTimelineEvents
  missing : ∀ x ∈ l.own, x.isTool → x ∉ R →
    (x.seq ≤ l.base ∧ ∀ y ∈ R, y.isTool → x.seq < y.seq) ∨
      maxTimelineEvents ≤ R.countP (x.seq < ·.seq)

/-- An empty list right after the cut. -/
theorem Faithful.cut_nil (h : l.Delivered) : Faithful l.cut [] where
  delivered := h
  ascending := List.Pairwise.nil
  own := by simp
  window := by simp
  missing x hx _ _ := .inl ⟨seq_le_of_mem_entries (mem_own.mp hx).1, by simp⟩

/-- A later cut takes nothing away. -/
theorem Faithful.cut (h : Faithful l R) : Faithful l.cut R where
  delivered := h.delivered
  ascending := h.ascending
  own := h.own
  window := h.window
  missing x hx ht hR := by
    obtain ⟨-, hall⟩ | hcount := h.missing x hx ht hR
    · exact .inl ⟨seq_le_of_mem_entries (mem_own.mp hx).1, hall⟩
    · exact .inr hcount

theorem Faithful.emit (h : Faithful l R) (event : AgentEvent) : Faithful (l.emit event) R where
  delivered n hn := by
    have := h.delivered n hn
    simp only [Log.emit, List.length_append, List.length_singleton]
    omega
  ascending := h.ascending
  own x hx := (mem_own_emit h.delivered event).mpr (h.own hx)
  window := h.window
  missing x hx := h.missing x ((mem_own_emit h.delivered event).mp hx)

/-- A batch of the log that leaves no gap behind what the list was started with. -/
structure Batch (l : Log) (batch : List AgentTimelineEvent) : Prop where
  subset : batch ⊆ l.entries
  later : ∀ x ∈ l.own, x ∉ batch → x.seq ≤ l.base → ∀ y ∈ batch, y.isTool → x.seq < y.seq

theorem Batch.delivered (hb : Batch l batch) (h : l.Delivered) : (l.deliver batch).Delivered := by
  intro n hn
  obtain hn | hn := List.mem_append.mp hn
  · exact h n hn
  · obtain ⟨x, hx, rfl⟩ := List.mem_map.mp hn
    exact seq_le_of_mem_entries (hb.subset hx)

/-- A batch of the log keeps the timeline faithful. -/
theorem Faithful.merge (h : Faithful l R) (hb : Batch l batch) :
    Faithful (l.deliver batch) (mergeAgentBatch R batch) := by
  have hin : R ++ batch ⊆ l.entries :=
    List.append_subset.mpr ⟨fun x hx => (mem_own.mp (h.own hx)).1, hb.subset⟩
  have hcons : Consistent seq (R ++ batch) := fun x hx y hy =>
    (ascending_entries l).consistent x (hin hx) y (hin hy)
  have hmem : ∀ x, x ∈ Recent.ordered seq (R ++ batch) ↔ x ∈ R ∨ x ∈ batch := fun x => by
    rw [mem_ordered hcons, List.mem_append]
  have hasc := ascending_ordered seq (R ++ batch)
  have hret := mergeAgentBatch_retains R batch
  have hasc' := ascending_mergeAgentBatch R batch
  -- What is above the latest is above in the new list.
  have habove : ∀ m, maxTimelineEvents ≤
      (latest maxTimelineEvents (Recent.ordered seq (R ++ batch))).countP (m < ·.seq) →
      maxTimelineEvents ≤ (mergeAgentBatch R batch).countP (m < ·.seq) := fun m hm =>
    hm.trans ((hasc.latest _).countP_le hret.latest _)
  refine ⟨hb.delivered h.delivered, hasc', fun x hx => ?_, fun x hx ht => ?_, fun x hx ht hR => ?_⟩
  · rw [mem_own_deliver hb.subset]
    exact ((hmem x).mp (hret.subset hx)).imp (fun hx => h.own hx) id
  · have := hasc.countP_lt_of_mem_latest (hret.tool x hx ht)
    exact (hasc'.countP_le hret.subset _).trans_lt this
  · by_cases hord : x ∈ Recent.ordered seq (R ++ batch)
    · exact .inr (habove _ (hasc.countP_latest_of_notMem hord fun hl => hR (hret.latest hl)))
    · rw [hmem, not_or] at hord
      rw [mem_own_deliver hb.subset] at hx
      have hx := hx.resolve_right hord.2
      obtain ⟨hbase, hall⟩ | hcount := h.missing x hx ht hord.1
      · refine .inl ⟨hbase, fun y hy hyt => ?_⟩
        obtain hy | hy := (hmem y).mp (hret.subset hy)
        · exact hall y hy hyt
        · exact hb.later x hx hord.2 hbase y hy hyt
      · refine .inr (habove _ (hasc.le_countP_latest (hcount.trans ?_)))
        exact h.ascending.countP_le (fun y hy => (hmem y).mpr (.inl hy)) _

/-- A missing tool event is before the tool events of the list. -/
theorem Faithful.lt_of_missing (h : Faithful l R) (hx : x ∈ l.own) (hxt : x.isTool) (hR : x ∉ R)
    (hy : y ∈ R) (hyt : y.isTool) : x.seq < y.seq := by
  obtain ⟨-, hall⟩ | hcount := h.missing x hx hxt hR
  · exact hall y hy hyt
  · by_contra hle
    have hmono : R.countP (x.seq < ·.seq) ≤ R.countP (y.seq < ·.seq) := by
      refine List.countP_mono_left fun z _ hz => ?_
      simp only [decide_eq_true_eq] at hz ⊢
      omega
    have := h.window y hy hyt
    omega

/-- The tool events of the list are the last ones of those delivered. -/
theorem Faithful.tools_suffix (h : Faithful l R) :
    ∃ before, l.own.filter (·.isTool) = before ++ R.filter (·.isTool) := by
  have hasc : Ascending seq (l.own.filter (·.isTool)) := (ascending_own l).filter _
  have hsplit := hasc.eq_filter_append (p := fun x => x ∈ R) fun x hx y hy hxR hxy => by
    simp only [List.mem_filter, decide_eq_true_eq] at hx hy hxR ⊢
    by_contra hyR
    have := h.lt_of_missing hy.1 hy.2 hyR hxR hx.2
    omega
  refine ⟨_, hsplit.trans (congrArg _ ?_)⟩
  refine (hasc.filter _).ext (h.ascending.filter _) fun x => ?_
  simp only [List.mem_filter, decide_eq_true_eq]
  exact ⟨fun hx => ⟨hx.2, hx.1.2⟩, fun hx => ⟨⟨h.own hx.1, hx.2⟩, hx.1⟩⟩

/-- An input that the list gives is the one that was delivered. -/
theorem Faithful.permissionToolInput (h : Faithful l R) {js : Js} {request : AgentPermission}
    {input : String} (hi : permissionToolInput js request R = some input) :
    Policy.permissionToolInput js request l.own = some input := by
  obtain ⟨before, hb⟩ := h.tools_suffix
  rw [← permissionToolInput_filter, hb]
  rw [← permissionToolInput_filter] at hi
  exact permissionToolInput_append before hi

theorem Faithful.permissionCategory (h : Faithful l R) {request : AgentPermission}
    (hc : permissionCategory request R ≠ .unknown) :
    Policy.permissionCategory request l.own = permissionCategory request R := by
  obtain ⟨before, hb⟩ := h.tools_suffix
  rw [← permissionCategory_filter request R] at hc ⊢
  rw [← permissionCategory_filter, hb]
  exact permissionCategory_append before hc

/-! ## The batches of the host -/

theorem Log.batch_live (hx : x ∈ l.entries) (h : l.base < x.seq) : Batch l [x] where
  subset := by simpa using hx
  later z _ _ hz y hy _ := by
    obtain rfl := List.mem_singleton.mp hy
    omega

/-- A snapshot leaves no gap. -/
theorem Log.batch_snapshot {since upto : Nat} (h : l.base ≤ upto) :
    Batch l (l.snapshot since upto) where
  subset x hx := by
    simp only [Log.snapshot, List.mem_filter] at hx
    exact hx.1.1
  later x hx hnot hbase y hy ht := by
    simp only [Log.snapshot, List.mem_filter, Bool.or_eq_true, decide_eq_true_eq] at hnot hy
    have hx := (mem_own.mp hx).1
    have hlt : x.seq < since := by
      by_contra hle
      exact hnot ⟨⟨hx, by omega⟩, .inl (by omega)⟩
    have hnst : ¬ Log.isSticky (l.entries.filter (·.seq ≤ upto)) y = true := by
      unfold Log.isSticky
      split
      · next hr => simp [AgentTimelineEvent.isTool, hr] at ht
      · simp
    have := hy.2.resolve_right hnst
    omega

end Timeline

end Portty
