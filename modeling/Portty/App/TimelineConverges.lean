import Portty.App.Timeline
import Portty.Cli.LaptopChatSafe

/-!
# The timeline of a session, on the host and on the phone (`session.rs`, `App.tsx`)

`push_agent_event` draws a number, records the event in the history and broadcasts it; other tasks
can come between these steps. The phone merges what it gets of snapshots and live events, in any
order and any number of times.

* `Window`: the history has the newest events that fit, and no event more could stay.
* `mem_mergeAgentBatch`, `merge_retained`: the phone has the newest 2000 of what was delivered, and
  the last of each reducer type (`retained`), whatever the order.
* `timeline_converges`: all of this holds in each state, except that the last event of a kind can be
  lost: where it was recorded before an earlier one of its kind and has left the window since.

`pushed` and `delivered` only record.
-/

namespace Portty.TimelineRun

open Cli.LaptopChat (Feed AgentHistory StickyAgentEvent maxAgentHistoryBytes)
open Policy (AgentEvent ReducerType)
open Policy.AgentTimelineEvent (seq)
open Recent Timeline

/-- An event under its number. -/
abbrev Entry := Cli.LaptopChat.AgentTimelineEvent

variable {ε : Type}

/-- What the phone sees of an event, and `agent_event_size`. -/
structure Kind (ε : Type) where
  view : ε → AgentEvent
  size : ε → Nat

/-- `sticky_agent_event` -/
def stickyAgentEvent : AgentEvent → Option StickyAgentEvent
  | .reducer .availableCommands => some .commands
  | .reducer .modeState => some .mode
  | .reducer .configOptions => some .config
  | .reducer .sessionInfo => some .sessionInfo
  | .reducer .replaying => some .replaying
  | .reducer .authRequired => some .auth
  | .reducer .usage => some .usage
  | .toolCall .. | .toolCallUpdate .. | .other => none

namespace Kind

variable (k : Kind ε)

/-- What the history asks of an event. -/
def feed : Feed ε := ⟨k.size, fun e => stickyAgentEvent (k.view e)⟩

/-- The kind under which the history keeps the event. -/
def sticky (e : Entry ε) : Option StickyAgentEvent := k.feed.sticky e.event

/-- The event as the phone reads it. -/
def onPhone (e : Entry ε) : Policy.AgentTimelineEvent := ⟨e.seq, k.view e.event⟩

/-- The bytes of the events. -/
def bytes (events : List (Entry ε)) : Nat := (events.map fun e => k.size e.event).sum

end Kind

/-- The number and the history of the host, the events under way, and the timeline. -/
structure State (ε : Type) where
  nextSeq : Nat := 1
  /-- Drawn, and not in the history yet. -/
  drawn : List (Entry ε) := []
  history : AgentHistory ε := {}
  /-- In the history, and not broadcast yet. -/
  recorded : List (Entry ε) := []
  /-- What has gone to the phone, in snapshots and live. -/
  sent : List (Entry ε) := []
  timeline : List Policy.AgentTimelineEvent := []
  pushed : List (Entry ε) := []
  delivered : List Policy.AgentTimelineEvent := []

/-- What the tasks, the link and the phone do. -/
inductive Event (ε : Type) where
  /-- `push_agent_event` of a task. -/
  | draw (event : ε)
  | push (i : Nat)
  | broadcast (i : Nat)
  /-- A phone attaches and is sent a snapshot. -/
  | attach
  /-- A batch with these of the events that were sent. -/
  | deliver (picks : List Nat)

variable (k : Kind ε)

namespace State

/-- One event. -/
def step (s : State ε) : Event ε → State ε
  | .draw event => { s with nextSeq := s.nextSeq + 1, drawn := s.drawn ++ [⟨s.nextSeq, event⟩] }
  | .push i =>
    match s.drawn[i]? with
    | none => s
    | some e =>
      { s with
        drawn := s.drawn.eraseIdx i
        history := s.history.push k.feed e
        recorded := s.recorded ++ [e]
        pushed := s.pushed ++ [e] }
  | .broadcast i =>
    match s.recorded[i]? with
    | none => s
    | some e => { s with recorded := s.recorded.eraseIdx i, sent := s.sent ++ [e] }
  | .attach => { s with sent := s.sent ++ s.history.snapshot }
  | .deliver picks =>
    let batch := (picks.filterMap fun i => s.sent[i]?).map k.onPhone
    { s with timeline := mergeAgentBatch s.timeline batch, delivered := s.delivered ++ batch }

end State

/-- A run from an empty history. -/
def run (evs : List (Event ε)) : State ε := Run.run (State.step k) {} evs

/-! ## What is to hold -/

/-- The event has the highest number of its kind. -/
def Highest (pushed : List (Entry ε)) (e : Entry ε) : Prop :=
  k.sticky e ≠ none ∧ ∀ e' ∈ pushed, k.sticky e' = k.sticky e → e'.seq ≤ e.seq

/-- The newest 2000 events, and the last of each reducer type. -/
def retained (delivered : List Policy.AgentTimelineEvent) : List Policy.AgentTimelineEvent :=
  let ordered := ordered seq delivered
  ordered.filter fun x => x ∈ latest maxTimelineEvents ordered || Log.isSticky ordered x

/-- What holds after every run. -/
structure Converges (s : State ε) : Prop where
  counted : s.history.bytes = k.bytes s.history.events
  cap : 1 < s.history.events.length → s.history.bytes ≤ maxAgentHistoryBytes
  ascending : s.history.snapshot.Pairwise (·.seq < ·.seq)
  sticky : ∀ e ∈ s.pushed, Highest k s.pushed e → e ∈ s.history.snapshot
  /-- The timeline of the phone depends on the set of the delivered events only. -/
  timeline : ∀ delivered, (∀ x, x ∈ delivered ↔ x ∈ s.delivered) → s.timeline = retained delivered

/-- The highest event of a kind was the last one of its kind to be recorded, or all that was
recorded since, it included, fits into the history. -/
def Kept (pushed : List (Entry ε)) : Prop := ∀ before e after, pushed = before ++ e :: after → Highest k pushed e →
  (∀ e' ∈ after, k.sticky e' ≠ k.sticky e) ∨ k.bytes (e :: after) ≤ maxAgentHistoryBytes

/-! ## The history -/

variable {k} {s : State ε} {pushed : List (Entry ε)} {h : AgentHistory ε} {e e' : Entry ε}

/-- What has gone would not fit. -/
structure Window (k : Kind ε) (pushed : List (Entry ε)) (events : List (Entry ε)) (bytes : Nat) : Prop where
  counted : bytes = k.bytes events
  cap : 1 < events.length → bytes ≤ maxAgentHistoryBytes
  gone : ∃ gone, pushed = gone ++ events ∧
    ∀ before x after, gone = before ++ x :: after → maxAgentHistoryBytes < k.bytes (x :: after ++ events)

theorem bytes_cons (e : Entry ε) (events : List (Entry ε)) :
    k.bytes (e :: events) = k.size e.event + k.bytes events :=
  rfl

theorem bytes_append (events more : List (Entry ε)) :
    k.bytes (events ++ more) = k.bytes events + k.bytes more := by
  rw [Kind.bytes, Kind.bytes, Kind.bytes, List.map_append, List.sum_append]

/-- Pruning leaves a window of the newest events. -/
theorem window_prune (events : List (Entry ε)) {bytes : Nat} (hb : bytes = k.bytes events) :
    Window k events (AgentHistory.prune k.feed events bytes).1 (AgentHistory.prune k.feed events bytes).2 := by
  have hrefl {events : List (Entry ε)} {bytes : Nat} (hb : bytes = k.bytes events)
      (hcap : 1 < events.length → bytes ≤ maxAgentHistoryBytes) : Window k events events bytes :=
    ⟨hb, hcap, [], rfl, fun before x after he => absurd he (List.append_ne_nil_of_right_ne_nil _ (List.cons_ne_nil _ _)).symm⟩
  induction events generalizing bytes with
  | nil => exact hrefl hb fun h => absurd h (Nat.not_lt_zero 1)
  | cons old rest ih =>
    cases rest with
    | nil => exact hrefl hb fun h => absurd h (Nat.lt_irrefl _)
    | cons next rest =>
      rw [AgentHistory.prune]
      split
      · next hlarge =>
        have hb' : bytes - k.feed.size old.event = k.bytes (next :: rest) := by
          rw [hb, bytes_cons]
          exact Nat.add_sub_cancel_left _ _
        have hrest := ih hb'
        obtain ⟨gone, hsplit, hgone⟩ := hrest.gone
        refine ⟨hrest.counted, hrest.cap, old :: gone, congrArg (old :: ·) hsplit, fun before x after he => ?_⟩
        cases before with
        | nil =>
          obtain ⟨rfl, rfl⟩ := List.cons.inj he
          rw [List.cons_append, ← hsplit, ← hb]
          exact hlarge
        | cons b before => exact hgone before x after (List.cons.inj he).2
      · next hfits => exact hrefl hb fun _ => Nat.le_of_not_lt hfits

/-- A push moves the window. -/
theorem Window.push (hw : Window k pushed h.events h.bytes) (e : Entry ε) :
    Window k (pushed ++ [e]) (h.push k.feed e).events (h.push k.feed e).bytes := by
  have hb : h.bytes + k.feed.size e.event = k.bytes (h.events ++ [e]) := by
    rw [bytes_append, hw.counted]
    rfl
  have hp := window_prune (h.events ++ [e]) hb
  obtain ⟨gone, rfl, hgone⟩ := hw.gone
  obtain ⟨gone', hsplit, hgone'⟩ := hp.gone
  refine ⟨hp.counted, hp.cap, gone ++ gone', ?_, fun before x after he => ?_⟩
  · rw [List.append_assoc, List.append_assoc]
    exact congrArg (gone ++ ·) hsplit
  · show maxAgentHistoryBytes < k.bytes (x :: after ++ (AgentHistory.prune k.feed _ _).1)
    obtain ⟨more, rfl, hx⟩ | ⟨more, rfl, hx⟩ := List.append_eq_append_iff.mp he
    · exact hgone' more x after hx
    · cases more with
      | nil => exact hgone' [] x after hx.symm
      | cons y more =>
        obtain ⟨rfl, hafter⟩ := List.cons.inj hx
        replace hafter : after = more ++ gone' := hafter
        subst hafter
        have hold := hgone before x more rfl
        rw [List.cons_append, List.append_assoc, ← hsplit, ← List.append_assoc, ← List.cons_append,
          bytes_append]
        exact Nat.lt_add_right _ hold

/-- Where an entry stands is settled. -/
theorem after_eq (hn : Rows.Unique (·.seq) pushed) {before after before' after' : List (Entry ε)}
    (hp : pushed = before ++ e :: after) (hp' : pushed = before' ++ e :: after') :
    after = after' := by
  have hnodup : pushed.Nodup := List.Nodup.of_map _ hn
  rw [hp, List.nodup_append] at hnodup
  obtain ⟨-, hcons, hdisjoint⟩ := hnodup
  have hbefore : e ∉ before := fun he => hdisjoint e he e List.mem_cons_self rfl
  exact ((List.append_cons_inj_of_notMem hbefore (List.nodup_cons.mp hcons).1).mp (hp.symm.trans hp')).2.2

/-- What came since fits, it included: then it is still there. -/
theorem Window.mem_of_fits {events : List (Entry ε)} {bytes : Nat}
    (hw : Window k pushed events bytes)
    {before after : List (Entry ε)} (hp : pushed = before ++ e :: after)
    (hfits : k.bytes (e :: after) ≤ maxAgentHistoryBytes) : e ∈ events := by
  obtain ⟨gone, hsplit, hgone⟩ := hw.gone
  obtain ⟨more, rfl, hx⟩ | ⟨more, rfl, hx⟩ := List.append_eq_append_iff.mp (hp.symm.trans hsplit)
  · cases more with
    | nil =>
      rw [List.nil_append] at hx
      rw [← hx]
      exact List.mem_cons_self
    | cons y more =>
      obtain ⟨rfl, rfl⟩ := List.cons.inj hx
      exact absurd (hgone before e more rfl) (Nat.not_lt.mpr hfits)
  · rw [hx]
    exact List.mem_append_right _ List.mem_cons_self

/-- Only the last event can be there and be too large. -/
theorem Window.fits_of_mem {events : List (Entry ε)} {bytes : Nat}
    (hw : Window k pushed events bytes)
    (hn : Rows.Unique (·.seq) pushed) {before after : List (Entry ε)}
    (hp : pushed = before ++ e :: after)
    (he : e ∈ events) : after = [] ∨ k.bytes (e :: after) ≤ maxAgentHistoryBytes := by
  obtain ⟨gone, hsplit, -⟩ := hw.gone
  obtain ⟨before', after', rfl⟩ := List.append_of_mem he
  obtain rfl : after = after' := after_eq hn hp (by rw [hsplit, List.append_assoc])
  by_cases hlen : 1 < (before' ++ e :: after).length
  · have hcap := hw.cap hlen
    rw [hw.counted, bytes_append] at hcap
    exact .inr (Nat.le_trans (Nat.le_add_left _ _) hcap)
  · rw [List.length_append, List.length_cons] at hlen
    exact .inl (List.length_eq_zero_iff.mp (by omega))

/-- The event of the kind that was recorded last. -/
def lastOf (k : Kind ε) (kind : StickyAgentEvent) (pushed : List (Entry ε)) : Option (Entry ε) :=
  pushed.reverse.find? fun e => k.sticky e = some kind

theorem lastOf_concat (kind : StickyAgentEvent) (pushed : List (Entry ε)) (e : Entry ε) :
    lastOf k kind (pushed ++ [e]) = if k.sticky e =
      some kind then some e else lastOf k kind pushed := by
  rw [lastOf, List.reverse_append, List.reverse_singleton, List.singleton_append, List.find?_cons]
  by_cases hk : k.sticky e = some kind
  · rw [if_pos hk, decide_eq_true hk]
  · rw [if_neg hk, decide_eq_false hk]
    rfl

theorem lastOf_eq_some {kind : StickyAgentEvent} (hl : lastOf k kind pushed = some e) :
    k.sticky e = some kind ∧
    ∃ before after, pushed = before ++ e :: after ∧ ∀ e' ∈ after, k.sticky e' ≠ some kind := by
  obtain ⟨hk, after, before, hrev, hnone⟩ := List.find?_eq_some_iff_append.mp hl
  refine ⟨of_decide_eq_true hk, before.reverse, after.reverse, ?_, fun e' he' => ?_⟩
  · rw [← List.reverse_reverse pushed, hrev]
    simp
  · simpa using hnone e' (List.mem_reverse.mp he')

theorem lastOf_of_split {kind : StickyAgentEvent} {before after : List (Entry ε)}
    (hp : pushed = before ++ e :: after)
    (hk : k.sticky e = some kind) (hnone : ∀ e' ∈ after, k.sticky e' ≠ some kind) :
    lastOf k kind pushed = some e := by
  rw [lastOf, List.find?_eq_some_iff_append]
  refine ⟨decide_eq_true hk, after.reverse, before.reverse, ?_, fun e' he' => ?_⟩
  · rw [hp]
    simp
  · simpa using hnone e' (List.mem_reverse.mp he')

/-- The history with what it has of each kind. -/
structure HistoryOk (k : Kind ε) (pushed : List (Entry ε)) (h : AgentHistory ε) : Prop where
  window : Window k pushed h.events h.bytes
  kinds : Rows.Unique (·.1) h.sticky
  sticky : ∀ kind, Rows.find (·.1) kind h.sticky = (lastOf k kind pushed).map (kind, ·)

/-- A push of any number, not only the highest. -/
theorem HistoryOk.push (ho : HistoryOk k pushed h) (e : Entry ε) :
    HistoryOk k (pushed ++ [e]) (h.push k.feed e) := by
  refine ⟨ho.window.push e, ?_, fun kind => ?_⟩
  · unfold AgentHistory.push
    dsimp only
    split
    · exact ho.kinds.put _
    · exact ho.kinds
  · have hold := ho.sticky kind
    rw [lastOf_concat]
    unfold AgentHistory.push
    dsimp only
    split
    · next kind' hk =>
      have hk : k.sticky e = some kind' := hk
      rw [Rows.find_put, hk]
      by_cases hkind : kind = kind'
      · rw [if_pos hkind, if_pos (by rw [hkind]), hkind]
        rfl
      · rw [if_neg hkind, if_neg fun he => hkind (Option.some.inj he).symm, hold]
    · next hk =>
      have hk : k.sticky e = none := hk
      rw [hk, if_neg (by simp), hold]

theorem HistoryOk.row (ho : HistoryOk k pushed h) {kind : StickyAgentEvent}
    (he : (kind, e) ∈ h.sticky) :
    lastOf k kind pushed = some e := by
  have hfind := ho.sticky kind
  rw [(Rows.find_eq_some ho.kinds).mpr ⟨he, rfl⟩] at hfind
  obtain ⟨e', hl, heq⟩ := Option.map_eq_some_iff.mp hfind.symm
  cases heq
  exact hl

theorem HistoryOk.mem_events (ho : HistoryOk k pushed h) (he : e ∈ h.events) : e ∈ pushed := by
  obtain ⟨gone, rfl, -⟩ := ho.window.gone
  exact List.mem_append_right _ he

theorem mem_of_lastOf {kind : StickyAgentEvent} (hl : lastOf k kind pushed = some e) :
    e ∈ pushed := by
  obtain ⟨-, before, after, rfl, -⟩ := lastOf_eq_some hl
  exact List.mem_append_right _ List.mem_cons_self

/-- A snapshot has the window and the last event of each kind. -/
theorem HistoryOk.mem_snapshot (ho : HistoryOk k pushed h) (hn : Rows.Unique (·.seq) pushed) :
    e ∈ h.snapshot ↔ e ∈ h.events ∨ ∃ kind, lastOf k kind pushed = some e := by
  rw [AgentHistory.snapshot, (List.perm_insertionSort _ _).mem_iff, List.mem_append,
    AgentHistory.left, List.mem_filter]
  constructor
  · rintro (he | ⟨he, -⟩)
    · exact .inl he
    · obtain ⟨⟨kind, e'⟩, hrow, rfl⟩ := List.mem_map.mp he
      exact .inr ⟨kind, ho.row hrow⟩
  · rintro (he | ⟨kind, hl⟩)
    · exact .inl he
    · by_cases hmem : e ∈ h.events
      · exact .inl hmem
      · refine .inr ⟨List.mem_map.mpr ⟨(kind, e), ?_, rfl⟩, List.all_eq_true.mpr fun e' he' => decide_eq_true ?_⟩
        · have hfind := ho.sticky kind
          rw [hl] at hfind
          exact Rows.mem_of_find hfind
        · intro heq
          exact hmem (hn.eq (ho.mem_events he') (mem_of_lastOf hl) heq ▸ he')

/-- No event is in a snapshot twice. -/
theorem HistoryOk.snapshot_strict (ho : HistoryOk k pushed h) (hn : Rows.Unique (·.seq) pushed) :
    h.snapshot.Pairwise (·.seq < ·.seq) := by
  have hevents : (h.events.map (·.seq)).Nodup := by
    obtain ⟨gone, rfl, -⟩ := ho.window.gone
    exact (List.map_append ▸ hn : (gone.map (·.seq) ++ h.events.map (·.seq)).Nodup).of_append_right
  have hsticky : ((h.sticky.map (·.2)).map (·.seq)).Nodup := by
    rw [List.map_map]
    refine ho.kinds.of_map _ |>.map_on ?_
    rintro ⟨kind, e⟩ he ⟨kind', e'⟩ he' heq
    have hl := ho.row he
    have hl' := ho.row he'
    obtain rfl : e = e' := hn.eq (mem_of_lastOf hl) (mem_of_lastOf hl') heq
    have hk := (lastOf_eq_some hl).1
    rw [(lastOf_eq_some hl').1] at hk
    cases hk
    rfl
  have hleft : (h.left.map (·.seq)).Nodup := hsticky.sublist (List.filter_sublist.map _)
  have hboth : ((h.events ++ h.left).map (·.seq)).Nodup := by
    rw [List.map_append, List.nodup_append]
    refine ⟨hevents, hleft, fun a ha b hb hab => ?_⟩
    obtain ⟨x, hx, rfl⟩ := List.mem_map.mp ha
    obtain ⟨y, hy, rfl⟩ := List.mem_map.mp hb
    have hall := List.all_eq_true.mp (List.mem_filter.mp hy).2 x hx
    exact of_decide_eq_true hall hab
  have hnodup : (h.snapshot.map (·.seq)).Nodup :=
    (((List.perm_insertionSort _ _).map _).nodup_iff).mpr hboth
  rw [List.Nodup, List.pairwise_map] at hnodup
  exact (h.snapshot_sorted.and hnodup).imp fun h => Nat.lt_of_le_of_ne h.1 h.2

/-- The highest event of each kind is in the snapshot if and only if it was kept. -/
theorem HistoryOk.sticky_iff (ho : HistoryOk k pushed h) (hn : Rows.Unique (·.seq) pushed) :
    (∀ e ∈ pushed, Highest k pushed e → e ∈ h.snapshot) ↔ Kept k pushed := by
  constructor
  · intro hs before e after hp hhigh
    have hmem : e ∈ pushed := by
      rw [hp]
      exact List.mem_append_right _ List.mem_cons_self
    obtain he | ⟨kind, hl⟩ := (ho.mem_snapshot hn).mp (hs e hmem hhigh)
    · obtain rfl | hfits := ho.window.fits_of_mem hn hp he
      · exact .inl nofun
      · exact .inr hfits
    · obtain ⟨hk, before', after', hp', hnone⟩ := lastOf_eq_some hl
      rw [after_eq hn hp hp', hk]
      exact .inl hnone
  · intro hkept e he hhigh
    obtain ⟨before, after, hp⟩ := List.append_of_mem he
    rw [ho.mem_snapshot hn]
    obtain hnone | hfits := hkept before e after hp hhigh
    · obtain ⟨kind, hk⟩ := Option.ne_none_iff_exists'.mp hhigh.1
      rw [hk] at hnone
      exact .inr ⟨kind, lastOf_of_split hp hk hnone⟩
    · exact .inl (ho.window.mem_of_fits hp hfits)

/-! ## The phone -/

variable {D B O R : List Policy.AgentTimelineEvent} {x y : Policy.AgentTimelineEvent}

/-- `keepLatest` adds the last event of its type. -/
theorem mem_keepLatest (hc : Consistent seq O) (hR : R ⊆ O) (type : ReducerType) :
    x ∈ keepLatest O R type ↔
    x ∈ R ∨ O.reverse.find? (·.event = .reducer type) = some x := by
  unfold keepLatest
  cases hf : O.reverse.find? (·.event = .reducer type) with
  | none => simp
  | some y =>
    have hy : y ∈ O := List.mem_reverse.mp (List.mem_of_find?_eq_some hf)
    dsimp only
    split
    · next hany =>
      obtain ⟨z, hz, heq⟩ := List.any_eq_true.mp hany
      obtain rfl : z = y := hc z (hR hz) y hy (of_decide_eq_true heq)
      constructor
      · exact .inl
      · rintro (hx | hx)
        · exact hx
        · cases hx
          exact hz
    · rw [List.mem_append, List.mem_singleton, Option.some.injEq, eq_comm (a := y)]

theorem mem_foldl_keepLatest (hc : Consistent seq O) (hR : R ⊆ O) (types : List ReducerType) :
    x ∈ types.foldl (keepLatest O) R ↔
      x ∈ R ∨ ∃ type ∈ types, O.reverse.find? (·.event = .reducer type) = some x := by
  induction types generalizing R with
  | nil => simp
  | cons type types ih =>
    have hsub : keepLatest O R type ⊆ O := by
      intro y hy
      obtain hy | hy := (mem_keepLatest hc hR type).mp hy
      · exact hR hy
      · exact List.mem_reverse.mp (List.mem_of_find?_eq_some hy)
    rw [List.foldl_cons, ih hsub, mem_keepLatest hc hR]
    simp only [List.mem_cons, exists_eq_or_imp, or_assoc]

theorem mem_reducerTypes (type : ReducerType) : type ∈ reducerTypes := by cases type <;> decide

/-- The last event of a reducer type. -/
theorem isSticky_iff : Log.isSticky O x = true ↔
    ∃ type, x.event = .reducer type ∧ ∀ y ∈ O, y.event = .reducer type → y.seq ≤ x.seq := by
  unfold Log.isSticky
  split
  · next type hx =>
    constructor
    · intro hall
      refine ⟨type, hx, fun y hy hye => ?_⟩
      have := List.all_eq_true.mp hall y hy
      simpa [hye] using this
    · rintro ⟨type', hx', hall⟩
      rw [hx] at hx'
      cases hx'
      refine List.all_eq_true.mpr fun y hy => ?_
      by_cases hye : y.event = .reducer type
      · simpa [hye] using hall y hy hye
      · simp [hye]
  · next hx =>
    refine iff_of_false Bool.false_ne_true ?_
    rintro ⟨type, htype, -⟩
    exact hx type htype

/-- The last event of a type in an ascending list. -/
theorem find_reverse_iff (ha : Ascending seq O) :
    (∃ type, O.reverse.find? (·.event = .reducer type) = some x) ↔
    x ∈ O ∧ Log.isSticky O x = true := by
  rw [isSticky_iff]
  constructor
  · rintro ⟨type, hf⟩
    obtain ⟨hx, after, before, hrev, hnone⟩ := List.find?_eq_some_iff_append.mp hf
    have hO : O = before.reverse ++ x :: after.reverse := by
      rw [← List.reverse_reverse O, hrev]
      simp
    refine ⟨by rw [hO]; exact List.mem_append_right _ List.mem_cons_self, type, of_decide_eq_true hx, fun y hy hye => ?_⟩
    rw [hO] at hy ha
    obtain hy | hy := List.mem_append.mp hy
    · exact Nat.le_of_lt ((List.pairwise_append.mp ha).2.2 y hy x List.mem_cons_self)
    · obtain rfl | hy := List.mem_cons.mp hy
      · exact Nat.le_refl _
      · have := hnone y (List.mem_reverse.mp hy)
        simp [hye] at this
  · rintro ⟨hx, type, hxe, hall⟩
    obtain ⟨before, after, rfl⟩ := List.append_of_mem hx
    refine ⟨type, List.find?_eq_some_iff_append.mpr ⟨decide_eq_true hxe, after.reverse, before.reverse, by simp, ?_⟩⟩
    intro y hy
    have hy := List.mem_reverse.mp hy
    have hlt := (List.pairwise_cons.mp (List.pairwise_append.mp ha).2.1).1 y hy
    have hne : y.event ≠ .reducer type := fun hye =>
      Nat.not_le.mpr hlt (hall y (List.mem_append_right _ (List.mem_cons_of_mem _ hy)) hye)
    simp [hne]

/-- A merge retains the same as if all had come at once. -/
theorem mem_mergeAgentBatch (existing batch : List Policy.AgentTimelineEvent) :
    x ∈ mergeAgentBatch existing batch ↔ x ∈ retained (existing ++ batch) := by
  have ha := ascending_ordered seq (existing ++ batch)
  rw [mergeAgentBatch, List.mem_insertionSort,
    mem_foldl_keepLatest ha.consistent (latest_subset _ _), retained]
  simp only [mem_reducerTypes, true_and]
  rw [find_reverse_iff ha, List.mem_filter, Bool.or_eq_true, decide_eq_true_eq]
  constructor
  · rintro (hx | ⟨hx, hs⟩)
    · exact ⟨latest_subset _ _ hx, .inl hx⟩
    · exact ⟨hx, .inr hs⟩
  · rintro ⟨hx, hl | hs⟩
    · exact .inl hl
    · exact .inr ⟨hx, hs⟩

theorem mem_latest_iff {n : Nat} (ha : Ascending seq O) :
    x ∈ latest n O ↔ x ∈ O ∧ O.countP (x.seq < ·.seq) < n := by
  constructor
  · intro hx
    exact ⟨latest_subset _ _ hx, ha.countP_lt_of_mem_latest hx⟩
  · rintro ⟨hx, hlt⟩
    by_contra hn
    have hle := ha.countP_latest_of_notMem hx hn
    have hsub := (ha.latest n).countP_le (latest_subset n O) (x.seq < ·.seq)
    omega

theorem mem_retained : x ∈ retained D ↔ x ∈ ordered seq D ∧
    ((ordered seq D).countP (x.seq < ·.seq) < maxTimelineEvents ∨ Log.isSticky (ordered seq D) x = true) := by
  rw [retained, List.mem_filter, Bool.or_eq_true, decide_eq_true_eq,
    mem_latest_iff (ascending_ordered seq D)]
  constructor
  · rintro ⟨hx, ⟨-, hl⟩ | hs⟩
    · exact ⟨hx, .inl hl⟩
    · exact ⟨hx, .inr hs⟩
  · rintro ⟨hx, hl | hs⟩
    · exact ⟨hx, .inl ⟨hx, hl⟩⟩
    · exact ⟨hx, .inr hs⟩

theorem ascending_retained (D : List Policy.AgentTimelineEvent) : Ascending seq (retained D) :=
  (ascending_ordered seq D).filter _

theorem retained_subset (hc : Consistent seq D) : retained D ⊆ D := fun _ hx =>
  (mem_ordered hc).mp (mem_retained.mp hx).1

/-- The order and the repetitions do not matter. -/
theorem retained_congr (hc : Consistent seq D) (hm : ∀ x, x ∈ B ↔ x ∈ D) :
    retained B = retained D := by
  have hcB : Consistent seq B := fun x hx y hy => hc x ((hm x).mp hx) y ((hm y).mp hy)
  have he : ordered seq B = ordered seq D := (ascending_ordered seq B).ext (ascending_ordered seq D) fun x => by
    rw [mem_ordered hcB, mem_ordered hc, hm]
  rw [retained, retained, he]

/-- Among more events an event is not among the latest more easily. -/
theorem countP_ordered_le (hc : Consistent seq D) (hs : B ⊆ D) (m : Nat) :
    (ordered seq B).countP (m < ·.seq) ≤ (ordered seq D).countP (m < ·.seq) := by
  have hcB : Consistent seq B := fun x hx y hy => hc x (hs hx) y (hs hy)
  exact (ascending_ordered seq B).countP_le (fun x hx => (mem_ordered hc).mpr (hs ((mem_ordered hcB).mp hx))) _

theorem isSticky_anti (hs : B ⊆ D) (hx : Log.isSticky D x = true) : Log.isSticky B x = true := by
  obtain ⟨type, hx, hall⟩ := isSticky_iff.mp hx
  exact isSticky_iff.mpr ⟨type, hx, fun y hy => hall y (hs hy)⟩

/-- Of each type that is there one event is the last. -/
theorem exists_sticky (ha : Ascending seq O) {type : ReducerType} (hy : y ∈ O)
    (hye : y.event = .reducer type) :
    ∃ z ∈ O, z.event = .reducer type ∧ Log.isSticky O z = true ∧ y.seq ≤ z.seq := by
  have hsome : (O.reverse.find? (·.event = .reducer type)).isSome = true :=
    List.find?_isSome.mpr ⟨y, List.mem_reverse.mpr hy, decide_eq_true hye⟩
  obtain ⟨z, hz⟩ := Option.isSome_iff_exists.mp hsome
  have hze : z.event = .reducer type := by simpa using List.find?_some hz
  obtain ⟨hmem, hs⟩ := (find_reverse_iff ha).mp ⟨type, hz⟩
  obtain ⟨type', hze', hall⟩ := isSticky_iff.mp hs
  rw [hze] at hze'
  cases hze'
  exact ⟨z, hmem, hze, hs, hall y hy hye⟩

/-- A batch on what was retained, and on all that was delivered. -/
theorem retained_append (hc : Consistent seq (D ++ B)) :
    retained (retained D ++ B) = retained (D ++ B) := by
  have hcD : Consistent seq D :=
    fun x hx y hy => hc x (List.mem_append_left _ hx) y (List.mem_append_left _ hy)
  have hsub : retained D ++ B ⊆ D ++ B := List.append_subset.mpr
    ⟨fun x hx => List.mem_append_left _ (retained_subset hcD hx), List.subset_append_right _ _⟩
  have hcR : Consistent seq (retained D ++ B) := fun x hx y hy => hc x (hsub hx) y (hsub hy)
  have hord : ordered seq (retained D ++ B) ⊆ ordered seq (D ++ B) := fun x hx =>
    (mem_ordered hc).mpr (hsub ((mem_ordered hcR).mp hx))
  -- What is retained of all of it is there.
  have hin {x : Policy.AgentTimelineEvent} (hx : x ∈ retained (D ++ B)) :
      x ∈ ordered seq (retained D ++ B) := by
    obtain ⟨hmem, hwhy⟩ := mem_retained.mp hx
    rw [mem_ordered hc, List.mem_append] at hmem
    rw [mem_ordered hcR, List.mem_append]
    refine hmem.imp_left fun hD => mem_retained.mpr ⟨(mem_ordered hcD).mpr hD, ?_⟩
    have hle : D ⊆ D ++ B := List.subset_append_left _ _
    refine hwhy.imp (fun hl => Nat.lt_of_le_of_lt (countP_ordered_le hc hle _) hl) fun hs => ?_
    exact isSticky_anti (fun y hy => (mem_ordered hc).mpr (hle ((mem_ordered hcD).mp hy))) hs
  refine (ascending_retained _).ext (ascending_retained _) fun x => ⟨fun hx => ?_, fun hx => ?_⟩
  · obtain ⟨hmem, hwhy⟩ := mem_retained.mp hx
    refine mem_retained.mpr ⟨hord hmem, hwhy.imp (fun hl => ?_) fun hs => ?_⟩
    · -- If 2000 of all are above, so are the 2000 latest of all, and these are retained.
      by_contra hge
      have ha := ascending_ordered seq (D ++ B)
      have htop := ha.le_countP_latest (Nat.le_of_not_lt hge)
      have hlatest : latest maxTimelineEvents (ordered seq (D ++ B)) ⊆ ordered seq (retained D ++ B) := fun y hy =>
        hin (mem_retained.mpr ⟨latest_subset _ _ hy, .inl ((mem_latest_iff ha).mp hy).2⟩)
      have hle := (ha.latest maxTimelineEvents).countP_le hlatest (x.seq < ·.seq)
      omega
    · obtain ⟨type, hxe, hall⟩ := isSticky_iff.mp hs
      refine isSticky_iff.mpr ⟨type, hxe, fun y hy hye => ?_⟩
      obtain ⟨z, hz, hze, hzs, hyz⟩ := exists_sticky (ascending_ordered seq _) hy hye
      exact Nat.le_trans hyz (hall z (hin (mem_retained.mpr ⟨hz, .inr hzs⟩)) hze)
  · obtain ⟨hmem, hwhy⟩ := mem_retained.mp hx
    refine mem_retained.mpr ⟨hin hx, hwhy.imp (fun hl => ?_) fun hs => isSticky_anti hord hs⟩
    exact Nat.lt_of_le_of_lt (countP_ordered_le hc hsub _) hl

theorem merge_retained (hc : Consistent seq (D ++ B)) :
    mergeAgentBatch (retained D) B = retained (D ++ B) := by
  rw [← retained_append hc]
  exact (ascending_mergeAgentBatch _ _).ext (ascending_retained _) fun x => mem_mergeAgentBatch _ _

/-! ## Runs -/

/-- The numbers are unique, and both sides have what they were given. -/
structure Inv (k : Kind ε) (s : State ε) : Prop where
  unique : Rows.Unique (·.seq) (s.drawn ++ s.pushed)
  numbered : ∀ e ∈ s.drawn ++ s.pushed, e.seq < s.nextSeq
  history : HistoryOk k s.pushed s.history
  recorded : s.recorded ⊆ s.pushed
  sent : s.sent ⊆ s.pushed
  delivered : s.delivered ⊆ s.pushed.map k.onPhone
  timeline : s.timeline = retained s.delivered

theorem Inv.distinct (hi : Inv k s) : Rows.Unique (·.seq) s.pushed :=
  hi.unique.sublist (List.sublist_append_right _ _)

theorem consistent_onPhone (hn : Rows.Unique (·.seq) pushed) (hD : D ⊆ pushed.map k.onPhone) :
    Consistent seq D := by
  intro x hx y hy heq
  obtain ⟨e, he, rfl⟩ := List.mem_map.mp (hD hx)
  obtain ⟨e', he', rfl⟩ := List.mem_map.mp (hD hy)
  rw [hn.eq he he' heq]

theorem Inv.step (hi : Inv k s) (ev : Event ε) : Inv k (s.step k ev) := by
  cases ev with
  | draw event =>
    have hperm : (s.drawn ++ [(⟨s.nextSeq, event⟩ : Entry ε)] ++ s.pushed).Perm (⟨s.nextSeq, event⟩ :: (s.drawn ++ s.pushed)) := by
      rw [List.append_assoc, List.singleton_append]
      exact List.perm_middle
    refine ⟨?_, fun e he => ?_, hi.history, hi.recorded, hi.sent, hi.delivered, hi.timeline⟩
    · refine ((hperm.map _).nodup_iff).mpr (List.nodup_cons.mpr ⟨fun hmem => ?_, hi.unique⟩)
      obtain ⟨e, he, heq⟩ := List.mem_map.mp hmem
      have hlt := hi.numbered e he
      rw [heq] at hlt
      exact Nat.lt_irrefl _ hlt
    · obtain rfl | he := List.mem_cons.mp (hperm.mem_iff.mp he)
      · exact Nat.lt_succ_self _
      · exact Nat.lt_succ_of_lt (hi.numbered e he)
  | push i =>
    unfold State.step
    dsimp only
    split
    · exact hi
    · next e he =>
      have hperm : (s.drawn.eraseIdx i ++ (s.pushed ++ [e])).Perm (s.drawn ++ s.pushed) := by
        obtain ⟨hlt, rfl⟩ := List.getElem?_eq_some_iff.mp he
        have herase := List.getElem_cons_eraseIdx_perm hlt
        rw [← List.append_assoc]
        exact List.perm_append_comm.trans (herase.append_right s.pushed)
      refine ⟨(hperm.map _).nodup_iff.mpr hi.unique, fun e he => hi.numbered e (hperm.mem_iff.mp he), hi.history.push e,
        ?_, fun x hx => List.mem_append_left _ (hi.sent hx), fun x hx => ?_, hi.timeline⟩
      · exact List.append_subset.mpr ⟨fun x hx => List.mem_append_left _ (hi.recorded hx), List.subset_append_right _ _⟩
      · rw [List.map_append]
        exact List.mem_append_left _ (hi.delivered hx)
  | broadcast i =>
    unfold State.step
    dsimp only
    split
    · exact hi
    · next e he =>
      refine ⟨hi.unique, hi.numbered, hi.history, fun x hx => hi.recorded (List.mem_of_mem_eraseIdx hx), ?_, hi.delivered,
        hi.timeline⟩
      exact List.append_subset.mpr ⟨hi.sent, List.cons_subset.mpr ⟨hi.recorded (List.mem_of_getElem? he), nofun⟩⟩
  | attach =>
    refine ⟨hi.unique, hi.numbered, hi.history, hi.recorded, List.append_subset.mpr ⟨hi.sent, fun e he => ?_⟩,
      hi.delivered, hi.timeline⟩
    obtain he | ⟨kind, hl⟩ := (hi.history.mem_snapshot hi.distinct).mp he
    · exact hi.history.mem_events he
    · exact mem_of_lastOf hl
  | deliver picks =>
    have hbatch : (picks.filterMap fun i => s.sent[i]?).map k.onPhone ⊆ s.pushed.map k.onPhone := by
      refine List.map_subset _ fun e he => ?_
      obtain ⟨i, -, hi'⟩ := List.mem_filterMap.mp he
      exact hi.sent (List.mem_of_getElem? hi')
    have hall := List.append_subset.mpr ⟨hi.delivered, hbatch⟩
    refine ⟨hi.unique, hi.numbered, hi.history, hi.recorded, hi.sent, hall, ?_⟩
    show mergeAgentBatch s.timeline _ = _
    rw [hi.timeline]
    exact merge_retained (consistent_onPhone hi.distinct hall)

theorem inv_run (k : Kind ε) (evs : List (Event ε)) : Inv k (run k evs) := by
  refine Run.run_induction (I := fun _ s => Inv k s) ?_ fun _ _ _ _ hi => hi.step _
  refine ⟨List.nodup_nil, nofun, ⟨⟨rfl, nofun, [], rfl, ?_⟩, List.nodup_nil, fun _ => rfl⟩, nofun, nofun, nofun, rfl⟩
  intro before x after he
  exact absurd he (List.append_ne_nil_of_right_ne_nil _ (List.cons_ne_nil _ _)).symm

/-- In each state of each run all of it holds, if and only if the last events of the kinds were
kept. -/
theorem timeline_converges (k : Kind ε) (evs : List (Event ε)) :
    Converges k (run k evs) ↔ Kept k (run k evs).pushed := by
  have hi := inv_run k evs
  constructor
  · intro hc
    exact (hi.history.sticky_iff hi.distinct).mp hc.sticky
  · intro hk
    refine ⟨hi.history.window.counted, hi.history.window.cap, hi.history.snapshot_strict hi.distinct,
      (hi.history.sticky_iff hi.distinct).mpr hk, fun delivered hm => ?_⟩
    rw [retained_congr (consistent_onPhone hi.distinct hi.delivered) hm]
    exact hi.timeline

/-- The modes of an agent, and messages of 64 KiB. -/
def sample : Kind Bool :=
  ⟨fun isMode => if isMode then .reducer .modeState else .other, fun isMode => if isMode then 100 else 65536⟩

/-- Two tasks set the mode, the later number is recorded first. Then messages come. -/
def modesCross : List (Event Bool) :=
  [.draw true, .draw true, .push 1, .push 0] ++ (List.replicate 8 [.draw false, .push 0]).flatten

theorem mode_lost :
    ¬ ∀ (ε : Type) (k : Kind ε) (evs : List (Event ε)), Converges k (run k evs) := by
  intro h
  have hmem : (⟨2, true⟩ : Entry Bool) ∈ (run sample modesCross).pushed := by decide
  have hhighest : Highest sample (run sample modesCross).pushed ⟨2, true⟩ := by
    refine ⟨by decide, ?_⟩
    decide
  have hgone : (⟨2, true⟩ : Entry Bool) ∉ (run sample modesCross).history.snapshot := by decide
  exact hgone ((h Bool sample modesCross).sticky _ hmem hhighest)

end Portty.TimelineRun
