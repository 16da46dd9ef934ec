import Portty.Cli.LaptopChatCards

/-!
# What the laptop renders

The events that the laptop is to show come to it through the queue of the channel and through
replays of the history. `TimeInv`: an event with a number above the last one that the laptop will
have seen is in the queue, or it was lost and a replay is due; one with a number up to it will be
rendered. This needs that an event of a task that was not recorded comes after the whole history,
and one that was not sent after the whole queue.

`shown_ordered`: in every run, no event is rendered twice or out of order. `TimeInv.step`: every
step that meets the conditions keeps the invariant. `chat_converges`: when all messages are
processed, all events that the laptop is to show are rendered, and it has the cards that are
pending.
-/

namespace Portty.Cli.LaptopChat

open Permission (PermissionOption)

variable {ε : Type} {f : Feed ε} {w w' : World ε} {e : AgentTimelineEvent ε} {i : Nat} {t : Task ε}
  {m : ManagerEvent ε} {last last' : Nat × List (AgentTimelineEvent ε)} {s : List (AgentTimelineEvent ε)}

/-! ## The order of the rendered events -/

/-- The rendered events are in order, up to the last number. -/
def Ordered (last : Nat × List (AgentTimelineEvent ε)) : Prop :=
  last.2.Pairwise (·.seq < ·.seq) ∧ ∀ e ∈ last.2, e.seq ≤ last.1

/-- What is not newer is not shown. -/
theorem Ordered.show (h : Ordered last) (m : HostToRelay ε) : Ordered (showEvent last m) := by
  cases m with
  | agentPermission | agentPermissionResolved => exact h
  | agentEvent e =>
    by_cases he : e.seq ≤ last.1
    · rw [showEvent, if_pos he]
      exact h
    · rw [showEvent, if_neg he]
      refine ⟨List.pairwise_append.mpr ⟨h.1, List.pairwise_singleton _ _, ?_⟩, ?_⟩
      · intro e' he' e'' hm
        rw [List.mem_singleton.mp hm]
        have := h.2 e' he'
        omega
      · intro e' he'
        show e'.seq ≤ e.seq
        rcases List.mem_append.mp he' with he' | he'
        · have := h.2 e' he'
          omega
        · rw [List.mem_singleton.mp he']

theorem broadcast_shown (w : World ε) (m : ManagerEvent ε) : (w.broadcast m).shown = w.shown := by
  have hs := broadcast_sent w m
  generalize w.broadcast m = w' at hs
  cases hs <;> rfl

theorem go_shown (f : Feed ε) (w : World ε) (i : Nat) (t : Task ε) :
    (w.go f i t).shown = w.shown := by
  cases t with
  | drawn | waiting | done => rfl
  | recorded | announce => exact broadcast_shown _ _
  | emit ids =>
    cases ids with
    | nil => rfl
    | cons => exact broadcast_shown _ _

theorem conn_shown (w : World ε) : w.conn.shown = w.shown := by
  unfold World.conn
  split
  · rfl
  · rfl
  · rfl
  · rfl
  · unfold World.recv
    split
    · rfl
    · split <;> rfl

/-- The numbers that are shown go up in every step. -/
theorem Ordered.step (h : Ordered w.shown) (f : Feed ε) (e : Event ε) :
    Ordered (w.step f e).shown := by
  cases e with
  | push | request | cancel => exact h
  | noise =>
    rw [World.step, broadcast_shown]
    exact h
  | resolve id =>
    rw [World.step, World.resolve]
    split
    · rw [broadcast_shown]
      exact h
    · exact h
  | reorder | connect =>
    rw [World.step]
    split <;> exact h
  | go i =>
    rw [World.step]
    cases w.tasks[i]? with
    | none => exact h
    | some t =>
      show Ordered (w.go f i t).shown
      rw [go_shown]
      exact h
  | conn =>
    rw [World.step, conn_shown]
    exact h
  | receive =>
    rw [World.step, World.receive]
    split
    · exact h
    · exact h.show _

/-- In every run, no event is rendered twice or out of order. -/
theorem shown_ordered (f : Feed ε) (events : List (Event ε)) :
    Ordered (Run.run (World.step f) ({} : World ε) events).shown :=
  Run.run_induction (I := fun _ (w : World ε) => Ordered w.shown) ⟨List.Pairwise.nil, List.forall_mem_nil _⟩
    fun _ e _ _ h => h.step f e

/-! ## A replay -/

/-- What is rendered of a sorted list of events. -/
structure Replayed (s : List (AgentTimelineEvent ε)) (last last' : Nat × List (AgentTimelineEvent ε)) : Prop where
  kept : ∀ e ∈ last.2, e ∈ last'.2
  le : last.1 ≤ last'.1
  reached : ∀ e ∈ s, e.seq ≤ last'.1
  rendered : ∀ e ∈ s, last.1 < e.seq → e ∈ last'.2
  last_eq : last'.1 = last.1 ∨ ∃ e ∈ s, last'.1 = e.seq

/-- A replay shows all that is newer than the last one, and nothing twice. -/
theorem replayed (hs : s.Pairwise (·.seq ≤ ·.seq)) (hu : ∀ e ∈ s, ∀ e' ∈ s, e.seq = e'.seq → e = e')
    (last : Nat × List (AgentTimelineEvent ε)) :
    Replayed s last ((s.map HostToRelay.agentEvent).foldl showEvent last) := by
  induction s generalizing last with
  | nil => exact ⟨fun _ h => h, le_refl _, nofun, nofun, .inl rfl⟩
  | cons e s ih =>
    obtain ⟨hle, hs⟩ := List.pairwise_cons.mp hs
    have ih := ih hs (fun a ha b hb => hu a (List.mem_cons_of_mem _ ha) b (List.mem_cons_of_mem _ hb))
      (showEvent last (.agentEvent e))
    rw [List.map_cons, List.foldl_cons]
    generalize (s.map HostToRelay.agentEvent).foldl showEvent (showEvent last (.agentEvent e)) = last' at ih ⊢
    by_cases he : e.seq ≤ last.1
    · rw [showEvent, if_pos he] at ih
      constructor
      · exact ih.kept
      · exact ih.le
      · intro a ha
        rcases List.mem_cons.mp ha with rfl | ha
        · exact he.trans ih.le
        · exact ih.reached a ha
      · intro a ha hlt
        rcases List.mem_cons.mp ha with rfl | ha
        · omega
        · exact ih.rendered a ha hlt
      · exact ih.last_eq.imp_right fun ⟨a, ha, hl⟩ => ⟨a, List.mem_cons_of_mem _ ha, hl⟩
    · rw [showEvent, if_neg he] at ih
      have hself : e ∈ last'.2 := ih.kept e (by simp)
      have hle' : e.seq ≤ last'.1 := ih.le
      constructor
      · exact fun a ha => ih.kept a (List.mem_append_left _ ha)
      · omega
      · intro a ha
        rcases List.mem_cons.mp ha with rfl | ha
        · exact hle'
        · exact ih.reached a ha
      · intro a ha _
        rcases List.mem_cons.mp ha with rfl | ha'
        · exact hself
        · by_cases heq : e.seq = a.seq
          · exact hu e List.mem_cons_self a ha heq ▸ hself
          · have hlt : e.seq < a.seq := by
              have := hle a ha'
              omega
            exact ih.rendered a ha' hlt
      · rcases ih.last_eq with hl | ⟨a, ha, hl⟩
        · exact .inr ⟨e, List.mem_cons_self, hl⟩
        · exact .inr ⟨a, List.mem_cons_of_mem _ ha, hl⟩

theorem showEvent_cards (p : List PendingApproval) (last : Nat × List (AgentTimelineEvent ε)) :
    (p.map HostToRelay.agentPermission).foldl showEvent last = last := by
  induction p with
  | nil => rfl
  | cons card p ih => exact ih

/-! ## The history -/

/-- All events of the history. -/
def AgentHistory.kept (h : AgentHistory ε) : List (AgentTimelineEvent ε) :=
  h.events ++ h.sticky.map (·.2)

theorem AgentHistory.mem_kept {h : AgentHistory ε} (he : e ∈ h.snapshot) : e ∈ h.kept := by
  have he := (List.perm_insertionSort _ _).mem_iff.mp he
  rcases List.mem_append.mp he with he | he
  · exact List.mem_append_left _ he
  · exact List.mem_append_right _ (List.mem_filter.mp he).1

theorem AgentHistory.snapshot_sorted (h : AgentHistory ε) :
    h.snapshot.Pairwise (·.seq ≤ ·.seq) := by
  have : Std.Total fun e e' : AgentTimelineEvent ε => e.seq ≤ e'.seq := ⟨fun e e' => Nat.le_total _ _⟩
  have : IsTrans (AgentTimelineEvent ε) fun e e' => e.seq ≤ e'.seq := ⟨fun _ _ _ => Nat.le_trans⟩
  exact List.pairwise_insertionSort _ _

theorem AgentHistory.prune_suffix (f : Feed ε) (events : List (AgentTimelineEvent ε))
    (bytes : Nat) :
    (AgentHistory.prune f events bytes).1 <:+ events := by
  induction events generalizing bytes with
  | nil => exact List.suffix_refl _
  | cons old rest ih =>
    cases rest with
    | nil => exact List.suffix_refl _
    | cons next rest =>
      rw [AgentHistory.prune]
      split
      · exact (ih _).trans (List.suffix_cons _ _)
      · exact List.suffix_refl _

/-- A push keeps nothing new but its event. -/
theorem AgentHistory.kept_push {h : AgentHistory ε} {e' : AgentTimelineEvent ε}
    (he : e ∈ (h.push f e').kept) :
    e ∈ h.kept ∨ e = e' := by
  rcases List.mem_append.mp he with he | he
  · have he := (AgentHistory.prune_suffix f _ _).subset he
    rcases List.mem_append.mp he with he | he
    · exact .inl (List.mem_append_left _ he)
    · exact .inr (List.mem_singleton.mp he)
  · obtain ⟨⟨kind, a⟩, hmem, rfl⟩ := List.mem_map.mp he
    have hold (hm : (kind, a) ∈ h.sticky) : a ∈ h.kept :=
      List.mem_append_right _ (List.mem_map.mpr ⟨_, hm, rfl⟩)
    unfold AgentHistory.push at hmem
    dsimp only at hmem
    split at hmem
    · rcases Rows.mem_put.mp hmem with heq | ⟨hmem, -⟩
      · cases heq
        exact .inr rfl
      · exact .inl (hold hmem)
    · exact .inl (hold hmem)

/-! ## The invariant -/

/-- The events of the queue. -/
def World.line (w : World ε) : List (AgentTimelineEvent ε) := w.queue.flatMap ManagerEvent.timeline

/-- An event that was not sent comes after the queue, and one that was not recorded after the
history and after what the laptop will have seen. One that was replayed before it is sent will be
rendered. -/
def Task.Fits (w : World ε) : Task ε → Prop
  | .drawn e => e ∈ w.allDrawn ∧ (∀ q ∈ w.line, q.seq < e.seq) ∧ (∀ k ∈ w.history.kept, k.seq < e.seq) ∧
    w.eventsAhead.1 < e.seq
  | .recorded e => e ∈ w.allDrawn ∧ (∀ q ∈ w.line, q.seq < e.seq) ∧
    (e.seq ≤ w.eventsAhead.1 → e ∈ w.eventsAhead.2)
  | .announce _ | .waiting _ | .emit _ | .done => True

/-- The numbers are unique, and what is kept was drawn. -/
structure TimeInv (w : World ε) : Prop where
  unique : Rows.Unique (·.seq) w.allDrawn
  numbered : ∀ e ∈ w.allDrawn, 0 < e.seq ∧ e.seq < w.nextSeq
  kept : ∀ e ∈ w.history.kept, e ∈ w.allDrawn
  line : ∀ e ∈ w.line, e ∈ w.allDrawn
  line_sorted : w.line.Pairwise (·.seq < ·.seq)
  tasks : ∀ t ∈ w.tasks, t.Fits w
  ahead_lt : w.eventsAhead.1 < w.nextSeq
  rendered : ∀ e ∈ w.owed, e.seq ≤ w.eventsAhead.1 → e ∈ w.eventsAhead.2
  toCome : ∀ e ∈ w.owed, w.eventsAhead.1 < e.seq → e ∈ w.dropped ∨ e ∈ w.line
  lost : w.dropped ≠ [] → w.lagged = true ∨ w.phase = .replayEvents
  fresh : w.phase = .none ∨ w.phase = .connecting → w.eventsAhead.1 = 0

theorem Task.Fits.mem (h : t.Fits w) (he : e ∈ t.unsent) :
    e ∈ w.allDrawn ∧ ∀ q ∈ w.line, q.seq < e.seq := by
  cases t with
  | drawn | recorded =>
    rw [List.mem_singleton.mp he]
    exact ⟨h.1, h.2.1⟩
  | announce | waiting | emit | done => cases he

/-- What the queue, the history and the laptop may do for a task. -/
theorem Task.Fits.after (h : t.Fits w) (hdrawn : ∀ e ∈ w.allDrawn, e ∈ w'.allDrawn)
    (hline : ∀ q ∈ w'.line, q ∈ w.line ∨ ∀ e ∈ t.unsent, q.seq < e.seq)
    (hkept : ∀ k ∈ w'.history.kept, k ∈ w.history.kept ∨ ∀ e ∈ t.unrecorded, k.seq < e.seq)
    (hlast : ∀ e ∈ t.unrecorded, w.eventsAhead.1 < e.seq → w'.eventsAhead.1 < e.seq)
    (hacc : ∀ e ∈ t.unsentRecorded, (e.seq ≤ w.eventsAhead.1 → e ∈ w.eventsAhead.2) →
      e.seq ≤ w'.eventsAhead.1 → e ∈ w'.eventsAhead.2) : t.Fits w' := by
  have hline' : ∀ e ∈ t.unsent, ∀ q ∈ w'.line, q.seq < e.seq := by
    intro e he q hq
    rcases hline q hq with hq | hq
    · exact (h.mem he).2 q hq
    · exact hq e he
  cases t with
  | drawn e =>
    obtain ⟨hmem, -, hk, hl⟩ := h
    refine ⟨hdrawn e hmem, hline' e List.mem_cons_self, fun k hk' => ?_, hlast e List.mem_cons_self hl⟩
    rcases hkept k hk' with hk' | hk'
    · exact hk k hk'
    · exact hk' e List.mem_cons_self
  | recorded e =>
    obtain ⟨hmem, -, ha⟩ := h
    exact ⟨hdrawn e hmem, hline' e List.mem_cons_self, hacc e List.mem_cons_self ha⟩
  | announce | waiting | emit | done => trivial

/-- The same for a step that the laptop does not see. -/
theorem Task.Fits.same (h : t.Fits w) (hdrawn : ∀ e ∈ w.allDrawn, e ∈ w'.allDrawn)
    (hline : ∀ q ∈ w'.line, q ∈ w.line ∨ ∀ e ∈ t.unsent, q.seq < e.seq)
    (hkept : ∀ k ∈ w'.history.kept, k ∈ w.history.kept ∨ ∀ e ∈ t.unrecorded, k.seq < e.seq)
    (hahead : w'.eventsAhead = w.eventsAhead) : t.Fits w' := by
  refine h.after hdrawn hline hkept ?_ ?_
  · intro e _ he
    rw [hahead]
    exact he
  · intro e _ he
    rw [hahead]
    exact he

theorem Task.fits_of_unsent (h : t.unsent = []) : t.Fits w := by
  cases t with
  | drawn | recorded => cases h
  | announce | waiting | emit | done => trivial

/-- What moves no event keeps the invariant. -/
theorem TimeInv.of_same (h : TimeInv w) (hnext : w'.nextSeq = w.nextSeq)
    (hdrawn : w'.allDrawn = w.allDrawn)
    (hhistory : w'.history = w.history) (htasks : ∀ t ∈ w'.tasks, t ∈ w.tasks ∨ t.unsent = [])
    (hline : w'.line = w.line) (hahead : w'.eventsAhead = w.eventsAhead) (howed : w'.owed = w.owed)
    (hdropped : w'.dropped = w.dropped)
    (hlost : w.lagged = true ∨ w.phase = .replayEvents → w'.lagged = true ∨ w'.phase = .replayEvents)
    (hfresh : w'.phase = .none ∨ w'.phase = .connecting → w.phase = .none ∨ w.phase = .connecting) :
    TimeInv w' := by
  constructor
  · rw [hdrawn]
    exact h.unique
  · rw [hdrawn, hnext]
    exact h.numbered
  · rw [hdrawn, hhistory]
    exact h.kept
  · rw [hdrawn, hline]
    exact h.line
  · rw [hline]
    exact h.line_sorted
  · intro t ht
    rcases htasks t ht with ht | ht
    · refine (h.tasks t ht).same ?_ ?_ ?_ hahead
      · exact fun e he => hdrawn ▸ he
      · exact fun q hq => .inl (hline ▸ hq)
      · exact fun k hk => .inl (hhistory ▸ hk)
    · exact Task.fits_of_unsent ht
  · rw [hahead, hnext]
    exact h.ahead_lt
  · rw [howed, hahead]
    exact h.rendered
  · rw [howed, hahead, hdropped, hline]
    exact h.toCome
  · rw [hdropped]
    exact fun hd => hlost (h.lost hd)
  · rw [hahead]
    exact fun hp => h.fresh (hfresh hp)

/-! ## The tasks -/

/-- A number is drawn for the event. -/
theorem TimeInv.push (h : TimeInv w) (event : ε) : TimeInv (w.push event) := by
  have hnew : ∀ e ∈ w.allDrawn, e.seq ≠ w.nextSeq := fun e he => (h.numbered e he).2.ne
  constructor
  · show ((w.allDrawn ++ [AgentTimelineEvent.mk w.nextSeq event]).map AgentTimelineEvent.seq).Nodup
    rw [List.map_append, List.nodup_append]
    refine ⟨h.unique, List.nodup_singleton _, fun a ha b hb => ?_⟩
    obtain ⟨e, he, rfl⟩ := List.mem_map.mp ha
    rw [List.mem_singleton.mp hb]
    exact hnew e he
  · intro e he
    show 0 < e.seq ∧ e.seq < w.nextSeq + 1
    rcases List.mem_append.mp he with he | he
    · have := h.numbered e he
      omega
    · rw [List.mem_singleton.mp he]
      have := h.ahead_lt
      exact ⟨by show 0 < w.nextSeq; omega, Nat.lt_succ_self _⟩
  · exact fun e he => List.mem_append_left _ (h.kept e he)
  · exact fun e he => List.mem_append_left _ (h.line e he)
  · exact h.line_sorted
  · intro t ht
    rcases List.mem_append.mp ht with ht | ht
    · exact (h.tasks t ht).same (fun e he => List.mem_append_left _ he) (fun _ hq => .inl hq) (fun _ hk => .inl hk) rfl
    · rw [List.mem_singleton.mp ht]
      refine ⟨List.mem_append_right _ List.mem_cons_self, fun q hq => ?_, fun k hk => ?_, h.ahead_lt⟩
      · exact (h.numbered q (h.line q hq)).2
      · exact (h.numbered k (h.kept k hk)).2
  · exact Nat.lt_succ_of_lt h.ahead_lt
  · exact h.rendered
  · exact h.toCome
  · exact h.lost
  · exact h.fresh

/-- The event is recorded. -/
theorem TimeInv.record (h : TimeInv w) (hi : w.tasks[i]? = some (.drawn e))
    (hm : ∀ t ∈ w.tasks.eraseIdx i, ∀ e' ∈ t.unrecorded, e.seq < e'.seq) :
    TimeInv (w.go f i (.drawn e)) := by
  obtain ⟨hmem, hline, -, hlast⟩ := h.tasks _ (List.mem_of_getElem? hi)
  constructor
  · exact h.unique
  · exact h.numbered
  · intro a ha
    rcases AgentHistory.kept_push ha with ha | rfl
    · exact h.kept a ha
    · exact hmem
  · exact h.line
  · exact h.line_sorted
  · intro t ht
    rcases Table.mem_replace_eraseIdx ht with rfl | ht
    · exact ⟨hmem, hline, fun hle => absurd hlast (Nat.not_lt.mpr hle)⟩
    · refine (h.tasks t (List.mem_of_mem_eraseIdx ht)).same (fun _ he => he) (fun _ hq => .inl hq) (fun k hk => ?_) rfl
      rcases AgentHistory.kept_push hk with hk | rfl
      · exact .inl hk
      · exact .inr (hm t ht)
  · exact h.ahead_lt
  · exact h.rendered
  · exact h.toCome
  · exact h.lost
  · exact h.fresh

theorem timeline_sorted (m : ManagerEvent ε) : m.timeline.Pairwise (·.seq < ·.seq) := by
  cases m with
  | agentTimeline e => exact List.pairwise_singleton _ _
  | agentPermission | agentPermissionResolved | other => exact List.Pairwise.nil

/-- An event may be sent: it comes after the queue and before all others that are not sent. -/
structure Sendable (w : World ε) (e : AgentTimelineEvent ε) : Prop where
  drawn : e ∈ w.allDrawn
  after : ∀ q ∈ w.line, q.seq < e.seq
  before : ∀ t ∈ w.tasks, ∀ e' ∈ t.unsent, e.seq < e'.seq
  rendered : e.seq ≤ w.eventsAhead.1 → e ∈ w.eventsAhead.2

/-- A message comes to the queue; it may push out an older one. -/
theorem TimeInv.enqueue (h : TimeInv w) (hm : ∀ e ∈ m.timeline, Sendable w e)
    (hnext : w'.nextSeq = w.nextSeq)
    (hdrawn : w'.allDrawn = w.allDrawn) (hhistory : w'.history = w.history)
    (htasks : w'.tasks = w.tasks)
    (hahead : w'.eventsAhead = w.eventsAhead) (howed : w'.owed = w.owed ++ m.timeline)
    (hline : w'.line.Sublist (w.line ++ m.timeline))
    (hall : w'.dropped ++ w'.line = w.dropped ++ (w.line ++ m.timeline))
    (hlost : w'.dropped ≠ [] → w'.lagged = true ∨ w'.phase = .replayEvents)
    (hphase : w'.phase = w.phase) :
    TimeInv w' := by
  have hall' : ∀ e, e ∈ w.dropped ∨ e ∈ w.line ∨ e ∈ m.timeline → e ∈ w'.dropped ∨ e ∈ w'.line := by
    intro e he
    rw [← List.mem_append, hall, List.mem_append, List.mem_append]
    exact he
  constructor
  · rw [hdrawn]
    exact h.unique
  · rw [hdrawn, hnext]
    exact h.numbered
  · rw [hdrawn, hhistory]
    exact h.kept
  · intro e he
    rw [hdrawn]
    rcases List.mem_append.mp (hline.subset he) with he | he
    · exact h.line e he
    · exact (hm e he).drawn
  · refine List.Pairwise.sublist hline (List.pairwise_append.mpr ⟨h.line_sorted, timeline_sorted m, ?_⟩)
    exact fun q hq e he => (hm e he).after q hq
  · intro t ht
    rw [htasks] at ht
    refine (h.tasks t ht).same ?_ (fun q hq => ?_) ?_ hahead
    · exact fun e he => hdrawn ▸ he
    · exact (List.mem_append.mp (hline.subset hq)).imp_right fun hq => (hm q hq).before t ht
    · exact fun k hk => .inl (hhistory ▸ hk)
  · rw [hahead, hnext]
    exact h.ahead_lt
  · intro e he hle
    rw [hahead] at hle ⊢
    rw [howed] at he
    rcases List.mem_append.mp he with he | he
    · exact h.rendered e he hle
    · exact (hm e he).rendered hle
  · intro e he hlt
    rw [hahead] at hlt
    rw [howed] at he
    rcases List.mem_append.mp he with he | he
    · exact hall' e ((h.toCome e he hlt).imp_right .inl)
    · exact hall' e (.inr (.inr he))
  · exact hlost
  · rw [hphase, hahead]
    exact h.fresh

/-- An event is sent behind those in the queue, and before all later ones. -/
theorem TimeInv.send (h : TimeInv w) (hm : ∀ e ∈ m.timeline, Sendable w e) :
    TimeInv (w.broadcast m) := by
  have hs := broadcast_sent w m
  generalize w.broadcast m = w' at hs
  cases hs with
  | offline hp => exact h.of_same rfl rfl rfl (fun _ ht => .inl ht) rfl rfl rfl rfl (fun hl => hl) fun hp => hp
  | queued hp =>
    have hline : World.line { w with queue := w.queue ++ [m] } = w.line ++ m.timeline := by
      simp [World.line]
    refine h.enqueue hm rfl rfl rfl rfl rfl rfl ?_ ?_ h.lost rfl
    · exact hline ▸ List.Sublist.refl _
    · exact congrArg (w.dropped ++ ·) hline
  | lost hp old rest hq hc =>
    have hline : w.line = old.timeline ++ World.line { w with queue := rest } := by
      unfold World.line
      rw [hq]
      rfl
    have hline' : World.line { w with queue := rest ++ [m] } =
        World.line { w with queue := rest } ++ m.timeline := by
      simp [World.line]
    refine h.enqueue hm rfl rfl rfl rfl rfl rfl ?_ ?_ (fun _ => .inl rfl) rfl
    · show (World.line { w with queue := rest ++ [m] }).Sublist _
      rw [hline, hline', List.append_assoc]
      exact List.sublist_append_right _ _
    · show (w.dropped ++ old.timeline) ++ World.line { w with queue := rest ++ [m] } = _
      rw [hline, hline']
      simp only [List.append_assoc]

/-- A message without an event. -/
theorem TimeInv.tell (h : TimeInv w) (hm : m.timeline = []) : TimeInv (w.broadcast m) := by
  refine h.send fun e he => ?_
  rw [hm] at he
  cases he

/-- The event is sent. -/
theorem TimeInv.sendEvent (h : TimeInv w) (hi : w.tasks[i]? = some (.recorded e))
    (hm : ∀ t ∈ w.tasks.eraseIdx i, ∀ e' ∈ t.unsent, e.seq < e'.seq) :
    TimeInv (w.go f i (.recorded e)) := by
  obtain ⟨hmem, hline, hacc⟩ := h.tasks _ (List.mem_of_getElem? hi)
  rw [World.go, setTask_broadcast]
  have hdone : TimeInv (w.setTask i .done) := by
    refine h.of_same rfl rfl rfl (fun t ht => ?_) rfl rfl rfl rfl (fun hl => hl) fun hp => hp
    exact (Table.mem_replace ht).imp_right fun ht => by rw [ht]; rfl
  refine hdone.send fun a ha => ?_
  rw [List.mem_singleton.mp ha]
  refine ⟨hmem, hline, fun t ht => ?_, hacc⟩
  rcases Table.mem_replace_eraseIdx ht with rfl | ht
  · intro e' he'
    cases he'
  · exact hm t ht

/-- A task goes on that has no event. -/
theorem TimeInv.retask (h : TimeInv w) (ht : t.unsent = []) (i : Nat) :
    TimeInv (w.setTask i t) := by
  refine h.of_same rfl rfl rfl (fun t' ht' => ?_) rfl rfl rfl rfl (fun hl => hl) fun hp => hp
  rcases Table.mem_replace ht' with ht' | rfl
  · exact .inl ht'
  · exact .inr ht

theorem TimeInv.pend (h : TimeInv w) (p : List PendingApproval) : TimeInv { w with pending := p } :=
  h.of_same rfl rfl rfl (fun _ ht => .inl ht) rfl rfl rfl rfl (fun hl => hl) fun hp => hp

theorem TimeInv.spawn (h : TimeInv w) (ht : t.unsent = []) : TimeInv (w.spawn t) := by
  refine h.of_same rfl rfl rfl (fun t' ht' => ?_) rfl rfl rfl rfl (fun hl => hl) fun hp => hp
  rcases List.mem_append.mp ht' with ht' | ht'
  · exact .inl ht'
  · rw [List.mem_singleton.mp ht']
    exact .inr ht

theorem TimeInv.go (h : TimeInv w) (hi : w.tasks[i]? = some t) (hm : t.Meets w i) :
    TimeInv (w.go f i t) := by
  cases t with
  | drawn e => exact h.record hi hm
  | recorded e => exact h.sendEvent hi hm.1
  | announce card => exact (h.tell (m := .agentPermission card) rfl).retask rfl i
  | waiting id => exact (h.pend _).retask rfl i
  | emit ids =>
    cases ids with
    | nil => exact h.retask rfl i
    | cons id ids => exact (h.tell (m := .agentPermissionResolved id) rfl).retask rfl i
  | done => exact h

/-! ## The connection -/

/-- A replay renders what the history has. -/
theorem TimeInv.replay (h : TimeInv w) {owed : List (AgentTimelineEvent ε)}
    (howed : ∀ e ∈ owed, e ∈ w.history.snapshot) (hfirst : owed ≠ [] → w.eventsAhead.1 = 0)
    (hfound : ∀ e ∈ w.underway, e ∈ w.history.snapshot) : TimeInv (w.replay owed) := by
  have hdrawn : ∀ e ∈ w.history.snapshot, e ∈ w.allDrawn :=
    fun e he => h.kept e (AgentHistory.mem_kept he)
  have hr : Replayed w.history.snapshot w.eventsAhead (w.replay owed).eventsAhead := by
    have hahead : (w.replay owed).eventsAhead =
        (w.history.snapshot.map HostToRelay.agentEvent).foldl showEvent w.eventsAhead := List.foldl_append
    rw [hahead]
    refine replayed w.history.snapshot_sorted (fun e he e' he' => ?_) _
    exact h.unique.eq (hdrawn e he) (hdrawn e' he')
  have hline : ∀ e, e ∈ w.dropped ∨ e ∈ w.line → e ∈ w.history.snapshot := by
    intro e he
    refine hfound e (List.mem_append_left _ ?_)
    exact List.mem_append.mpr he
  -- What was to come is in the history, as is what is owed from now on.
  have hboth : ∀ e ∈ w.owed ++ owed, e.seq ≤ w.eventsAhead.1 ∧ e ∈ w.eventsAhead.2 ∨
      w.eventsAhead.1 < e.seq ∧ e ∈ w.history.snapshot := by
    intro e he
    rcases List.mem_append.mp he with he | he
    · by_cases hle : e.seq ≤ w.eventsAhead.1
      · exact .inl ⟨hle, h.rendered e he hle⟩
      · exact .inr ⟨by omega, hline e (h.toCome e he (by omega))⟩
    · have hpos := (h.numbered e (hdrawn e (howed e he))).1
      have hzero := hfirst (List.ne_nil_of_mem he)
      exact .inr ⟨by omega, howed e he⟩
  constructor
  · exact h.unique
  · exact h.numbered
  · exact h.kept
  · exact h.line
  · exact h.line_sorted
  · intro t ht
    have hfits := h.tasks t ht
    refine hfits.after (fun _ he => he) (fun _ hq => .inl hq) (fun _ hk => .inl hk) (fun e he hlt => ?_) ?_
    · rcases hr.last_eq with hl | ⟨a, ha, hl⟩
      · rw [hl]
        exact hlt
      · cases t with
        | drawn e' =>
          rw [hl, List.mem_singleton.mp he]
          exact hfits.2.2.1 a (AgentHistory.mem_kept ha)
        | recorded | announce | waiting | emit | done => cases he
    · intro e he hacc _
      by_cases hle : e.seq ≤ w.eventsAhead.1
      · exact hr.kept e (hacc hle)
      · refine hr.rendered e (hfound e (List.mem_append_right _ ?_)) (by omega)
        exact List.mem_flatMap.mpr ⟨t, ht, he⟩
  · show (w.replay owed).eventsAhead.1 < w.nextSeq
    rcases hr.last_eq with hl | ⟨a, ha, hl⟩
    · rw [hl]
      exact h.ahead_lt
    · rw [hl]
      exact (h.numbered a (hdrawn a ha)).2
  · intro e he _
    rcases hboth e he with ⟨-, he⟩ | ⟨hlt, he⟩
    · exact hr.kept e he
    · exact hr.rendered e he hlt
  · intro e he hlt
    rcases hboth e he with ⟨hle, -⟩ | ⟨-, he⟩
    · have := hr.le
      omega
    · have := hr.reached e he
      omega
  · exact fun hd => absurd rfl hd
  · rintro (hp | hp) <;> cases hp

/-- The laptop gets the next event of the queue. -/
theorem TimeInv.deliver (h : TimeInv w) (hp : w.phase = .looping) (hlag : w.lagged = false)
    {rest : List (ManagerEvent ε)} (hq : w.queue = .agentTimeline e :: rest) :
    TimeInv { w with queue := rest, pipe := w.pipe ++ [.agentEvent e] } := by
  have hline : w.line = e :: World.line { w with queue := rest } := by
    unfold World.line
    rw [hq]
    rfl
  have hdropped : w.dropped = [] := by
    by_contra hd
    rcases h.lost hd with hl | hl
    · rw [hlag] at hl
      cases hl
    · rw [hp] at hl
      cases hl
  obtain ⟨hlt, hsorted⟩ := List.pairwise_cons.mp (hline ▸ h.line_sorted)
  have hself : e ∈ w.line := hline ▸ List.mem_cons_self
  have hrest : ∀ q ∈ World.line { w with queue := rest }, q ∈ w.line :=
    fun q hq => hline ▸ List.mem_cons_of_mem _ hq
  have hahead : World.eventsAhead { w with queue := rest, pipe := w.pipe ++ [.agentEvent e] } =
      showEvent w.eventsAhead (.agentEvent e) := List.foldl_append
  by_cases hle : e.seq ≤ w.eventsAhead.1
  · rw [showEvent, if_pos hle] at hahead
    constructor
    · exact h.unique
    · exact h.numbered
    · exact h.kept
    · exact fun q hq => h.line q (hrest q hq)
    · exact hsorted
    · exact fun t ht => (h.tasks t ht).same (fun _ he => he) (fun q hq => .inl (hrest q hq)) (fun _ hk => .inl hk) hahead
    · rw [hahead]
      exact h.ahead_lt
    · rw [hahead]
      exact h.rendered
    · intro a ha hlast
      rw [hahead] at hlast
      refine (h.toCome a ha hlast).imp_right fun hmem => ?_
      rw [hline] at hmem
      rcases List.mem_cons.mp hmem with rfl | hmem
      · omega
      · exact hmem
    · exact h.lost
    · rintro (hn | hn) <;> exact absurd (hp.symm.trans hn) nofun
  · rw [showEvent, if_neg hle] at hahead
    constructor
    · exact h.unique
    · exact h.numbered
    · exact h.kept
    · exact fun q hq => h.line q (hrest q hq)
    · exact hsorted
    · intro t ht
      have hfits := h.tasks t ht
      refine hfits.after (fun _ he => he) (fun q hq => .inl (hrest q hq)) (fun _ hk => .inl hk) ?_ ?_
      · intro a ha _
        rw [hahead]
        refine (hfits.mem ?_).2 e hself
        cases t with
        | drawn => exact ha
        | recorded | announce | waiting | emit | done => cases ha
      · intro a ha _ hl
        rw [hahead] at hl
        have hlt' : e.seq < a.seq := by
          refine (hfits.mem ?_).2 e hself
          cases t with
          | recorded => exact ha
          | drawn | announce | waiting | emit | done => cases ha
        exact absurd hl (Nat.not_le.mpr hlt')
    · rw [hahead]
      exact (h.numbered e (h.line e hself)).2
    · intro a ha hl
      rw [hahead] at hl ⊢
      by_cases hold : a.seq ≤ w.eventsAhead.1
      · exact List.mem_append_left _ (h.rendered a ha hold)
      · -- It was to come, so it is the first of the queue.
        rcases h.toCome a ha (by omega) with hmem | hmem
        · rw [hdropped] at hmem
          cases hmem
        · rw [hline] at hmem
          rcases List.mem_cons.mp hmem with rfl | hmem
          · exact List.mem_append_right _ List.mem_cons_self
          · exact absurd hl (Nat.not_le.mpr (hlt a hmem))
    · intro a ha hlast
      rw [hahead] at hlast
      have hlast : e.seq < a.seq := hlast
      refine (h.toCome a ha (by omega)).imp_right fun hmem => ?_
      rw [hline] at hmem
      rcases List.mem_cons.mp hmem with rfl | hmem
      · omega
      · exact hmem
    · exact h.lost
    · rintro (hn | hn) <;> exact absurd (hp.symm.trans hn) nofun

theorem showEvent_forward (hm : m.timeline = []) (last : Nat × List (AgentTimelineEvent ε)) :
    (forward m).foldl showEvent last = last := by
  cases m with
  | agentTimeline => cases hm
  | agentPermission | agentPermissionResolved | other => rfl

/-- The loop takes the next message of its queue. -/
theorem TimeInv.recv (h : TimeInv w) (hp : w.phase = .looping) : TimeInv w.recv := by
  unfold World.recv
  split
  · refine h.of_same rfl rfl rfl (fun _ ht => .inl ht) rfl rfl rfl rfl (fun _ => .inr rfl) ?_
    rintro (hn | hn) <;> cases hn
  · rename_i hlag
    split
    · exact h
    · rename_i m rest hq
      have hlag : w.lagged = false := Bool.eq_false_iff.mpr hlag
      have hother (hm : m.timeline = []) :
          TimeInv { w with queue := rest, pipe := w.pipe ++ forward m } := by
        refine h.of_same rfl rfl rfl (fun _ ht => .inl ht) ?_ ?_ rfl rfl (fun hl => hl) fun hp => hp
        · show rest.flatMap ManagerEvent.timeline = w.queue.flatMap ManagerEvent.timeline
          rw [hq, List.flatMap_cons, hm]
          rfl
        · show (w.pipe ++ forward m).foldl showEvent w.shown = w.eventsAhead
          rw [List.foldl_append, showEvent_forward hm]
          rfl
      cases m with
      | agentTimeline e => exact h.deliver hp hlag hq
      | agentPermission | agentPermissionResolved | other => exact hother rfl

theorem TimeInv.conn (h : TimeInv w) (hm : Meets w .conn) : TimeInv w.conn := by
  unfold World.conn
  split
  · exact h
  · rename_i hp
    exact h.replay (fun _ he => he) (fun _ => h.fresh (.inr hp)) (hm (.inl hp))
  · rename_i hp
    exact h.replay nofun (fun hne => absurd rfl hne) (hm (.inr hp))
  · rename_i hp
    refine h.of_same rfl rfl rfl (fun _ ht => .inl ht) rfl ?_ rfl rfl (fun hl => ?_) ?_
    · show (w.pipe ++ w.pending.map HostToRelay.agentPermission).foldl showEvent w.shown = w.eventsAhead
      rw [List.foldl_append, showEvent_cards]
      rfl
    · refine hl.imp_right fun hr => ?_
      rw [hp] at hr
      cases hr
    · rintro (hn | hn) <;> cases hn
  · exact h.recv (by assumption)

theorem TimeInv.receive (h : TimeInv w) : TimeInv w.receive := by
  unfold World.receive
  split
  · exact h
  · rename_i m rest hpipe
    refine h.of_same rfl rfl rfl (fun _ ht => .inl ht) rfl ?_ rfl rfl (fun hl => hl) fun hp => hp
    unfold World.eventsAhead
    rw [hpipe]
    rfl

theorem TimeInv.step (h : TimeInv w) (f : Feed ε) {e : Event ε} (hm : Meets w e) :
    TimeInv (w.step f e) := by
  cases e with
  | push event => exact h.push event
  | request card => exact (h.pend _).spawn rfl
  | resolve id =>
    rw [World.step, World.resolve]
    split
    · exact (h.pend _).tell rfl
    · exact h
  | cancel => exact (h.pend _).spawn rfl
  | reorder p =>
    rw [World.step]
    split
    · exact h.pend p
    · exact h
  | noise => exact h.tell rfl
  | go i =>
    rw [World.step]
    cases hi : w.tasks[i]? with
    | none => exact h
    | some t => exact h.go hi (hm t hi)
  | connect =>
    rw [World.step]
    split
    · rename_i hp
      refine h.of_same rfl rfl rfl (fun _ ht => .inl ht) rfl rfl rfl rfl (fun hl => ?_) fun _ => .inl hp
      refine hl.imp_right fun hr => ?_
      rw [hp] at hr
      cases hr
    · exact h
  | conn => exact h.conn hm
  | receive => exact h.receive

theorem timeInv_start : TimeInv ({} : World ε) where
  unique := List.nodup_nil
  numbered := nofun
  kept := nofun
  line := nofun
  line_sorted := List.Pairwise.nil
  tasks := nofun
  ahead_lt := Nat.zero_lt_one
  rendered := nofun
  toCome := nofun
  lost := fun h => absurd rfl h
  fresh := fun _ => rfl

/-- When nothing is under way, all that was owed is shown. -/
theorem TimeInv.complete (h : TimeInv w) (hq : Quiescent w) : ∀ e ∈ w.owed, e ∈ w.shown.2 := by
  obtain ⟨hphase, hqueue, hlag, hpipe, -⟩ := hq
  have hahead : w.eventsAhead = w.shown := by
    unfold World.eventsAhead
    rw [hpipe]
    rfl
  intro e he
  by_cases hle : e.seq ≤ w.eventsAhead.1
  · exact hahead ▸ h.rendered e he hle
  · rcases h.toCome e he (by omega) with hd | hl
    · rcases h.lost (List.ne_nil_of_mem hd) with hl | hr
      · rw [hlag] at hl
        cases hl
      · rw [hphase] at hr
        cases hr
    · unfold World.line at hl
      rw [hqueue] at hl
      cases hl

/-! ## The laptop has caught up -/

/-- A decision is about a card of the list. -/
theorem decisionFor_mem {text toolCallId : String} {option : Option String}
    {p : List PendingApproval}
    (h : decisionFor text p = some (toolCallId, option)) :
    ∃ card ∈ p, card.toolCallId = toolCallId := by
  cases p with
  | nil => cases h
  | cons card p =>
    refine ⟨card, List.mem_cons_self, ?_⟩
    have hbind {o : Option PermissionOption}
        (h : (o.bind fun o => some (card.toolCallId, some o.optionId)) = some (toolCallId, option)) :
        card.toolCallId = toolCallId := by
      obtain ⟨o, -, h⟩ := Option.bind_eq_some_iff.mp h
      exact congrArg Prod.fst (Option.some.inj h)
    unfold decisionFor at h
    simp only [List.head?_cons, Option.bind_eq_bind, Option.bind_some] at h
    split at h
    · split at h
      · cases h
      · exact hbind h
    · split at h
      · exact hbind h
      · split at h
        · exact congrArg Prod.fst (Option.some.inj h)
        · cases h

/-- In every run whose steps meet the conditions, the laptop has caught up when all messages are
processed. -/
theorem chat_converges (f : Feed ε) (events : List (Event ε))
    (h : Run.Along (World.step f) Meets ({} : World ε) events)
    (hq : Quiescent (Run.run (World.step f) {} events)) :
    Converged (Run.run (World.step f) {} events) := by
  have htime := h.induction timeInv_start fun _ _ hi hm => TimeInv.step hi f hm
  have hcards := h.induction cardInv_start fun _ _ hi hm => CardInv.step hi f hm
  have hiff := hcards.cards_iff hq
  constructor
  · exact (shown_ordered f events).1
  · exact htime.complete hq
  · exact hiff
  · intro text toolCallId option hd
    obtain ⟨card, hmem, hid⟩ := decisionFor_mem hd
    exact ⟨card, (hiff card).mp hmem, hid⟩

/-! ## Runs -/

/-- No event is large or sticky. -/
def plain : Feed Nat := ⟨fun _ => 1, fun _ => none⟩

/-- A card with one option. -/
def cardOf (toolCallId : String) : PendingApproval :=
  ⟨toolCallId, "run", [⟨"allow", "Allow", .allowOnce⟩]⟩

/-- An event and a card reach the laptop. -/
def chat : List (Event Nat) :=
  [.connect, .conn, .conn, .push 7, .go 0, .go 0, .request (cardOf "b"), .go 1, .conn, .conn, .receive, .receive]

theorem chat_converges_chat : Converged (Run.run (World.step plain) {} chat) := by
  have hnot {p q : Phase} (hp : p = q) (h : q ≠ .connecting ∧ q ≠ .replayEvents) :
      ¬ (p = .connecting ∨ p = .replayEvents) := by
    rw [hp]
    exact not_or.mpr h
  apply chat_converges plain chat
  · refine ⟨trivial, fun _ => nofun, fun h => absurd h (hnot rfl (by decide)), trivial, ?_, ?_, trivial, ?_,
      fun h => absurd h (hnot rfl (by decide)), fun h => absurd h (hnot rfl (by decide)), trivial, trivial, trivial⟩
    · rintro _ ⟨⟩
      exact nofun
    · rintro _ ⟨⟩
      exact ⟨nofun, trivial⟩
    · rintro _ ⟨⟩
      exact ⟨List.mem_cons_self, trivial⟩
  · exact ⟨rfl, rfl, rfl, rfl, by decide⟩

/-- The second event is recorded and sent before the first one. -/
def overtaken : List (Event Nat) :=
  [.connect, .conn, .conn, .push 1, .push 2, .go 1, .go 1, .go 0, .go 0, .conn, .conn, .receive, .receive]

/-- The first card is answered on the phone before it is announced. -/
def stale : List (Event Nat) :=
  [.connect, .conn, .conn, .request (cardOf "a"), .resolve "a", .go 0, .request (cardOf "b"), .go 1,
    .conn, .conn, .conn, .receive, .receive, .receive]

/-- All messages are processed, and the laptop has not rendered an event, or answers a card that is
resolved while another one waits. -/
theorem chat_diverges :
    let w := Run.run (World.step plain) {} overtaken
    let w' := Run.run (World.step plain) {} stale
    (Quiescent w ∧ ⟨1, 1⟩ ∈ w.owed ∧ ⟨1, 1⟩ ∈ w.history.snapshot ∧ ⟨1, 1⟩ ∉ w.shown.2) ∧
      Quiescent w' ∧ w'.pending = [cardOf "b"] ∧ decisionFor "1" w'.cards = some ("a", some "allow") :=
  ⟨⟨⟨rfl, rfl, rfl, rfl, by decide⟩, by decide, by decide, by decide⟩,
    ⟨rfl, rfl, rfl, rfl, by decide⟩, rfl, by decide⟩

end Portty.Cli.LaptopChat
