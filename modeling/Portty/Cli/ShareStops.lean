import Portty.Cli.Share

/-!
# Stopping a share

`Inv`: while the channel is open, the bytes that were read are those of the pipe, of the message
that is being written, of the queue and of the chunk that the tee thread sends, in this order.
`Silenced`: once the terminal was announced local-only, `Exited` is on its way to the pipe, and all
bytes before it were read before that. It needs that the one attempt to send `Exited` finds a free
permit (`Meets`).

`share_ordered`: in every run, the pipe has a prefix of what was read, and nothing after `Exited`.
`share_stops`: in every run whose steps meet the conditions, a share that was stopped has stopped.
`share_goes_on`: with a full queue it goes on.
-/

namespace Portty.Cli.Share

variable {w w' : World} {s t : Sender} {m : RelayToHost} {e : Event} {n : Nat}

/-! ## Messages on their way -/

@[simp] theorem outputs_append (l l' : List RelayToHost) :
    outputs (l ++ l') = outputs l ++ outputs l' :=
  List.flatMap_append

@[simp] theorem outputs_nil : outputs [] = [] := rfl

@[simp] theorem outputs_cons (m : RelayToHost) (l : List RelayToHost) :
    outputs (m :: l) = m.bytes ++ outputs l :=
  rfl

theorem outputs_singleton (m : RelayToHost) : outputs [m] = m.bytes := List.append_nil _

theorem outputs_mono {l l' : List RelayToHost} (h : l <+: l') : outputs l <+: outputs l' := by
  obtain ⟨r, rfl⟩ := h
  rw [outputs_append]
  exact List.prefix_append _ _

/-- The bytes of the message that is about to be sent. -/
def Send.bytes : Send → Bytes
  | .none => []
  | .waiting m | .granted m => m.bytes

/-- The message that is being written. -/
def Writer.messages : Writer → List RelayToHost
  | .writing m => [m]
  | .none | .idle | .done => []

/-- What the pipe will have when the writer has taken all messages. -/
def World.ahead (w : World) : List RelayToHost := w.pipe ++ w.writer.messages ++ w.queue

/-! ## The channel -/

/-- Only the permits, the line and the sends have changed. -/
structure Moved (sent : Sender → Bytes) (w w' : World) : Prop where
  queue : w'.queue = w.queue
  writer : w'.writer = w.writer
  pipe : w'.pipe = w.pipe
  closed : w'.closed = w.closed
  teeOpen : w'.teeOpen = w.teeOpen
  read : w'.read = w.read
  phase : w'.phase = w.phase
  announced : w'.announced = w.announced
  broken : w'.broken = w.broken
  offline : w'.offline = w.offline
  sends : ∀ s, (w'.sends s).bytes = sent s

/-- The bytes that a sender has not yet put into the queue. -/
def World.sent (w : World) (s : Sender) : Bytes := (w.sends s).bytes

theorem setSend_moved (w : World) (s : Sender) (send : Send) :
    Moved (Function.update w.sent s send.bytes) w (w.setSend s send) := by
  refine ⟨rfl, rfl, rfl, rfl, rfl, rfl, rfl, rfl, rfl, rfl, fun t => ?_⟩
  by_cases ht : t = s
  · subst ht
    simp [World.setSend]
  · simp [World.setSend, World.sent, ht]

theorem send_moved (w : World) (s : Sender) (m : RelayToHost) :
    Moved (Function.update w.sent s m.bytes) w (w.send s m) := by
  unfold World.send
  split
  · have h := setSend_moved { w with permits := w.permits - 1 } s (.granted m)
    exact ⟨rfl, rfl, rfl, rfl, rfl, rfl, rfl, rfl, rfl, rfl, h.sends⟩
  · have h := setSend_moved { w with line := w.line ++ [s] } s (.waiting m)
    exact ⟨rfl, rfl, rfl, rfl, rfl, rfl, rfl, rfl, rfl, rfl, h.sends⟩

theorem grant_moved (w : World) (s : Sender) : Moved w.sent w (w.grant s) := by
  unfold World.grant
  split
  · rename_i m hs
    have h := setSend_moved w s (.granted m)
    have hm : w.sent s = m.bytes := congrArg Send.bytes hs
    have h : Moved (Function.update w.sent s m.bytes) w (w.setSend s (.granted m)) := h
    rw [← hm, Function.update_eq_self] at h
    exact h
  · exact ⟨rfl, rfl, rfl, rfl, rfl, rfl, rfl, rfl, rfl, rfl, fun _ => rfl⟩

theorem release_moved (w : World) : Moved w.sent w w.release := by
  unfold World.release
  split
  · exact ⟨rfl, rfl, rfl, rfl, rfl, rfl, rfl, rfl, rfl, rfl, fun _ => rfl⟩
  · rename_i s rest _
    have h := grant_moved { w with line := rest } s
    exact ⟨h.queue, h.writer, h.pipe, h.closed, h.teeOpen, h.read, h.phase, h.announced, h.broken, h.offline, h.sends⟩

/-- A cancel takes back what the main task was about to send. -/
theorem cancel_moved (w : World) : Moved (Function.update w.sent .main []) w w.cancel := by
  unfold World.cancel
  split
  · rename_i hs
    have hm : w.sent .main = [] := congrArg Send.bytes hs
    rw [← hm, Function.update_eq_self]
    exact ⟨rfl, rfl, rfl, rfl, rfl, rfl, rfl, rfl, rfl, rfl, fun _ => rfl⟩
  · have h := setSend_moved { w with line := w.line.filter (· ≠ Sender.main) } .main .none
    exact ⟨rfl, rfl, rfl, rfl, rfl, rfl, rfl, rfl, rfl, rfl, h.sends⟩
  · have h := setSend_moved w .main .none
    have hr := release_moved (w.setSend .main .none)
    exact ⟨hr.queue, hr.writer, hr.pipe, hr.closed, hr.teeOpen, hr.read, hr.phase, hr.announced, hr.broken,
      hr.offline, fun s => (hr.sends s).trans (h.sends s)⟩

/-! ## The order of the output -/

/-- What was read is on its way to the host until the share ends. -/
structure Inv (w : World) : Prop where
  opened : w.closed = false → w.teeOpen = true ∧ outputs w.ahead ++ w.sent .tee = w.read ∧ w.writer ≠ .done ∧
    .exited ∉ w.pipe
  ended : w.closed = true → outputs w.pipe <+: w.read ∧ w.queue = [] ∧ (w.writer = .done ∨ w.writer = .none) ∧
    (.exited ∈ w.pipe ∨ w.broken = true ∨ w.offline = true)
  /-- Only the tee thread sends output. -/
  quiet : ∀ s, s ≠ .tee → w.sent s = []
  last : .exited ∉ w.pipe.dropLast
  /-- Before the connection nothing is written, and the writer does not run. -/
  start : w.phase = .connecting → w.closed = false ∧ w.writer = .none ∧ w.pipe = []

/-- The invariant does not see who waits for a permit. -/
theorem Inv.moved {sent : Sender → Bytes} (h : Inv w) (hm : Moved sent w w')
    (hs : ∀ s, sent s = w.sent s) :
    Inv w' := by
  have hsent : ∀ s, w'.sent s = w.sent s := fun s => (hm.sends s).trans (hs s)
  have hahead : w'.ahead = w.ahead := by
    unfold World.ahead
    rw [hm.pipe, hm.writer, hm.queue]
  constructor
  · rw [hm.closed, hm.teeOpen, hahead, hsent, hm.read, hm.writer, hm.pipe]
    exact h.opened
  · rw [hm.closed, hm.pipe, hm.read, hm.queue, hm.writer, hm.broken, hm.offline]
    exact h.ended
  · intro s hne
    rw [hsent]
    exact h.quiet s hne
  · rw [hm.pipe]
    exact h.last
  · rw [hm.phase, hm.closed, hm.writer, hm.pipe]
    exact h.start

/-- A step that touches neither the output nor the channel. -/
theorem Inv.of_same (h : Inv w) (hqueue : w'.queue = w.queue) (hwriter : w'.writer = w.writer)
    (hpipe : w'.pipe = w.pipe) (hclosed : w'.closed = w.closed) (hopen : w'.teeOpen = w.teeOpen)
    (hread : w'.read = w.read) (hbroken : w'.broken = w.broken) (hoffline : w'.offline = w.offline)
    (hsends : w'.sends = w.sends) (hphase : w'.phase = .connecting → w.phase = .connecting) :
    Inv w' := by
  have hahead : w'.ahead = w.ahead := by
    unfold World.ahead
    rw [hpipe, hwriter, hqueue]
  have hsent : w'.sent = w.sent := by
    funext s
    unfold World.sent
    rw [hsends]
  constructor
  · rw [hclosed, hopen, hahead, hsent, hread, hwriter, hpipe]
    exact h.opened
  · rw [hclosed, hpipe, hread, hqueue, hwriter, hbroken, hoffline]
    exact h.ended
  · rw [hsent]
    exact h.quiet
  · rw [hpipe]
    exact h.last
  · rw [hclosed, hwriter, hpipe]
    exact fun hp => h.start (hphase hp)

theorem Inv.ordered (h : Inv w) : outputs w.pipe <+: w.read := by
  cases hc : w.closed with
  | true => exact (h.ended hc).1
  | false =>
    obtain ⟨-, hread, -⟩ := h.opened hc
    rw [← hread, World.ahead, outputs_append, outputs_append, List.append_assoc, List.append_assoc]
    exact List.prefix_append _ _

/-- The message of a sender comes into the queue. -/
theorem Inv.push (h : Inv w) (hm : m.bytes = w.sent s) (hc : w.closed = false) :
    Inv ({ w with queue := w.queue ++ [m] }.setSend s .none) := by
  have hsends := (setSend_moved { w with queue := w.queue ++ [m] } s .none).sends
  obtain ⟨hopen, hread, hdone, hexited⟩ := h.opened hc
  constructor
  · intro _
    refine ⟨hopen, ?_, hdone, hexited⟩
    have hahead : World.ahead ({ w with queue := w.queue ++ [m] }.setSend s .none) =
        w.ahead ++ [m] :=
      (List.append_assoc _ _ _).symm
    rw [hahead, outputs_append, outputs_singleton, World.sent, hsends]
    by_cases hs : s = .tee
    · subst hs
      rw [Function.update_self, hm]
      show outputs w.ahead ++ w.sent .tee ++ [] = w.read
      rw [List.append_nil, hread]
    · rw [Function.update_of_ne (Ne.symm hs), hm, h.quiet s hs, List.append_nil]
      exact hread
  · intro hc'
    exact absurd (hc.symm.trans hc') nofun
  · intro t ht
    rw [World.sent, hsends]
    by_cases hs : t = s
    · subst hs
      exact Function.update_self ..
    · rw [Function.update_of_ne hs]
      exact h.quiet t ht
  · exact h.last
  · exact h.start

/-- The message of a sender is dropped. -/
theorem Inv.drop (h : Inv w) (hs : s ≠ .tee ∨ w.closed = true) : Inv (w.setSend s .none) := by
  have hsends := (setSend_moved w s .none).sends
  constructor
  · intro hc
    have hne := hs.resolve_right (by rw [show w.closed = false from hc]; nofun)
    obtain ⟨hopen, hread, hrest⟩ := h.opened hc
    refine ⟨hopen, ?_, hrest⟩
    rw [World.sent, hsends, Function.update_of_ne (Ne.symm hne)]
    exact hread
  · exact h.ended
  · intro t ht
    rw [World.sent, hsends]
    by_cases hts : t = s
    · subst hts
      exact Function.update_self ..
    · rw [Function.update_of_ne hts]
      exact h.quiet t ht
  · exact h.last
  · exact h.start

/-- A sender without output starts to send. -/
theorem Inv.send (h : Inv w) (hm : m.bytes = w.sent s) : Inv (w.send s m) := by
  refine h.moved (send_moved w s m) fun t => ?_
  rw [hm, Function.update_eq_self]

/-- A chunk is read, and the tee thread sends it. -/
theorem Inv.tee (h : Inv w) {bytes : Bytes} (hc : w.closed = false) (hidle : w.sends .tee = .none) :
    Inv (World.send { w with read := w.read ++ bytes } .tee (.output bytes)) := by
  have hm := send_moved { w with read := w.read ++ bytes } .tee (.output bytes)
  obtain ⟨hopen, hread, hdone, hexited⟩ := h.opened hc
  constructor
  · intro _
    rw [hm.teeOpen, World.sent, hm.sends, Function.update_self, hm.read, hm.writer, hm.pipe]
    refine ⟨hopen, ?_, hdone, hexited⟩
    have hahead : World.ahead (World.send { w with read := w.read ++ bytes } .tee (.output bytes)) =
        w.ahead := by
      unfold World.ahead
      rw [hm.pipe, hm.writer, hm.queue]
    rw [hahead]
    show outputs w.ahead ++ bytes = w.read ++ bytes
    have hsent : w.sent .tee = [] := congrArg Send.bytes hidle
    rw [← hread, hsent, List.append_nil]
  · intro hc'
    rw [hm.closed] at hc'
    exact absurd (hc.symm.trans hc') nofun
  · intro t ht
    rw [World.sent, hm.sends, Function.update_of_ne ht]
    exact h.quiet t ht
  · rw [hm.pipe]
    exact h.last
  · rw [hm.phase, hm.closed, hm.writer, hm.pipe]
    exact h.start

/-- The channel is closed, and output is mirrored only. -/
theorem Inv.mirror (h : Inv w) (hc : w.closed = true) (bytes : Bytes) (teeOpen : Bool) :
    Inv { w with read := w.read ++ bytes, teeOpen } where
  opened := fun hc' => absurd (hc.symm.trans hc') nofun
  ended := fun hc => ⟨(h.ended hc).1.trans (List.prefix_append _ _), (h.ended hc).2⟩
  quiet := h.quiet
  last := h.last
  start := h.start

/-- What was read is about to be sent. -/
theorem Inv.readPty (h : Inv w) (bytes : Bytes) : Inv (w.readPty bytes) := by
  unfold World.readPty
  split
  · exact h
  · rename_i hidle
    rw [Bool.or_eq_true, not_or] at hidle
    dsimp only
    split
    · rename_i hopen
      by_cases hc : w.closed = true
      · exact h.mirror hc bytes w.teeOpen
      · rw [(h.opened (Bool.eq_false_iff.mpr hc)).1] at hopen
        cases hopen
    · split
      · rename_i hc
        exact h.mirror hc bytes false
      · rename_i hc
        exact h.tee (Bool.eq_false_iff.mpr hc) (by simpa using hidle.2)

/-- A size is no output. -/
theorem Inv.resized (h : Inv w) (cols rows : Nat) : Inv (w.resized cols rows) := by
  unfold World.resized
  split
  · exact h
  · rename_i hidle
    rw [Bool.or_eq_true, not_or] at hidle
    have hlast : Inv { w with last := (cols, rows) } :=
      h.of_same rfl rfl rfl rfl rfl rfl rfl rfl rfl fun hp => hp
    dsimp only
    split
    · exact hlast
    · refine hlast.send ?_
      exact (h.quiet .resize (by decide)).symm

/-- A message with a permit goes into the queue; after the end it is dropped. -/
theorem Inv.wake (h : Inv w) (s : Sender) : Inv (w.wake s) := by
  unfold World.wake
  split
  · exact h
  · rename_i m hs
    have hm : m.bytes = w.sent s := (congrArg Send.bytes hs).symm
    by_cases hc : w.closed = true
    · rw [if_pos hc]
      exact h.drop (.inr hc)
    · rw [if_neg hc]
      exact h.push hm (Bool.eq_false_iff.mpr hc)
  · split
    · rename_i hc
      exact Inv.drop (h.mirror hc [] _ |>.of_same rfl rfl rfl rfl rfl (List.append_nil _).symm rfl rfl rfl fun hp => hp)
        (.inr hc)
    · exact h

/-! ## The writer -/

/-- The writer takes the first message. -/
theorem Inv.take (h : Inv w) : Inv w.take := by
  unfold World.take
  split
  · rename_i m rest hw hq
    have hahead : World.ahead { w with queue := rest, writer := .writing m } = w.ahead := by
      simp [World.ahead, hw, hq, Writer.messages]
    have hnext : Inv { w with queue := rest, writer := .writing m } := by
      constructor
      · intro hc
        obtain ⟨hopen, hread, -, hexited⟩ := h.opened hc
        exact ⟨hopen, by rw [hahead]; exact hread, nofun, hexited⟩
      · intro hc
        rcases (h.ended hc).2.2.1 with hd | hd <;> exact absurd (hw.symm.trans hd) nofun
      · exact h.quiet
      · exact h.last
      · intro hp
        exact absurd (hw.symm.trans (h.start hp).2.1) nofun
    exact hnext.moved (release_moved _) fun _ => rfl
  · exact h

/-- The writer ends. -/
theorem Inv.finish (h : Inv w) (hp : w.phase ≠ .connecting)
    (hend : .exited ∈ w.pipe ∨ w.broken = true) :
    Inv w.finish where
  opened := nofun
  ended := fun _ => ⟨h.ordered, rfl, .inl rfl, hend.imp_right .inl⟩
  quiet := h.quiet
  last := h.last
  start := fun hc => absurd hc hp

theorem writing_ne (hw : w.writer = .writing m) : w.writer ≠ .none ∧ w.writer ≠ .done := by
  rw [hw]
  exact ⟨nofun, nofun⟩

/-- A message is written, or the pipe is broken. -/
theorem Inv.write (h : Inv w) (ok : Bool) : Inv (w.write ok) := by
  unfold World.write
  split
  · rename_i m hw
    have hphase : w.phase ≠ .connecting := fun hp => (writing_ne hw).1 (h.start hp).2.1
    have hc : w.closed = false := by
      by_contra hc
      rcases (h.ended (by simpa using hc)).2.2.1 with he | he
      · exact (writing_ne hw).2 he
      · exact (writing_ne hw).1 he
    obtain ⟨htee, hread, -, hexited⟩ := h.opened hc
    split
    · refine Inv.finish ?_ hphase (.inr rfl)
      exact
        { opened := h.opened
          ended := fun hc' => absurd (hc.symm.trans hc') Bool.false_ne_true
          quiet := h.quiet
          last := h.last
          start := h.start }
    · have hlast : RelayToHost.exited ∉ (w.pipe ++ [m]).dropLast := by
        rw [List.dropLast_concat]
        exact hexited
      -- The message is still ahead, now in the pipe.
      have hahead : World.ahead { w with pipe := w.pipe ++ [m], writer := .idle } = w.ahead := by
        simp [World.ahead, Writer.messages, hw]
      dsimp only
      split
      · rename_i hm
        refine
          { opened := fun hc' => absurd hc' Bool.false_ne_true.symm
            ended := fun _ => ⟨?_, rfl, .inl rfl, .inl (by simp [World.finish, hm])⟩
            quiet := h.quiet
            last := hlast
            start := fun hp => absurd hp hphase }
        rw [← hread, World.ahead, hw, outputs_append _ w.queue, List.append_assoc]
        exact List.prefix_append _ _
      · rename_i hm
        refine
          { opened := fun _ => ⟨htee, ?_, Writer.noConfusion, ?_⟩
            ended := fun hc' => absurd (hc.symm.trans hc') Bool.false_ne_true
            quiet := h.quiet
            last := hlast
            start := fun hp => absurd hp hphase }
        · rw [hahead]
          exact hread
        · intro hmem
          rcases List.mem_append.mp hmem with hmem | hmem
          · exact hexited hmem
          · exact hm (List.mem_singleton.mp hmem).symm
  all_goals exact h

/-! ## The main task -/

/-- Connecting starts the writer, or the share is offline. -/
theorem Inv.connect (h : Inv w) (ok : Bool) : Inv (w.connect ok) := by
  unfold World.connect
  split
  · exact h
  · rename_i hp
    obtain ⟨hc, hw, hpipe⟩ := h.start (not_not.mp hp)
    obtain ⟨htee, hread, -, hexited⟩ := h.opened hc
    split
    · refine
        { opened := fun _ => ⟨htee, ?_, nofun, hexited⟩
          ended := fun hc' => absurd (hc.symm.trans hc') nofun
          quiet := h.quiet
          last := h.last
          start := nofun }
      rw [← hread]
      simp [World.ahead, Writer.messages, hw, RelayToHost.bytes, World.sent]
    · exact
        { opened := nofun
          ended := fun _ => ⟨h.ordered, rfl, .inr hw, .inr (.inr rfl)⟩
          quiet := h.quiet
          last := h.last
          start := nofun }

theorem trySend_open (h : ¬ (w.closed || w.permits == 0)) (m : RelayToHost) :
    w.trySend m = { w with permits := w.permits - 1, queue := w.queue ++ [m] } := if_neg h

/-- The main task tries to send `Exited`. -/
theorem Inv.stopSharing (h : Inv w) : Inv w.stopSharing := by
  unfold World.stopSharing
  by_cases hfull : w.closed || w.permits == 0
  · rw [World.trySend, if_pos hfull]
    exact h.of_same rfl rfl rfl rfl rfl rfl rfl rfl rfl fun hp => hp
  · rw [trySend_open hfull]
    rw [Bool.or_eq_true, not_or] at hfull
    have hc := Bool.eq_false_iff.mpr hfull.1
    obtain ⟨htee, hread, hdone, hexited⟩ := h.opened hc
    refine
      { opened := fun _ => ⟨htee, ?_, hdone, hexited⟩
        ended := fun hc' => absurd (hc.symm.trans hc') nofun
        quiet := h.quiet
        last := h.last
        start := h.start }
    rw [← hread]
    simp [World.ahead, RelayToHost.bytes, World.sent]

theorem Inv.tick (h : Inv w) : Inv w.tick := by
  unfold World.tick
  split
  · exact h
  · split
    · exact h.of_same rfl rfl rfl rfl rfl rfl rfl rfl rfl nofun
    · have hstop : Inv (if w.announced.isNone && w.detach then w.stopSharing else w) := by
        split
        · exact h.stopSharing
        · exact h
      dsimp only
      generalize (if w.announced.isNone && w.detach then w.stopSharing else w) = w' at hstop ⊢
      split
      · exact hstop.of_same rfl rfl rfl rfl rfl rfl rfl rfl rfl nofun
      · exact hstop

theorem Inv.sendExited (h : Inv w) : Inv w.sendExited := by
  unfold World.sendExited
  split
  · exact h.of_same rfl rfl rfl rfl rfl rfl rfl rfl rfl nofun
  · have hnext : Inv { w with phase := .sending } := h.of_same rfl rfl rfl rfl rfl rfl rfl rfl rfl nofun
    exact hnext.send (h.quiet .main (by decide)).symm

theorem Inv.proceed (h : Inv w) : Inv w.proceed := by
  unfold World.proceed
  split
  · split
    · exact h.sendExited
    · exact h
  · split
    · exact h.of_same rfl rfl rfl rfl rfl rfl rfl rfl rfl nofun
    · exact h
  · split
    · exact h.of_same rfl rfl rfl rfl rfl rfl rfl rfl rfl nofun
    · exact h
  all_goals exact h

theorem Inv.cancel (h : Inv w) : Inv w.cancel := by
  refine h.moved (cancel_moved w) fun s => ?_
  by_cases hs : s = .main
  · subst hs
    rw [Function.update_self]
    exact (h.quiet .main (by decide)).symm
  · rw [Function.update_of_ne hs]

theorem Inv.timeout (h : Inv w) : Inv w.timeout := by
  unfold World.timeout
  split
  · exact h.sendExited
  · exact h.cancel.of_same rfl rfl rfl rfl rfl rfl rfl rfl rfl nofun
  · exact h.of_same rfl rfl rfl rfl rfl rfl rfl rfl rfl nofun
  all_goals exact h

theorem Inv.step (h : Inv w) (e : Event) : Inv (w.step e) := by
  unfold World.step
  split
  · exact h
  · cases e with
    | connect ok => exact h.connect ok
    | read bytes => exact h.readPty bytes
    | eof =>
      dsimp only
      split
      · exact h.of_same rfl rfl rfl rfl rfl rfl rfl rfl rfl fun hp => hp
      · exact h
    | resized cols rows => exact h.resized cols rows
    | wake s => exact h.wake s
    | take => exact h.take
    | write ok => exact h.write ok
    | detach | input | kill | childExit => exact h.of_same rfl rfl rfl rfl rfl rfl rfl rfl rfl fun hp => hp
    | tick => exact h.tick
    | proceed => exact h.proceed
    | timeout => exact h.timeout

/-- A share of a command. -/
def start (title : String) (cols rows : Nat) : World := { title, cols, rows }

theorem inv_start (title : String) (cols rows : Nat) : Inv (start title cols rows) where
  opened := fun _ => ⟨rfl, rfl, nofun, nofun⟩
  ended := nofun
  quiet := fun _ _ => rfl
  last := nofun
  start := fun _ => ⟨rfl, rfl, rfl⟩

/-- In every run, the pipe has a prefix of what was read, and nothing after `Exited`. -/
theorem share_ordered (title : String) (cols rows : Nat) (events : List Event) :
    let w := Run.run World.step (start title cols rows) events
    outputs w.pipe <+: w.read ∧ .exited ∉ w.pipe.dropLast := by
  have h : Inv (Run.run World.step (start title cols rows) events) :=
    Run.run_induction (I := fun _ w => Inv w) (inv_start title cols rows) fun _ e _ _ h => h.step e
  exact ⟨h.ordered, h.last⟩

/-! ## After the detach -/

/-- Messages are only added to what is on its way. -/
structure Grows (w w' : World) : Prop where
  announced : w'.announced = w.announced
  closed : w'.closed = w.closed
  pipe : w'.pipe = w.pipe
  ahead : w.ahead <+: w'.ahead
  connecting : w'.phase = .connecting → w.phase = .connecting
  exited : w'.phase = .exited → w.phase = .exited

theorem Grows.of_same (hann : w'.announced = w.announced) (hclosed : w'.closed = w.closed)
    (hpipe : w'.pipe = w.pipe) (hwriter : w'.writer = w.writer) (hqueue : w'.queue = w.queue)
    (hconn : w'.phase = .connecting → w.phase = .connecting)
    (hexit : w'.phase = .exited → w.phase = .exited) :
    Grows w w' := by
  have hahead : w'.ahead = w.ahead := by
    unfold World.ahead
    rw [hpipe, hwriter, hqueue]
  exact ⟨hann, hclosed, hpipe, ⟨[], hahead ▸ List.append_nil _⟩, hconn, hexit⟩

theorem Grows.refl (w : World) : Grows w w := .of_same rfl rfl rfl rfl rfl (fun h => h) fun h => h

theorem Grows.trans {u v : World} (h : Grows w u) (h' : Grows u v) : Grows w v where
  announced := h'.announced.trans h.announced
  closed := h'.closed.trans h.closed
  pipe := h'.pipe.trans h.pipe
  ahead := h.ahead.trans h'.ahead
  connecting := fun hp => h.connecting (h'.connecting hp)
  exited := fun hp => h.exited (h'.exited hp)

theorem Moved.grows {sent : Sender → Bytes} (h : Moved sent w w') : Grows w w' := by
  refine .of_same h.announced h.closed h.pipe h.writer h.queue ?_ ?_
  · rw [h.phase]
    exact fun hp => hp
  · rw [h.phase]
    exact fun hp => hp

theorem readPty_grows (w : World) (bytes : Bytes) : Grows w (w.readPty bytes) := by
  unfold World.readPty
  split
  · exact .refl w
  · have hread : Grows w { w with read := w.read ++ bytes } := .of_same rfl rfl rfl rfl rfl (fun h => h) fun h => h
    dsimp only
    split
    · exact hread
    · split
      · exact .of_same rfl rfl rfl rfl rfl (fun h => h) fun h => h
      · exact hread.trans (send_moved _ _ _).grows

theorem resized_grows (w : World) (cols rows : Nat) : Grows w (w.resized cols rows) := by
  unfold World.resized
  split
  · exact .refl w
  · have hlast : Grows w { w with last := (cols, rows) } := .of_same rfl rfl rfl rfl rfl (fun h => h) fun h => h
    dsimp only
    split
    · exact hlast
    · exact hlast.trans (send_moved _ _ _).grows

/-- A wake adds to the end of what is on its way. -/
theorem wake_grows (w : World) (s : Sender) : Grows w (w.wake s) := by
  unfold World.wake
  split
  · exact .refl w
  · rename_i m _
    refine Grows.trans (u := { w with queue := if w.closed then w.queue else w.queue ++ [m] }) ?_
      (setSend_moved _ _ _).grows
    refine ⟨rfl, rfl, rfl, ?_, fun h => h, fun h => h⟩
    split
    · exact List.prefix_rfl
    · refine ⟨[m], ?_⟩
      simp [World.ahead]
  · split
    · refine Grows.trans (u := { w with teeOpen := w.teeOpen && s ≠ Sender.tee }) ?_ (setSend_moved _ _ _).grows
      exact .of_same rfl rfl rfl rfl rfl (fun h => h) fun h => h
    · exact .refl w

theorem take_grows (w : World) : Grows w w.take := by
  unfold World.take
  split
  · rename_i m rest hw hq
    refine Grows.trans (u := { w with queue := rest, writer := .writing m }) ?_ (release_moved _).grows
    refine ⟨rfl, rfl, rfl, ?_, fun h => h, fun h => h⟩
    simp [World.ahead, hw, hq, Writer.messages]
  · exact .refl w

theorem sendExited_grows (w : World) : Grows w w.sendExited := by
  unfold World.sendExited
  split
  · exact .of_same rfl rfl rfl rfl rfl nofun nofun
  · have hnext : Grows w { w with phase := .sending } := .of_same rfl rfl rfl rfl rfl nofun nofun
    exact hnext.trans (send_moved _ _ _).grows

/-- Once the terminal is announced local-only, `Exited` is on its way, and what is before it was
read until then. -/
structure Silenced (w : World) : Prop where
  ahead : ∀ n ∈ w.announced, w.closed = false → ∃ pre post, w.ahead = pre ++ .exited :: post ∧ (outputs pre).length ≤ n
  pipe : ∀ n ∈ w.announced, w.closed = true → (outputs w.pipe).length ≤ n
  exited : w.phase = .exited → w.announced ≠ none → w.closed = true
  start : w.phase = .connecting → w.announced = none

/-- What is added comes behind `Exited`. -/
theorem Silenced.grows (h : Silenced w) (hg : Grows w w') : Silenced w' where
  ahead := by
    intro n hn hc
    obtain ⟨pre, post, he, hle⟩ := h.ahead n (hg.announced ▸ hn) (hg.closed ▸ hc)
    obtain ⟨l, hl⟩ := hg.ahead
    exact ⟨pre, post ++ l, by rw [← hl, he, List.append_assoc, List.cons_append], hle⟩
  pipe := by
    intro n hn hc
    rw [hg.pipe]
    exact h.pipe n (hg.announced ▸ hn) (hg.closed ▸ hc)
  exited := by
    intro hp hn
    rw [hg.closed]
    exact h.exited (hg.exited hp) (hg.announced ▸ hn)
  start := by
    intro hp
    rw [hg.announced]
    exact h.start (hg.connecting hp)

theorem Silenced.of_none (hn : w.announced = none) : Silenced w where
  ahead := by
    rw [hn]
    exact nofun
  pipe := by
    rw [hn]
    exact nofun
  exited := fun _ h => absurd hn h
  start := fun _ => hn

/-- A list without `x` that is at the front of another ends before `x`. -/
theorem prefix_of_not_mem {α : Type} {l pre post : List α} {x : α} (h : l <+: pre ++ x :: post)
    (hx : x ∉ l) :
    l <+: pre := by
  have hpre : pre ++ [x] <+: pre ++ x :: post := ⟨post, by rw [List.append_assoc]; rfl⟩
  rcases List.prefix_or_prefix_of_prefix h hpre with hl | hl
  · rcases List.prefix_concat_iff.mp hl with rfl | hl
    · exact absurd (List.mem_append_right _ List.mem_cons_self) hx
    · exact hl
  · exact absurd (hl.subset (List.mem_append_right _ List.mem_cons_self)) hx

/-- The pipe has only bytes from before the announcement. -/
theorem Silenced.pipe_le (h : Silenced w) (hi : Inv w) (hn : n ∈ w.announced) :
    (outputs w.pipe).length ≤ n := by
  by_cases hc : w.closed = true
  · exact h.pipe n hn hc
  · have hc := Bool.eq_false_iff.mpr hc
    obtain ⟨pre, post, he, hle⟩ := h.ahead n hn hc
    have hpipe : w.pipe <+: w.ahead := by
      rw [World.ahead, List.append_assoc]
      exact List.prefix_append _ _
    have hpre := prefix_of_not_mem (he ▸ hpipe) (hi.opened hc).2.2.2
    exact Nat.le_trans (outputs_mono hpre).length_le hle

/-- The writer ends with `Exited`. -/
theorem Silenced.write (h : Silenced w) (hi : Inv w) (ok : Bool) : Silenced (w.write ok) := by
  unfold World.write
  split
  · rename_i m hw
    split
    · exact
        { ahead := fun _ _ hc' => absurd hc' Bool.false_ne_true.symm
          pipe := fun n hn _ => h.pipe_le hi hn
          exited := fun _ _ => rfl
          start := h.start }
    · have hahead : World.ahead { w with pipe := w.pipe ++ [m], writer := .idle } = w.ahead := by
        simp [World.ahead, Writer.messages, hw]
      dsimp only
      split
      · rename_i hm
        subst hm
        have hout : outputs (w.pipe ++ [.exited]) = outputs w.pipe := by
          rw [outputs_append]
          exact List.append_nil _
        exact
          { ahead := fun _ _ hc' => absurd hc' Bool.false_ne_true.symm
            pipe := fun n hn _ => hout ▸ h.pipe_le hi hn
            exited := fun _ _ => rfl
            start := h.start }
      · have hc : w.closed = false := by
          by_contra hc
          rcases (hi.ended (by simpa using hc)).2.2.1 with he | he
          · exact (writing_ne hw).2 he
          · exact (writing_ne hw).1 he
        exact
          { ahead := by
              intro n hn _
              rw [hahead]
              exact h.ahead n hn hc
            pipe := fun _ _ hc' => absurd (hc.symm.trans hc') Bool.false_ne_true
            exited := h.exited
            start := h.start }
  all_goals exact h

/-- `Exited` goes into the queue that has room, behind what was read until now. -/
theorem Silenced.stopSharing (hi : Inv w) (hm : w.permits > 0 ∨ w.closed = true)
    (hp : w.phase = .running) :
    Silenced w.stopSharing := by
  have hphase (w' : World) (h : w'.phase = w.phase) :
      (w'.phase = .exited → w'.announced ≠ none → w'.closed = true) ∧ (w'.phase = .connecting → w'.announced = none) := by
    rw [h, hp]
    exact ⟨nofun, nofun⟩
  unfold World.stopSharing
  by_cases hfull : w.closed || w.permits == 0
  · have hc : w.closed = true := by
      rcases hm with hm | hm
      · have hne : w.permits ≠ 0 := by omega
        simpa [hne] using hfull
      · exact hm
    rw [World.trySend, if_pos hfull]
    obtain ⟨hexit, hstart⟩ := hphase { w with announced := some w.read.length } rfl
    refine ⟨fun n _ hc' => absurd (hc.symm.trans hc') nofun, ?_, hexit, hstart⟩
    rintro n ⟨⟩ _
    exact hi.ordered.length_le
  · have hc : w.closed = false := by
      rw [Bool.or_eq_true, not_or] at hfull
      exact Bool.eq_false_iff.mpr hfull.1
    rw [trySend_open hfull]
    obtain ⟨hexit, hstart⟩ :=
      hphase { w with permits := w.permits - 1, queue := w.queue ++ [.exited], announced := some w.read.length } rfl
    refine ⟨?_, fun n _ hc' => absurd (hc.symm.trans hc') nofun, hexit, hstart⟩
    rintro n ⟨⟩ _
    refine ⟨w.ahead, [], (List.append_assoc _ _ _).symm, ?_⟩
    rw [← (hi.opened hc).2.1, List.length_append]
    exact Nat.le_add_right _ _

theorem Silenced.tick (h : Silenced w) (hi : Inv w) (hm : Meets w .tick) : Silenced w.tick := by
  unfold World.tick
  split
  · exact h
  · rename_i hp
    have hp := not_not.mp hp
    split
    · exact h.grows (.of_same rfl rfl rfl rfl rfl nofun nofun)
    · rename_i hd
      have hstop : Silenced (if w.announced.isNone && w.detach then w.stopSharing else w) := by
        split
        · rename_i hdet
          rw [Bool.and_eq_true] at hdet
          exact .stopSharing hi (hm hp (Bool.eq_false_iff.mpr hd) (Option.isNone_iff_eq_none.mp hdet.1) hdet.2) hp
        · exact h
      dsimp only
      generalize (if w.announced.isNone && w.detach then w.stopSharing else w) = w' at hstop ⊢
      split
      · exact hstop.grows (.of_same rfl rfl rfl rfl rfl nofun nofun)
      · exact hstop

/-- The process ends. -/
theorem Silenced.exit (h : Silenced w) (hc : w.announced ≠ none → w.closed = true) :
    Silenced { w with phase := .exited } :=
  ⟨h.ahead, h.pipe, fun _ hn => hc hn, nofun⟩

/-- At its end the main task sends `Exited` once more. -/
theorem Silenced.proceed (h : Silenced w) : Silenced w.proceed := by
  unfold World.proceed
  split
  · split
    · exact h.grows (sendExited_grows w)
    · exact h
  · split
    · exact h.grows (.of_same rfl rfl rfl rfl rfl nofun nofun)
    · exact h
  · split
    · rename_i hc
      exact h.exit fun _ => hc
    · exact h
  all_goals exact h

theorem Silenced.timeout (h : Silenced w) (hm : Meets w .timeout) : Silenced w.timeout := by
  unfold World.timeout
  split
  · exact h.grows (sendExited_grows w)
  · refine h.grows ((cancel_moved w).grows.trans ?_)
    exact .of_same rfl rfl rfl rfl rfl nofun nofun
  · exact h.exit (hm (by assumption))
  all_goals exact h

theorem Silenced.step (h : Silenced w) (hi : Inv w) (hm : Meets w e) : Silenced (w.step e) := by
  unfold World.step
  split
  · exact h
  · cases e with
    | connect ok =>
      dsimp only
      unfold World.connect
      split
      · exact h
      · rename_i hp
        have hn := h.start (not_not.mp hp)
        split <;> exact .of_none hn
    | read bytes => exact h.grows (readPty_grows w bytes)
    | eof =>
      dsimp only
      split
      · exact h.grows (.of_same rfl rfl rfl rfl rfl (fun h => h) fun h => h)
      · exact h
    | resized cols rows => exact h.grows (resized_grows w cols rows)
    | wake s => exact h.grows (wake_grows w s)
    | take => exact h.grows (take_grows w)
    | write ok => exact h.write hi ok
    | detach | input | kill | childExit => exact h.grows (.of_same rfl rfl rfl rfl rfl (fun h => h) fun h => h)
    | tick => exact h.tick hi hm
    | proceed => exact h.proceed
    | timeout => exact h.timeout hm

theorem Silenced.stops (h : Silenced w) (hi : Inv w) : Stops w := by
  refine ⟨hi.ordered, hi.last, fun n hn => h.pipe_le hi hn, fun hn hd => ?_⟩
  by_cases hc : w.closed = true
  · exact (hi.ended hc).2.2.2
  · obtain ⟨n, hn'⟩ := Option.ne_none_iff_exists'.mp hn
    have hopen := Bool.eq_false_iff.mpr hc
    obtain ⟨pre, post, he, -⟩ := h.ahead n hn' hopen
    rcases hd with hp | hw | ⟨-, hc'⟩ | ⟨hw, hq⟩
    · exact absurd (h.exited hp hn) hc
    · exact absurd hw (hi.opened hopen).2.2.1
    · exact absurd hc' hc
    · refine .inl ?_
      have hpipe : w.ahead = w.pipe := by
        simp [World.ahead, hw, hq, Writer.messages]
      rw [← hpipe, he]
      simp

/-- In every run whose steps meet the conditions, a share that was stopped has stopped. -/
theorem share_stops (title : String) (cols rows : Nat) (events : List Event)
    (h : Run.Along World.step Meets (start title cols rows) events) :
    Stops (Run.run World.step (start title cols rows) events) := by
  have hboth := h.induction (I := fun w => Inv w ∧ Silenced w) ⟨inv_start title cols rows, .of_none rfl⟩
    fun w e hw hm => ⟨hw.1.step e, hw.2.step hw.1 hm⟩
  exact hboth.2.stops hboth.1

/-! ## Runs -/

/-- A share of 80 columns. -/
def terminal : World := start "shell" 80 24

/-- The daemon takes everything, and gets `Exited`. -/
def stopped : List Event :=
  [.connect true, .write true, .read [1], .wake .tee, .take, .write true, .detach, .tick, .read [2], .wake .tee,
    .take, .write true]

theorem share_stops_stopped : Stops (Run.run World.step terminal stopped) := by
  apply share_stops "shell" 80 24 stopped
  refine ⟨trivial, trivial, trivial, trivial, trivial, trivial, trivial, ?_, trivial, trivial, trivial, trivial, trivial⟩
  exact fun _ _ _ _ => .inl (by decide)

/-- A running share whose tee thread is not sending. -/
structure Sharing (permits : Nat) (queue pipe : List RelayToHost) (read : Bytes) (announced : Option Nat)
    (w : World) : Prop where
  phase : w.phase = .running
  flags : w.done = false ∧ w.childExited = false
  tee : w.closed = false ∧ w.teeOpen = true ∧ w.teeEnded = false ∧ w.sends .tee = .none
  writer : w.writer = .idle
  line : w.line = []
  permits : w.permits = permits
  queue : w.queue = queue
  pipe : w.pipe = pipe
  read : w.read = read
  announced : w.announced = announced

variable {queue pipe : List RelayToHost} {read : Bytes} {announced : Option Nat}

theorem Sharing.chunk (h : Sharing (n + 1) queue pipe read announced w) (bytes : Bytes) :
    Sharing n (queue ++ [.output bytes]) pipe (read ++ bytes) announced
      (Run.run World.step w [.read bytes, .wake .tee]) := by
  obtain ⟨hclosed, hopen, hended, hidle⟩ := h.tee
  have hread : w.step (.read bytes) =
      World.setSend { w with read := w.read ++ bytes, permits := n } .tee (.granted (.output bytes)) := by
    simp [World.step, World.readPty, World.send, World.setSend, h.phase, hclosed, hopen, hended,
      hidle, h.permits]
  rw [Run.run_cons, Run.run_cons, Run.run_nil, hread]
  constructor <;> simp [World.step, World.wake, World.setSend, h.phase, h.flags, hclosed, hopen, hended, h.writer,
    h.line, h.queue, h.pipe, h.read, h.announced]

/-- The queue is full when the main task detaches. -/
theorem Sharing.detach (h : Sharing 0 queue pipe read none w) :
    Sharing 0 queue pipe read (some read.length) (Run.run World.step w [.detach, .tick]) := by
  constructor <;> simp [World.step, World.tick, World.stopSharing, World.trySend, h.phase, h.flags, h.tee, h.writer,
    h.line, h.permits, h.queue, h.pipe, h.read, h.announced]

theorem Sharing.write (h : Sharing n (m :: queue) pipe read announced w) (hm : m ≠ .exited) :
    Sharing (n + 1) queue (pipe ++ [m]) read announced (Run.run World.step w [.take, .write true]) := by
  have htake : w.step .take = { w with queue := queue, writer := .writing m, permits := n + 1 } := by
    simp [World.step, World.take, World.release, h.phase, h.writer, h.queue, h.line, h.permits]
  rw [Run.run_cons, Run.run_cons, Run.run_nil, htake]
  constructor <;> simp [World.step, World.write, h.phase, h.flags, h.tee, h.line, h.pipe, h.read, h.announced, hm]

/-- The tee thread sends the chunks. -/
def feed : List Bytes → List Event
  | [] => []
  | bytes :: chunks => .read bytes :: .wake .tee :: feed chunks

/-- The writer takes and writes messages. -/
def drain : Nat → List Event
  | 0 => []
  | k + 1 => .take :: .write true :: drain k

theorem Sharing.fed {chunks : List Bytes}
    (h : Sharing (n + chunks.length) queue pipe read announced w) :
    Sharing n (queue ++ chunks.map .output) pipe (read ++ chunks.flatten) announced
      (Run.run World.step w (feed chunks)) := by
  induction chunks generalizing w queue read with
  | nil => simpa [feed] using h
  | cons bytes chunks ih =>
    have hnext := ih (h.chunk bytes)
    rw [List.append_assoc, List.append_assoc] at hnext
    exact hnext

theorem Sharing.drained {chunks : List Bytes}
    (h : Sharing n (chunks.map .output) pipe read announced w) :
    Sharing (n + chunks.length) [] (pipe ++ chunks.map .output) read announced
      (Run.run World.step w (drain chunks.length)) := by
  induction chunks generalizing w n pipe with
  | nil => simpa [drain] using h
  | cons bytes chunks ih =>
    have hnext := ih (h.write nofun)
    rw [Nat.add_right_comm, List.append_assoc] at hnext
    exact hnext

/-- Chunks of one byte. -/
def chunks (k : Nat) : List Bytes := List.replicate k [0]

theorem chunks_length (k : Nat) : (chunks k).length = k := List.length_replicate

theorem chunks_flatten (k : Nat) : (chunks k).flatten = List.replicate k 0 := by
  simp [chunks, List.flatten_replicate_singleton]

theorem outputs_chunks (chunks : List Bytes) : outputs (chunks.map .output) = chunks.flatten := by
  induction chunks with
  | nil => rfl
  | cons bytes chunks ih => rw [List.map_cons, outputs_cons, ih, List.flatten_cons, RelayToHost.bytes]

/-- The queue is full at `portty exit`; the writer goes on, and so does the shell. -/
def overrun : List Event :=
  [.connect true, .write true] ++ feed (chunks relayTeeFrames) ++ [.detach, .tick] ++ [.take, .write true] ++
    [.read [1], .wake .tee] ++ drain relayTeeFrames

/-- The terminal was announced local-only when 512 bytes were read, and the next one is written to
the pipe. -/
theorem share_goes_on :
    let w := Run.run World.step terminal overrun
    w.announced = some relayTeeFrames ∧ outputs w.pipe = List.replicate relayTeeFrames 0 ++ [1] ∧ ¬ Stops w := by
  intro w
  obtain ⟨k, hk⟩ : ∃ k, relayTeeFrames = k + 1 := ⟨511, rfl⟩
  have hstart : Sharing (0 + (chunks relayTeeFrames).length) [] [.register "shell" 80 24] [] none
      (Run.run World.step terminal [.connect true, .write true]) := by
    refine ⟨rfl, ⟨rfl, rfl⟩, ⟨rfl, rfl, rfl, rfl⟩, rfl, rfl, ?_, rfl, rfl, rfl, rfl⟩
    rw [chunks_length, Nat.zero_add]
    rfl
  have hfull := hstart.fed.detach
  have hcons : (chunks relayTeeFrames).map RelayToHost.output =
      .output [0] :: (chunks k).map .output := by
    rw [hk]
    rfl
  rw [List.nil_append, List.nil_append, hcons] at hfull
  have hlater := (hfull.write nofun).chunk [1]
  rw [show [RelayToHost.output [1]] = [[1]].map .output from rfl, ← List.map_append] at hlater
  have hend := hlater.drained
  rw [List.length_append, chunks_length, List.length_singleton, ← hk] at hend
  have hend : Sharing (0 + relayTeeFrames) []
      ([.register "shell" 80 24] ++ [.output [0]] ++ (chunks k ++ [[1]]).map .output)
      ((chunks relayTeeFrames).flatten ++ [1]) (some (chunks relayTeeFrames).flatten.length) w := by
    simp only [w, overrun, Run.run_append]
    exact hend
  have hpipe : outputs w.pipe = List.replicate relayTeeFrames 0 ++ [1] := by
    have hpipe : w.pipe = [.register "shell" 80 24] ++ (chunks relayTeeFrames).map .output ++ [.output [1]] := by
      rw [hend.pipe, hcons]
      simp
    rw [hpipe, outputs_append, outputs_append, outputs_chunks, chunks_flatten]
    rfl
  have hann : w.announced = some relayTeeFrames := by
    rw [hend.announced, chunks_flatten, List.length_replicate]
  refine ⟨hann, hpipe, fun hs => ?_⟩
  have hle := hs.silent relayTeeFrames hann
  rw [hpipe, List.length_append, List.length_replicate, List.length_singleton] at hle
  omega

end Portty.Cli.Share
